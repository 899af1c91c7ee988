import NewClLang.FinishOrder
import NewClLang.StackSearch

set_option autoImplicit false

/-!
# Folds over a graph

A value of each node of a graph that is made of the values of the nodes it leads to. It is looked up
where it has been made before, and where a node is met inside of itself there is none.
-/
namespace NewClLang.MemoFolds
open GraphSearch Relation

/-- The nodes that a node leads to, unless it is none of the graph, and what is made of their values,
one after the other. -/
structure Fold (ν γ β ε : Type*) where
  children : ν → Option (List ν)
  start : ν → γ
  step : ν → γ → β → Except ε γ
  finish : ν → γ → Except ε β

inductive Failure (ν ε : Type*) where
  | undeclared (stack : List ν) (n : ν)
  | cycle (names : List ν)
  | failed (error : ε)

abbrev Memo (ν β : Type*) := List (ν × β)

section Definitions
variable {ν γ β ε : Type*} [DecidableEq ν] (F : Fold ν γ β ε)

abbrev Result (ν α β ε : Type*) := Option (Except (Failure ν ε) (α × Memo ν β))

def foldEach (visit : ν → Memo ν β → Result ν β β ε) (n : ν) :
    List ν → γ → Memo ν β → Result ν γ β ε
  | [], g, memo => some (.ok (g, memo))
  | c :: cs, g, memo =>
    match visit c memo with
    | none => none
    | some (.error f) => some (.error f)
    | some (.ok (b, memo')) =>
      match F.step n g b with
      | .error e => some (.error (.failed e))
      | .ok g' => foldEach visit n cs g' memo'

def fold : ℕ → List ν → ν → Memo ν β → Result ν β β ε
  | 0, _, _, _ => none
  | fuel + 1, stack, n, memo =>
    match F.children n with
    | none => some (.error (.undeclared stack n))
    | some cs =>
      match memo.lookup n with
      | some b => some (.ok (b, memo))
      | none =>
        if n ∈ stack then some (.error (.cycle (stack ++ [n])))
        else
          match foldEach F (fold fuel (stack ++ [n])) n cs (F.start n) memo with
          | none => none
          | some (.error f) => some (.error f)
          | some (.ok (g, memo')) =>
            match F.finish n g with
            | .error e => some (.error (.failed e))
            | .ok b => some (.ok (b, (n, b) :: memo'))

/-- The values of some nodes, one after the other. -/
def foldNames (fuel : ℕ) : List ν → Memo ν β → Option (Except (Failure ν ε) (Memo ν β))
  | [], memo => some (.ok memo)
  | n :: ns, memo =>
    match fold F fuel [] n memo with
    | none => none
    | some (.error f) => some (.error f)
    | some (.ok (_, memo')) => foldNames fuel ns memo'

def Edge (m n : ν) : Prop := ∃ cs, F.children m = some cs ∧ n ∈ cs

/-- What is made of the values of the nodes that a node leads to, without a memo. -/
inductive Folds : ν → List ν → γ → γ → Prop where
  | nil {n : ν} {g : γ} : Folds n [] g g
  | cons {n c : ν} {cs ds : List ν} {g g' g'' d : γ} {b : β} (hchildren : F.children c = some ds)
    (hfolds : Folds c ds (F.start c) d) (hfinish : F.finish c d = .ok b)
    (hstep : F.step n g b = .ok g') (hrest : Folds n cs g' g'') : Folds n (c :: cs) g g''

/-- The value of a node. -/
def Derives (n : ν) (b : β) : Prop :=
  ∃ cs g, F.children n = some cs ∧ Folds F n cs (F.start n) g ∧ F.finish n g = .ok b

/-- The nodes that a node leads to have values up to some place, and there they do not fit. -/
inductive Fails (n : ν) : List ν → γ → ε → Prop where
  | step {c : ν} {cs : List ν} {g : γ} {b : β} {e : ε} (hchild : Derives F c b)
    (hstep : F.step n g b = .error e) : Fails n (c :: cs) g e
  | finish {g : γ} {e : ε} (hfinish : F.finish n g = .error e) : Fails n [] g e
  | later {c : ν} {cs : List ν} {g g' : γ} {b : β} {e : ε} (hchild : Derives F c b)
    (hstep : F.step n g b = .ok g') (hrest : Fails n cs g' e) : Fails n (c :: cs) g e

/-- The failure is in what the root leads to. -/
inductive Blamed (root : ν) : Failure ν ε → Prop where
  | undeclared {stack : List ν} {n : ν} (hchain : (stack ++ [n]).IsChain (Edge F))
    (hhead : (stack ++ [n]).head? = some root) (hchildren : F.children n = none) :
    Blamed root (.undeclared stack n)
  | cycle {stack : List ν} {n : ν} (hmem : n ∈ stack) (hchain : (stack ++ [n]).IsChain (Edge F))
    (hhead : (stack ++ [n]).head? = some root) : Blamed root (.cycle (stack ++ [n]))
  | failed {n : ν} {cs : List ν} {e : ε} (hpath : ReflTransGen (Edge F) root n)
    (hchildren : F.children n = some cs) (hfails : Fails F n cs (F.start n) e) :
    Blamed root (.failed e)

/-- What is in the memo are values of the nodes. -/
def Valid (memo : Memo ν β) : Prop := ∀ n b, memo.lookup n = some b → Derives F n b

end Definitions

section Derivations
variable {ν γ β ε : Type*} {F : Fold ν γ β ε} {n : ν} {cs : List ν} {g g' g'' : γ} {b b' : β}

theorem Folds.unique (h : Folds F n cs g g') (h' : Folds F n cs g g'') : g' = g'' := by
  induction h generalizing g'' with
  | nil =>
    cases h'
    rfl
  | cons hchildren _ hfinish hstep _ ih ihrest =>
    cases h' with
    | cons hchildren' hfolds' hfinish' hstep' hrest' =>
      rw [hchildren, Option.some.injEq] at hchildren'
      subst hchildren'
      rw [← ih hfolds', hfinish, Except.ok.injEq] at hfinish'
      subst hfinish'
      rw [hstep, Except.ok.injEq] at hstep'
      subst hstep'
      exact ihrest hrest'

theorem Derives.unique (h : Derives F n b) (h' : Derives F n b') : b = b' := by
  obtain ⟨cs, g, hchildren, hfolds, hfinish⟩ := h
  obtain ⟨cs', g', hchildren', hfolds', hfinish'⟩ := h'
  rw [hchildren, Option.some.injEq] at hchildren'
  subst hchildren'
  rw [← hfolds.unique hfolds', hfinish, Except.ok.injEq] at hfinish'
  exact hfinish'

theorem Folds.accessible (h : Folds F n cs g g') : ∀ c ∈ cs, Acc (fun c m => Edge F m c) c := by
  induction h with
  | nil => simp
  | cons hchildren _ _ _ _ ih ihrest =>
    refine List.forall_mem_cons.mpr ⟨Acc.intro _ fun d hedge => ?_, ihrest⟩
    obtain ⟨ds, hds, hd⟩ := hedge
    rw [hchildren, Option.some.injEq] at hds
    exact ih d (hds ▸ hd)

theorem Derives.accessible (h : Derives F n b) : Acc (fun c m => Edge F m c) n := by
  obtain ⟨cs, g, hchildren, hfolds, -⟩ := h
  refine Acc.intro n fun c hedge => ?_
  obtain ⟨cs', hcs, hc⟩ := hedge
  rw [hchildren, Option.some.injEq] at hcs
  exact hfolds.accessible c (hcs ▸ hc)

/-- A node that has a value is on no cycle. -/
theorem Derives.acyclic (h : Derives F n b) : ¬ TransGen (Edge F) n n := by
  have hacc := h.accessible
  clear h
  induction hacc with
  | intro n _ ih =>
    intro hcycle
    obtain ⟨m, hedge, hpath⟩ := TransGen.head'_iff.mp hcycle
    exact ih m hedge (TransGen.tail' hpath hedge)

theorem Folds.member (h : Folds F n cs g g') : ∀ c ∈ cs, ∃ b, Derives F c b := by
  induction h with
  | nil => simp
  | cons hchildren hfolds hfinish _ _ _ ihrest =>
    exact List.forall_mem_cons.mpr ⟨⟨_, _, _, hchildren, hfolds, hfinish⟩, ihrest⟩

theorem Derives.edge {m : ν} (h : Derives F n b) (hedge : Edge F n m) : ∃ b', Derives F m b' := by
  obtain ⟨cs, g, hchildren, hfolds, -⟩ := h
  obtain ⟨cs', hcs, hm⟩ := hedge
  rw [hchildren, Option.some.injEq] at hcs
  exact hfolds.member m (hcs ▸ hm)

theorem Derives.reaches {m : ν} (h : Derives F n b) (hpath : ReflTransGen (Edge F) n m) :
    ∃ b', Derives F m b' := by
  induction hpath with
  | refl => exact ⟨b, h⟩
  | tail _ hedge ih =>
    obtain ⟨b', hb'⟩ := ih
    exact hb'.edge hedge

theorem Folds.fails {e : ε} (h : Folds F n cs g g') (hfinish : F.finish n g' = .error e) :
    Fails F n cs g e := by
  induction h with
  | nil => exact .finish hfinish
  | cons hchildren hfolds hfin hstep _ _ ihrest =>
    exact .later ⟨_, _, hchildren, hfolds, hfin⟩ hstep (ihrest hfinish)

theorem foldEach_total {visit : ν → Memo ν β → Result ν β β ε}
    (hvisit : ∀ c memo, ∃ r, visit c memo = some r) (n : ν) (cs : List ν) (g : γ)
    (memo : Memo ν β) :
    ∃ r, foldEach F visit n cs g memo = some r := by
  induction cs generalizing g memo with
  | nil => exact ⟨_, rfl⟩
  | cons c cs ih =>
    obtain ⟨r, hr⟩ := hvisit c memo
    rw [foldEach, hr]
    cases r with
    | error f => exact ⟨_, rfl⟩
    | ok found =>
      dsimp only
      cases F.step n g found.1 with
      | error e => exact ⟨_, rfl⟩
      | ok g' => exact ih g' found.2

end Derivations

section Memos
variable {ν γ β ε : Type*} [DecidableEq ν] {F : Fold ν γ β ε} {n : ν} {cs : List ν} {g g' : γ}
  {b : β} {memo memo' : Memo ν β} {stack : List ν}

/-- Values are added, and none is lost. -/
structure Extends (memo memo' : Memo ν β) : Prop where
  valid : Valid F memo'
  keeps : ∀ n, (memo.lookup n).isSome → (memo'.lookup n).isSome

theorem lookup_cons (memo : Memo ν β) (m : ν) : List.lookup m ((n, b) :: memo) =
    if m = n then some b else memo.lookup m := by
  by_cases h : m = n
  · rw [if_pos h, h, List.lookup_cons_self]
  · rw [if_neg h, List.lookup_cons, beq_false_of_ne h]

theorem foldEach_sound {visit : ν → Memo ν β → Result ν β β ε}
    (hvisit : ∀ c memo b memo', Valid F memo → visit c memo = some (.ok (b, memo')) →
      Derives F c b ∧ Extends (F := F) memo memo')
    (hvalid : Valid F memo) (h : foldEach F visit n cs g memo = some (.ok (g', memo'))) :
    Folds F n cs g g' ∧ Extends (F := F) memo memo' := by
  induction cs generalizing g memo with
  | nil =>
    cases h
    exact ⟨.nil, hvalid, fun _ h => h⟩
  | cons c cs ih =>
    rw [foldEach] at h
    split at h
    · cases h
    · cases h
    · rename_i b memo₁ hc
      obtain ⟨hderives, hfirst⟩ := hvisit c memo b memo₁ hvalid hc
      split at h
      · cases h
      · rename_i g₁ hstep
        obtain ⟨hrest, hlater⟩ := ih hfirst.valid h
        obtain ⟨ds, d, hchildren, hfolds, hfinish⟩ := hderives
        exact ⟨.cons hchildren hfolds hfinish hstep hrest, hlater.valid,
          fun m hm => hlater.keeps m (hfirst.keeps m hm)⟩

theorem fold_sound {fuel : ℕ} (hvalid : Valid F memo)
    (h : fold F fuel stack n memo = some (.ok (b, memo'))) :
    Derives F n b ∧ memo'.lookup n = some b ∧ Extends (F := F) memo memo' := by
  induction fuel generalizing stack n b memo memo' with
  | zero => cases h
  | succ fuel ih =>
    rw [fold] at h
    split at h
    · cases h
    · rename_i cs hchildren
      split at h
      · rename_i b' hlookup
        cases h
        exact ⟨hvalid n b hlookup, hlookup, hvalid, fun _ h => h⟩
      · split at h
        · cases h
        · split at h
          · cases h
          · cases h
          · rename_i g memo₁ heach
            obtain ⟨hfolds, hextends⟩ := foldEach_sound
              (fun c m b m' hm hc => ⟨(ih hm hc).1, (ih hm hc).2.2⟩) hvalid heach
            split at h
            · cases h
            · rename_i b' hfinish
              cases h
              have hderives : Derives F n b := ⟨cs, g, hchildren, hfolds, hfinish⟩
              refine ⟨hderives, List.lookup_cons_self, fun m v hv => ?_, fun m hm => ?_⟩
              · rw [lookup_cons] at hv
                split at hv
                · rename_i hmn
                  cases hv
                  exact hmn ▸ hderives
                · exact hextends.valid m v hv
              · rw [lookup_cons]
                split
                · rfl
                · exact hextends.keeps m hm

theorem foldEach_complete {visit : ν → Memo ν β → Result ν β β ε}
    (hvisit : ∀ c b memo r, c ∈ cs → Derives F c b → Valid F memo → visit c memo = some r →
      ∃ memo', r = .ok (b, memo') ∧ Valid F memo')
    (hfolds : Folds F n cs g g') (hvalid : Valid F memo)
    {r : Except (Failure ν ε) (γ × Memo ν β)} (h : foldEach F visit n cs g memo = some r) :
    ∃ memo', r = .ok (g', memo') := by
  induction cs generalizing g memo with
  | nil =>
    cases hfolds
    cases h
    exact ⟨memo, rfl⟩
  | cons c cs ih =>
    cases hfolds with
    | cons hchildren hchild hfinish hstep hrest =>
      rw [foldEach] at h
      cases hc : visit c memo with
      | none =>
        rw [hc] at h
        cases h
      | some r' =>
        obtain ⟨memo', rfl, hvalid'⟩ :=
          hvisit c _ memo r' List.mem_cons_self ⟨_, _, hchildren, hchild, hfinish⟩ hvalid hc
        rw [hc] at h
        dsimp only at h
        rw [hstep] at h
        exact ih (fun c' b' m r' hc' => hvisit c' b' m r' (List.mem_cons_of_mem c hc')) hrest
          hvalid' h

/-- A node that has a value is not met inside of itself. -/
theorem fold_complete {fuel : ℕ} (hderives : Derives F n b) (hvalid : Valid F memo)
    (hstack : ∀ m ∈ stack, TransGen (Edge F) m n) {r : Except (Failure ν ε) (β × Memo ν β)}
    (h : fold F fuel stack n memo = some r) : ∃ memo', r = .ok (b, memo') := by
  induction fuel generalizing stack n b memo r with
  | zero => cases h
  | succ fuel ih =>
    obtain ⟨cs, g, hchildren, hfolds, hfinish⟩ := hderives
    have hnode : Derives F n b := ⟨cs, g, hchildren, hfolds, hfinish⟩
    rw [fold, hchildren] at h
    dsimp only at h
    cases hlookup : memo.lookup n with
    | some b' =>
      rw [hlookup] at h
      cases h
      exact ⟨memo, by rw [hnode.unique (hvalid n b' hlookup)]⟩
    | none =>
      have hfresh : n ∉ stack := fun hmem => hnode.acyclic (hstack n hmem)
      rw [hlookup] at h
      dsimp only at h
      rw [if_neg hfresh] at h
      cases heach : foldEach F (fold F fuel (stack ++ [n])) n cs (F.start n) memo with
      | none =>
        rw [heach] at h
        cases h
      | some r' =>
        obtain ⟨memo', rfl⟩ := foldEach_complete (fun c b' m r' hc hd hm hfound => by
          have hedge : Edge F n c := ⟨cs, hchildren, hc⟩
          have hbelow : ∀ m ∈ stack ++ [n], TransGen (Edge F) m c := by
            intro m hm
            rcases List.mem_append.mp hm with hold | hlast
            · exact (hstack m hold).tail hedge
            · rw [List.mem_singleton.mp hlast]
              exact .single hedge
          obtain ⟨m', rfl⟩ := ih hd hm hbelow hfound
          exact ⟨m', rfl, (fold_sound hm hfound).2.2.valid⟩) hfolds hvalid heach
        rw [heach] at h
        dsimp only at h
        rw [hfinish] at h
        cases h
        exact ⟨_, rfl⟩

theorem fold_total {nodes : List ν} (hnodes : ∀ n cs, F.children n = some cs → n ∈ nodes)
    {fuel : ℕ} (hfuel : missing nodes stack < fuel) (n : ν) (memo : Memo ν β) :
    ∃ r, fold F fuel stack n memo = some r := by
  induction fuel generalizing stack n memo with
  | zero => omega
  | succ fuel ih =>
    rw [fold]
    cases hchildren : F.children n with
    | none => exact ⟨_, rfl⟩
    | some cs =>
      dsimp only
      cases memo.lookup n with
      | some b => exact ⟨_, rfl⟩
      | none =>
        dsimp only
        split
        · exact ⟨_, rfl⟩
        · rename_i hfresh
          have hless := StackSearch.missing_concat (hnodes n cs hchildren) hfresh
          have hroom : missing nodes (stack ++ [n]) < fuel := by omega
          obtain ⟨r, hr⟩ := foldEach_total (F := F) (fun c m => ih hroom c m) n cs
            (F.start n) memo
          rw [hr]
          cases r with
          | error f => exact ⟨_, rfl⟩
          | ok found =>
            dsimp only
            cases F.finish n found.1 with
            | error e => exact ⟨_, rfl⟩
            | ok b => exact ⟨_, rfl⟩

theorem foldEach_blamed {root : ν} {visit : ν → Memo ν β → Result ν β β ε}
    (hsound : ∀ c memo b memo', Valid F memo → visit c memo = some (.ok (b, memo')) →
      Derives F c b ∧ Extends (F := F) memo memo')
    (hvisit : ∀ c memo f, c ∈ cs → Valid F memo → visit c memo = some (.error f) → Blamed F root f)
    {f : Failure ν ε} (hvalid : Valid F memo)
    (h : foldEach F visit n cs g memo = some (.error f)) :
    Blamed F root f ∨ ∃ e, f = .failed e ∧ Fails F n cs g e := by
  induction cs generalizing g memo with
  | nil => cases h
  | cons c cs ih =>
    rw [foldEach] at h
    split at h
    · cases h
    · rename_i f' hc
      cases h
      exact .inl (hvisit c memo f List.mem_cons_self hvalid hc)
    · rename_i b memo₁ hc
      obtain ⟨hderives, hfirst⟩ := hsound c memo b memo₁ hvalid hc
      split at h
      · rename_i e hstep
        cases h
        exact .inr ⟨e, rfl, .step hderives hstep⟩
      · rename_i g₁ hstep
        rcases ih (fun c' m f' hc' => hvisit c' m f' (List.mem_cons_of_mem c hc')) hfirst.valid h
          with hblamed | ⟨e, rfl, hfails⟩
        · exact .inl hblamed
        · exact .inr ⟨e, rfl, .later hderives hstep hfails⟩

/-- What stops the fold is in the graph. -/
theorem fold_blamed {root : ν} {fuel : ℕ} (hvalid : Valid F memo)
    (hchain : (stack ++ [n]).IsChain (Edge F)) (hhead : (stack ++ [n]).head? = some root)
    {f : Failure ν ε} (h : fold F fuel stack n memo = some (.error f)) : Blamed F root f := by
  induction fuel generalizing stack n memo f with
  | zero => cases h
  | succ fuel ih =>
    rw [fold] at h
    split at h
    · rename_i hchildren
      cases h
      exact .undeclared hchain hhead hchildren
    · rename_i cs hchildren
      split at h
      · cases h
      · split at h
        · rename_i hmem
          cases h
          exact .cycle hmem hchain hhead
        · have hpath := FinishOrder.reaches_last hchain hhead
          split at h
          · cases h
          · rename_i f' heach
            cases h
            have hblamed : Blamed F root f ∨ ∃ e, f = .failed e ∧ Fails F n cs (F.start n) e :=
              foldEach_blamed
                (fun c m b m' hm hc => ⟨(fold_sound hm hc).1, (fold_sound hm hc).2.2⟩)
                (fun c m f' hc hm hfound => by
                  refine ih hm ?_ ?_ hfound
                  · refine List.isChain_append.mpr ⟨hchain, List.isChain_singleton _, ?_⟩
                    intro p hp q hq
                    rw [List.getLast?_concat, Option.mem_some_iff] at hp
                    rw [List.head?_cons, Option.mem_some_iff] at hq
                    exact hp ▸ hq ▸ ⟨cs, hchildren, hc⟩
                  · rw [List.head?_append, hhead]
                    rfl) hvalid heach
            rcases hblamed with hblamed | ⟨e, rfl, hfails⟩
            · exact hblamed
            · exact .failed hpath hchildren hfails
          · rename_i g memo₁ heach
            split at h
            · rename_i e hfinish
              cases h
              have hfolds := (foldEach_sound
                (fun c m b m' hm hc => ⟨(fold_sound hm hc).1, (fold_sound hm hc).2.2⟩) hvalid
                heach).1
              exact .failed hpath hchildren (hfolds.fails hfinish)
            · cases h

/-- The fold comes to an end, and gives the value that the node has without the memo, if any. -/
theorem fold_exact {nodes : List ν} (hnodes : ∀ n cs, F.children n = some cs → n ∈ nodes)
    {fuel : ℕ} (hfuel : nodes.length < fuel) (hvalid : Valid F memo) (n : ν) :
    ∃ r, fold F fuel [] n memo = some r ∧
      ∀ b, Derives F n b ↔ ∃ memo', r = .ok (b, memo') := by
  have hmissing : missing nodes [] < fuel :=
    Nat.lt_of_le_of_lt (List.length_filter_le _ nodes) hfuel
  obtain ⟨r, hr⟩ := fold_total hnodes hmissing n memo
  refine ⟨r, hr, fun b => ⟨fun hderives => fold_complete hderives hvalid (by simp) hr, ?_⟩⟩
  rintro ⟨memo', rfl⟩
  exact (fold_sound hvalid hr).1

/-- Where all nodes have values, the memo comes to hold them. -/
theorem foldNames_exact {nodes : List ν} (hnodes : ∀ n cs, F.children n = some cs → n ∈ nodes)
    {fuel : ℕ} (hfuel : nodes.length < fuel) {ns : List ν} (hvalid : Valid F memo)
    (hall : ∀ n ∈ ns, ∃ b, Derives F n b) :
    ∃ memo', foldNames F fuel ns memo = some (.ok memo') ∧ Extends (F := F) memo memo' ∧
      ∀ n ∈ ns, (memo'.lookup n).isSome := by
  induction ns generalizing memo with
  | nil => exact ⟨memo, rfl, ⟨hvalid, fun _ h => h⟩, by simp⟩
  | cons n ns ih =>
    obtain ⟨⟨b, hb⟩, hrest⟩ := List.forall_mem_cons.mp hall
    obtain ⟨r, hr, hexact⟩ := fold_exact hnodes hfuel hvalid n
    obtain ⟨memo₁, rfl⟩ := (hexact b).mp hb
    obtain ⟨-, hlookup, hfirst⟩ := fold_sound hvalid hr
    obtain ⟨memo', hnames, hlater, hsome⟩ := ih hfirst.valid hrest
    refine ⟨memo', ?_, ⟨hlater.valid, fun m hm => hlater.keeps m (hfirst.keeps m hm)⟩, ?_⟩
    · rw [foldNames, hr]
      exact hnames
    · refine List.forall_mem_cons.mpr ⟨hlater.keeps n ?_, hsome⟩
      rw [hlookup]
      rfl

end Memos

end NewClLang.MemoFolds
