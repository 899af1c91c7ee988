import NewClLang.AssociationLists
import NewClLang.FinishOrder
import NewClLang.StructEmbedding

set_option autoImplicit false

/-!
# Structs that contain themselves

`reject_direct_recursive_structs` of `compiler/llvm_codegen.py`, which is called before the structs are
given their layouts.
-/
namespace NewClLang.StructRecursion
open AssociationLists FinishOrder Relation StructEmbedding TypeRefs TypeSyntax

section Definitions
variable (p : StructProgram)

/-- `STRUCT_FIELDS[name]`. -/
def fieldsOf (name : String) : List (String × TypeRef) :=
  ((p.structs.lookup name).map StructDecl.fields).getD []

/-- `inline_struct_deps`: the struct that a value of the type is made of, if any. -/
def inlineStructDeps : TypeRef → List String
  | .array length elem =>
    if typeKey (.array length elem) ∈ keys p.structs then [typeKey (.array length elem)]
    else inlineStructDeps elem
  | t => if typeKey t ∈ keys p.structs then [typeKey t] else []

def contained (name : String) : List String :=
  (fieldsOf p name).flatMap (fun f => inlineStructDeps p f.2)

/-- `STRUCT_FIELDS` has the name, or there is a `KeyError`. -/
def declared (name : String) : Except Unit String :=
  if name ∈ keys p.structs then .ok name else .error ()

/-- `visit` of every struct. The names in `visiting` are those on the stack, and the names in `visited`
those that the search is done with. -/
def visitAll (fuel : ℕ) : FinishOrder.Result String String Unit :=
  searchEach (declared p) (search (declared p) (contained p) id fuel []) (keys p.structs) start

/-- `visiting[visiting.index(name):] + [name]`. -/
def cycleOf (names : List String) : List String :=
  names.dropWhile (fun name => names.getLast? ≠ some name)

def message : FinishOrder.Failure String Unit → String
  | .cycle names => "struct " ++ names.getLast?.getD "" ++ ": direct recursive field cycle " ++
      " -> ".intercalate (cycleOf names)
  | .failed _ => "KeyError"

def rejectDirectRecursiveStructs (fuel : ℕ) : Option (Except String (List String)) :=
  (visitAll p fuel).map (fun r => (r.mapError message).map Progress.order)

def Contains (a b : String) : Prop := b ∈ contained p a

end Definitions

section Containment
variable {p : StructProgram} {a b : String}

theorem mem_inlineStructDeps {t : TypeRef} (h : b ∈ inlineStructDeps p t) : b ∈ keys p.structs := by
  fun_induction inlineStructDeps p t with
  | case1 length elem hkey =>
    rw [List.mem_singleton.mp h]
    exact hkey
  | case2 length elem hkey ih => exact ih h
  | case3 t hshape hkey =>
    rw [List.mem_singleton.mp h]
    exact hkey
  | case4 t hshape hkey => cases h

theorem Contains.declared (h : Contains p a b) : b ∈ keys p.structs := by
  obtain ⟨f, -, hf⟩ := List.mem_flatMap.mp h
  exact mem_inlineStructDeps hf

theorem Contains.left (h : Contains p a b) : a ∈ keys p.structs := by
  obtain ⟨f, hf, -⟩ := List.mem_flatMap.mp h
  rw [← lookup_isSome_iff]
  unfold fieldsOf at hf
  cases hlookup : p.structs.lookup a with
  | none =>
    rw [hlookup] at hf
    cases hf
  | some decl => rfl

theorem declared_named (n c : String) (h : declared p n = .ok c) : id c = n := by
  unfold StructRecursion.declared at h
  split at h
  · cases h
    rfl
  · cases h

theorem declared_mem (n c : String) (h : declared p n = .ok c) : id c ∈ keys p.structs := by
  rw [declared_named n c h]
  unfold StructRecursion.declared at h
  split at h
  · assumption
  · cases h

theorem declared_of_mem (h : a ∈ keys p.structs) : declared p a = .ok a := if_pos h

theorem resolve_eq (h : a ∈ keys p.structs) (n : String) :
    resolve (declared p) id a n = declared p n := by
  unfold resolve
  split
  · rename_i hn
    rw [hn, id, declared_of_mem h]
  · rfl

theorem edge_iff {entry : String} (hentry : entry ∈ keys p.structs) :
    FinishOrder.Edge (declared p) (contained p) id entry a b ↔ Contains p a b := by
  constructor
  · rintro ⟨c, hc, hmem⟩
    rw [resolve_eq hentry] at hc
    rw [← declared_named a c hc]
    exact hmem
  · intro h
    refine ⟨a, ?_, h⟩
    rw [resolve_eq hentry]
    exact declared_of_mem h.left

theorem edges {entry : String} (hentry : entry ∈ keys p.structs) :
    FinishOrder.Edge (declared p) (contained p) id entry = Contains p :=
  funext fun _ => funext fun _ => propext (edge_iff hentry)

end Containment

section Rejection
variable {p : StructProgram} {names : List String} {s s' : Progress String String}

/-- The names that the search is done with, whichever struct it has begun with. -/
def Finished (p : StructProgram) (s : Progress String String) : Prop :=
  ∀ entry ∈ keys p.structs, Settled (declared p) (contained p) id entry [] s

theorem finished_start : Finished p start := fun _ _ =>
  ⟨by simp [start], List.nodup_nil, by simp, by simp [start], by simp [Ordered, start],
    by simp [start]⟩

theorem Finished.visit (h : Finished p s) (n : String) :
    Finished p { s with visits := s.visits ++ [n] } :=
  fun entry hentry => (h entry hentry).visit n

theorem finished_of_settled {entry : String} (hentry : entry ∈ keys p.structs)
    (h : Settled (declared p) (contained p) id entry [] s) : Finished p s := by
  intro entry' hentry'
  refine ⟨h.loaded, h.nodup, h.apart, fun a ha => ?_, h.ordered, h.visited⟩
  rw [resolve_eq hentry', ← resolve_eq hentry]
  exact h.resolved a ha

theorem searchEach_finished {fuel : ℕ} (hnames : ∀ n ∈ names, n ∈ keys p.structs)
    (hs : Finished p s)
    (h : searchEach (declared p) (search (declared p) (contained p) id fuel []) names s =
      some (.ok s')) :
    Finished p s' ∧ (∀ n ∈ s.order, n ∈ s'.order) ∧ ∀ n ∈ names, n ∈ s'.order := by
  induction names generalizing s with
  | nil =>
    cases h
    exact ⟨hs, fun n hn => hn, by simp⟩
  | cons n names ih =>
    obtain ⟨hn, hrest⟩ := List.forall_mem_cons.mp hnames
    rw [searchEach, declared_of_mem hn] at h
    dsimp only at h
    split at h
    · rename_i s₁ hfirst
      have hdone := search_done declared_named List.mem_cons_self (fun _ => resolve_entry)
        (hs.visit n n hn) hfirst
      obtain ⟨hfinished, hkept, hmem⟩ := ih hrest (finished_of_settled hn hdone.settled) h
      obtain ⟨later, horder, -⟩ := hdone.grows.order
      have hnmem : n ∈ s₁.order := by
        have hmem := hdone.member
        rwa [List.map_id] at hmem
      refine ⟨hfinished, fun m hm => hkept m ?_, List.forall_mem_cons.mpr ⟨hkept n hnmem, hmem⟩⟩
      rw [horder]
      exact List.mem_append_left _ hm
    · rename_i hnot
      exact absurd h (hnot s')

theorem order_exact {entry : String} (hentry : entry ∈ keys p.structs)
    (h : Settled (declared p) (contained p) id entry [] s)
    (hmem : ∀ n ∈ keys p.structs, n ∈ s.order) :
    s.order.Nodup ∧ (∀ name, name ∈ s.order ↔ name ∈ keys p.structs) ∧
      ∀ a b, Contains p a b → s.order.idxOf b < s.order.idxOf a := by
  have hids : s.order.map id = s.order := List.map_id _
  refine ⟨hids ▸ h.nodup, fun name => ⟨fun hname => ?_, hmem name⟩, fun a b hcontains => ?_⟩
  · have hresolved := h.resolved name hname
    rw [resolve_eq hentry] at hresolved
    exact declared_mem _ name hresolved
  · have hless := h.idxOf_lt (hids.symm ▸ hmem a hcontains.left) ((edge_iff hentry).mpr hcontains)
    rwa [hids] at hless

theorem searchEach_blamed {fuel : ℕ} {f : FinishOrder.Failure String Unit}
    (hnames : ∀ n ∈ names, n ∈ keys p.structs)
    (h : searchEach (declared p) (search (declared p) (contained p) id fuel []) names s =
      some (.error f)) :
    ∃ entry ∈ keys p.structs, Blamed (declared p) (contained p) id entry f := by
  induction names generalizing s with
  | nil => cases h
  | cons n names ih =>
    obtain ⟨hn, hrest⟩ := List.forall_mem_cons.mp hnames
    rw [searchEach, declared_of_mem hn] at h
    dsimp only at h
    split at h
    · exact ih hrest h
    · exact ⟨n, hn, search_blamed declared_named (List.isChain_singleton _) rfl
        (fun _ => resolve_entry) h⟩

theorem cycleOf_eq {front back : List String} {n : String} (hfront : n ∉ front) :
    cycleOf (front ++ n :: back ++ [n]) = n :: back ++ [n] := by
  unfold cycleOf
  have hne : ∀ m ∈ front,
      (decide ((front ++ n :: back ++ [n]).getLast? ≠ some m)) = true := by
    intro m hm
    rw [decide_eq_true_iff, List.getLast?_concat, Ne, Option.some.injEq]
    rintro rfl
    exact hfront hm
  have hlast : (n :: (back ++ [n])).getLast? = some n :=
    List.getLast?_concat (l := n :: back)
  rw [List.append_assoc, List.dropWhile_append_of_pos (by rwa [List.append_assoc] at hne)]
  simp [hlast]

theorem message_cycle {front back : List String} {n : String} (hfront : n ∉ front) :
    message (.cycle (front ++ n :: back ++ [n])) =
      "struct " ++ n ++ ": direct recursive field cycle " ++
        " -> ".intercalate (n :: back ++ [n]) := by
  have hlast : (front ++ n :: back ++ [n]).getLast?.getD "" = n := by
    rw [List.getLast?_concat]
    rfl
  rw [message, hlast, cycleOf_eq hfront]

/-- Where the search of every struct comes to its end, the structs have an order. -/
theorem visitAll_order {fuel : ℕ} (h : visitAll p fuel = some (.ok s)) :
    s.order.Nodup ∧ (∀ name, name ∈ s.order ↔ name ∈ keys p.structs) ∧
      ∀ a b, Contains p a b → s.order.idxOf b < s.order.idxOf a := by
  obtain ⟨hfinished, -, hmem⟩ := searchEach_finished (fun n hn => hn) finished_start h
  cases hstructs : p.structs with
  | nil =>
    have hempty : keys p.structs = [] := by
      rw [hstructs]
      rfl
    unfold visitAll at h
    rw [hempty] at h
    cases h
    refine ⟨List.nodup_nil, fun name => Iff.rfl, fun a b hcontains => ?_⟩
    have hleft := hcontains.left
    rw [hempty] at hleft
    cases hleft
  | cons first rest =>
    rw [← hstructs]
    have hentry : first.1 ∈ keys p.structs := by
      rw [hstructs]
      exact List.mem_cons_self
    exact order_exact hentry (hfinished first.1 hentry) hmem

theorem reject_order {fuel : ℕ} {order : List String}
    (h : rejectDirectRecursiveStructs p fuel = some (.ok order)) :
    order.Nodup ∧ (∀ name, name ∈ order ↔ name ∈ keys p.structs) ∧
      ∀ a b, Contains p a b → order.idxOf b < order.idxOf a := by
  obtain ⟨r, hr, hok⟩ := Option.map_eq_some_iff.mp h
  cases r with
  | error f => cases hok
  | ok s =>
    cases hok
    exact visitAll_order hr

/-- A struct that contains itself is reported with a cycle that leads through it. Where there is none,
the structs have an order in which each stands behind all that it contains. -/
theorem reject_exact (p : StructProgram) :
    ∃ r, rejectDirectRecursiveStructs p (p.structs.length + 1) = some r ∧
      (∀ order, r = .ok order → order.Nodup ∧ (∀ name, name ∈ order ↔ name ∈ keys p.structs) ∧
        ∀ a b, Contains p a b → order.idxOf b < order.idxOf a) ∧
      ∀ text, r = .error text → ∃ name path, (name :: path ++ [name]).IsChain (Contains p) ∧
        text = "struct " ++ name ++ ": direct recursive field cycle " ++
          " -> ".intercalate (name :: path ++ [name]) := by
  have hfuel : GraphSearch.missing (keys p.structs) [] < p.structs.length + 1 := by
    refine Nat.lt_succ_of_le ((List.length_filter_le _ _).trans ?_)
    rw [length_keys]
  have htotal : ∀ n a s, declared p n = .ok a →
      ∃ r, search (declared p) (contained p) id (p.structs.length + 1) [] a s = some r :=
    fun n a s hload => search_total declared_mem (declared_mem n a hload) hfuel s
  obtain ⟨r, hr⟩ := searchEach_total htotal (keys p.structs) start
  refine ⟨(r.mapError message).map Progress.order, ?_, ?_, ?_⟩
  · unfold rejectDirectRecursiveStructs visitAll
    rw [hr]
    rfl
  · intro order hok
    cases r with
    | error f => cases hok
    | ok s =>
      cases hok
      exact visitAll_order hr
  · intro text herror
    cases r with
    | ok s => cases herror
    | error f =>
      cases herror
      obtain ⟨entry, hentry, hblamed⟩ := searchEach_blamed (fun n hn => hn) hr
      cases hblamed with
      | cycle hmem hchain hhead =>
        rename_i before n
        rw [edges hentry] at hchain
        obtain ⟨front, back, rfl, hfront⟩ := List.eq_append_cons_of_mem hmem
        refine ⟨n, back, hchain.infix ⟨front, [], by simp⟩, ?_⟩
        exact message_cycle hfront
      | failed hpath hedge hload =>
        rw [declared_of_mem ((edge_iff hentry).mp hedge).declared] at hload
        cases hload

end Rejection

end NewClLang.StructRecursion
