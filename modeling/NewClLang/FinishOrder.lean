import Mathlib.Data.List.Chain
import Mathlib.Data.List.Nodup
import NewClLang.StackSearch

set_option autoImplicit false

/-!
# Depth-first order

A search that gives the nodes in the order in which it is done with them. It keeps the nodes it is
inside of on a stack, comes to each node once, and stops when it meets a node of the stack again or
a name that leads to no node.
-/
namespace NewClLang.FinishOrder
open GraphSearch Relation

inductive Failure (ν ε : Type*) where
  | cycle (names : List ν)
  | failed (error : ε)

/-- The names of the nodes that the search has come to, the nodes that it is done with, and the
names that it has followed. -/
structure Progress (ν α : Type*) where
  loaded : List ν
  order : List α
  visits : List ν

section Definitions
variable {ν α ε : Type*} [DecidableEq ν] (load : ν → Except ε α) (next : α → List ν) (name : α → ν)

abbrev Result (ν α ε : Type*) := Option (Except (Failure ν ε) (Progress ν α))

def searchEach (search : α → Progress ν α → Result ν α ε) :
    List ν → Progress ν α → Result ν α ε
  | [], s => some (.ok s)
  | n :: ns, s =>
    match load n with
    | .error e => some (.error (.failed e))
    | .ok a =>
      match search a { s with visits := s.visits ++ [n] } with
      | some (.ok s') => searchEach search ns s'
      | r => r

def search : ℕ → List ν → α → Progress ν α → Result ν α ε
  | 0, _, _, _ => none
  | fuel + 1, stack, a, s =>
    if name a ∈ stack then some (.error (.cycle (stack ++ [name a])))
    else if name a ∈ s.loaded then some (.ok s)
    else
      match searchEach load (search fuel (stack ++ [name a])) (next a)
          { s with loaded := name a :: s.loaded } with
      | some (.ok s') => some (.ok { s' with order := s'.order ++ [a] })
      | r => r

def start : Progress ν α := ⟨[], [], []⟩

variable (entry : α)

/-- The node of a name: that of the entry is in no other place. -/
def resolve (n : ν) : Except ε α := if n = name entry then .ok entry else load n

def Edge (m n : ν) : Prop := ∃ a, resolve load name entry m = .ok a ∧ n ∈ next a

/-- Every node follows those that it leads to. -/
def Ordered (order : List α) : Prop :=
  ∀ before a after, order = before ++ a :: after → next a ⊆ before.map name

/-- The search is done with names that `R` tells and follows names that `Q` tells. -/
structure Grows (R Q : ν → Prop) (s s' : Progress ν α) : Prop where
  order : ∃ later, s'.order = s.order ++ later ∧ ∀ b ∈ later, R (name b)
  visits : ∃ later, s'.visits = s.visits ++ later ∧ ∀ n ∈ later, Q n

/-- The progress of a search that is inside of the nodes of the stack. -/
structure Settled (stack : List ν) (s : Progress ν α) : Prop where
  loaded : ∀ n, n ∈ s.loaded ↔ n ∈ stack ∨ n ∈ s.order.map name
  nodup : (s.order.map name).Nodup
  apart : ∀ n ∈ stack, n ∉ s.order.map name
  resolved : ∀ a ∈ s.order, resolve load name entry (name a) = .ok a
  ordered : Ordered next name s.order
  visited : ∀ a ∈ s.order, next a ⊆ s.visits

structure Done (stack : List ν) (x : ν) (s s' : Progress ν α) : Prop where
  settled : Settled load next name entry stack s'
  member : x ∈ s'.order.map name
  grows : Grows name (ReflTransGen (Edge load next name entry) x)
    (TransGen (Edge load next name entry) x) s s'

/-- A path of the graph that comes to a node twice, or a name on a path that leads to no node. -/
inductive Blamed : Failure ν ε → Prop where
  | cycle {before : List ν} {n : ν} (hmem : n ∈ before)
    (hchain : (before ++ [n]).IsChain (Edge load next name entry))
    (hhead : before.head? = some (name entry)) : Blamed (.cycle (before ++ [n]))
  | failed {m n : ν} {e : ε} (hpath : ReflTransGen (Edge load next name entry) (name entry) m)
    (hedge : Edge load next name entry m n) (hload : load n = .error e) : Blamed (.failed e)

/-- Every name that a node leads to is that of a node, and no node is on a cycle. -/
structure Sound : Prop where
  loads : ∀ m n, ReflTransGen (Edge load next name entry) (name entry) m →
    Edge load next name entry m n → ∃ a, load n = .ok a
  acyclic : ∀ n, ReflTransGen (Edge load next name entry) (name entry) n →
    ¬ TransGen (Edge load next name entry) n n

/-- Exactly the nodes that the entry leads to, each once, after those that it leads to itself. -/
structure Exact (s : Progress ν α) : Prop where
  nodup : (s.order.map name).Nodup
  members : ∀ n, n ∈ s.order.map name ↔ ReflTransGen (Edge load next name entry) (name entry) n
  resolved : ∀ a ∈ s.order, resolve load name entry (name a) = .ok a
  ordered : Ordered next name s.order
  last : ∃ before, s.order = before ++ [entry]
  visits : ∀ n, n ∈ s.visits ↔ TransGen (Edge load next name entry) (name entry) n

end Definitions

section Growth
variable {ν α ε : Type*} {load : ν → Except ε α} {next : α → List ν} {name : α → ν} {a : α} {x : ν}
  {s s' s'' : Progress ν α}
  {R R' Q Q' : ν → Prop}

theorem Grows.refl (s : Progress ν α) : Grows name R Q s s where
  order := ⟨[], by simp⟩
  visits := ⟨[], by simp⟩

theorem Grows.trans (h : Grows name R Q s s') (h' : Grows name R Q s' s'') :
    Grows name R Q s s'' := by
  obtain ⟨⟨later, horder, hlater⟩, ⟨more, hvisits, hmore⟩⟩ := h
  obtain ⟨⟨later', horder', hlater'⟩, ⟨more', hvisits', hmore'⟩⟩ := h'
  refine ⟨⟨later ++ later', ?_, ?_⟩, ⟨more ++ more', ?_, ?_⟩⟩
  · rw [horder', horder, List.append_assoc]
  · intro b hb
    exact (List.mem_append.mp hb).elim (hlater b) (hlater' b)
  · rw [hvisits', hvisits, List.append_assoc]
  · intro n hn
    exact (List.mem_append.mp hn).elim (hmore n) (hmore' n)

theorem Grows.mono (h : Grows name R Q s s') (hR : ∀ n, R n → R' n) (hQ : ∀ n, Q n → Q' n) :
    Grows name R' Q' s s' := by
  obtain ⟨⟨later, horder, hlater⟩, ⟨more, hvisits, hmore⟩⟩ := h
  exact ⟨⟨later, horder, fun b hb => hR _ (hlater b hb)⟩,
    ⟨more, hvisits, fun n hn => hQ n (hmore n hn)⟩⟩

theorem Grows.mem_order (h : Grows name R Q s s') (hx : x ∈ s.order.map name) :
    x ∈ s'.order.map name := by
  obtain ⟨later, horder, -⟩ := h.order
  rw [horder, List.map_append]
  exact List.mem_append_left _ hx

theorem Grows.visits_subset (h : Grows name R Q s s') : s.visits ⊆ s'.visits := by
  obtain ⟨later, hvisits, -⟩ := h.visits
  rw [hvisits]
  exact List.subset_append_left _ _

theorem Ordered.concat {order : List α} (h : Ordered next name order)
    (hnext : next a ⊆ order.map name) : Ordered next name (order ++ [a]) := by
  intro before b after heq
  rcases List.eq_nil_or_concat after with rfl | ⟨after', c, rfl⟩
  · obtain ⟨rfl, hlast⟩ := List.append_inj' heq rfl
    cases hlast
    exact hnext
  · have hsplit : order ++ [a] = (before ++ b :: after') ++ [c] := by simpa using heq
    obtain ⟨horder, -⟩ := List.append_inj' hsplit rfl
    exact h before b after' horder

theorem reaches_last {R : ν → ν → Prop} {stack : List ν} (hchain : (stack ++ [x]).IsChain R)
    {root : ν} (hhead : (stack ++ [x]).head? = some root) : ReflTransGen R root x := by
  induction stack generalizing root with
  | nil =>
    cases hhead
    exact .refl
  | cons n ns ih =>
    cases hhead
    obtain ⟨hfirst, hrest⟩ := List.isChain_cons.mp hchain
    cases hnext : (ns ++ [x]).head? with
    | none => simp at hnext
    | some m => exact .head (hfirst m hnext) (ih hrest hnext)

theorem cycle_of_chain {R : ν → ν → Prop} {stack : List ν} (hmem : x ∈ stack)
    (hchain : (stack ++ [x]).IsChain R) {root : ν} (hhead : (stack ++ [x]).head? = some root) :
    ReflTransGen R root x ∧ TransGen R x x := by
  obtain ⟨front, back, rfl⟩ := List.append_of_mem hmem
  have hfront : (front ++ [x]).IsChain R := hchain.infix ⟨[], back ++ [x], by simp⟩
  have hback : (x :: back ++ [x]).IsChain R := hchain.infix ⟨front, [], by simp⟩
  have hroot : (front ++ [x]).head? = some root := by
    rw [← hhead]
    cases front <;> rfl
  refine ⟨reaches_last hfront hroot, ?_⟩
  obtain ⟨hfirst, hrest⟩ := List.isChain_cons.mp hback
  cases hnext : (back ++ [x]).head? with
  | none => simp at hnext
  | some m => exact TransGen.head' (hfirst m hnext) (reaches_last hrest hnext)

theorem searchEach_total {visit : α → Progress ν α → Result ν α ε}
    (hvisit : ∀ n a s, load n = .ok a → ∃ r, visit a s = some r) (ns : List ν) (s : Progress ν α) :
    ∃ r, searchEach load visit ns s = some r := by
  induction ns generalizing s with
  | nil => exact ⟨_, rfl⟩
  | cons n ns ih =>
    rw [searchEach]
    split
    · exact ⟨_, rfl⟩
    · rename_i a hload
      obtain ⟨r, hr⟩ := hvisit n a { s with visits := s.visits ++ [n] } hload
      rw [hr]
      cases r with
      | ok s' => exact ih s'
      | error f => exact ⟨_, rfl⟩

end Growth

section Success
variable {ν α ε : Type*} [DecidableEq ν] {load : ν → Except ε α} {next : α → List ν} {name : α → ν}
  {entry : α} {stack : List ν} {a : α} {x : ν} {s s' s'' : Progress ν α} {R R' : ν → Prop}

theorem resolve_of_ne {n : ν} (h : n ≠ name entry) : resolve load name entry n = load n := if_neg h

theorem resolve_entry : resolve load name entry (name entry) = .ok entry := if_pos rfl

theorem Settled.visit (h : Settled load next name entry stack s) (n : ν) :
    Settled load next name entry stack { s with visits := s.visits ++ [n] } :=
  ⟨h.loaded, h.nodup, h.apart, h.resolved, h.ordered,
    fun a ha => List.Subset.trans (h.visited a ha) (List.subset_append_left _ _)⟩

theorem Settled.enter (h : Settled load next name entry stack s) (hnew : x ∉ s.loaded) :
    Settled load next name entry (stack ++ [x]) { s with loaded := x :: s.loaded } where
  loaded := by
    intro n
    simp only [List.mem_cons, List.mem_append, List.not_mem_nil, or_false, h.loaded n]
    exact or_assoc.symm.trans (or_congr_left or_comm)
  nodup := h.nodup
  apart := by
    intro n hn
    rcases List.mem_append.mp hn with hstack | hlast
    · exact h.apart n hstack
    · rw [List.mem_singleton.mp hlast]
      exact fun hmem => hnew ((h.loaded x).mpr (Or.inr hmem))
  resolved := h.resolved
  ordered := h.ordered
  visited := h.visited

theorem Settled.leave (h : Settled load next name entry (stack ++ [name a]) s)
    (hfresh : name a ∉ stack) (hresolve : resolve load name entry (name a) = .ok a)
    (hnext : next a ⊆ s.order.map name) (hvisits : next a ⊆ s.visits) :
    Settled load next name entry stack { s with order := s.order ++ [a] } where
  loaded := by
    intro n
    simp only [List.map_append, List.map_cons, List.map_nil, List.mem_append, List.mem_singleton,
      h.loaded n]
    tauto
  nodup := by
    rw [List.map_append]
    refine List.nodup_append.mpr ⟨h.nodup, List.nodup_singleton _, ?_⟩
    rintro n hn m hm rfl
    rw [List.map_singleton, List.mem_singleton] at hm
    subst hm
    exact h.apart _ (List.mem_append_right _ List.mem_cons_self) hn
  apart := by
    intro n hn hmem
    rw [List.map_append, List.mem_append, List.map_singleton, List.mem_singleton] at hmem
    rcases hmem with hold | rfl
    · exact h.apart n (List.mem_append_left _ hn) hold
    · exact hfresh hn
  resolved := by
    intro b hb
    rcases List.mem_append.mp hb with hold | hlast
    · exact h.resolved b hold
    · rw [List.mem_singleton.mp hlast]
      exact hresolve
  ordered := h.ordered.concat hnext
  visited := by
    intro b hb
    rcases List.mem_append.mp hb with hold | hlast
    · exact h.visited b hold
    · rw [List.mem_singleton.mp hlast]
      exact hvisits

/-- The names that a node of the stack leads to. -/
theorem searchEach_done {visit : α → Progress ν α → Result ν α ε}
    (hvisit : ∀ n a s s', load n = .ok a → Settled load next name entry stack s →
      visit a s = some (.ok s') → Done load next name entry stack n s s')
    {ns : List ν} (hedges : ∀ n ∈ ns, Edge load next name entry x n)
    (hs : Settled load next name entry stack s)
    (h : searchEach load visit ns s = some (.ok s')) :
    Settled load next name entry stack s' ∧ ns ⊆ s'.order.map name ∧ ns ⊆ s'.visits ∧
      Grows name (TransGen (Edge load next name entry) x)
        (TransGen (Edge load next name entry) x) s s' := by
  induction ns generalizing s with
  | nil =>
    rw [searchEach, Option.some.injEq, Except.ok.injEq] at h
    subst h
    exact ⟨hs, List.nil_subset _, List.nil_subset _, Grows.refl s⟩
  | cons n ns ih =>
    have hedge := hedges n List.mem_cons_self
    rw [searchEach] at h
    split at h
    · cases h
    · rename_i a hload
      split at h
      · rename_i s₁ hfound
        have hfirst := hvisit n a _ s₁ hload (hs.visit n) hfound
        obtain ⟨hsettled, hmem, hseen, hgrows⟩ :=
          ih (fun m hm => hedges m (List.mem_cons_of_mem n hm)) hfirst.settled h
        have hstep : Grows name (TransGen (Edge load next name entry) x)
            (TransGen (Edge load next name entry) x) s { s with visits := s.visits ++ [n] } :=
          ⟨⟨[], by simp⟩, ⟨[n], rfl, fun m hm => List.mem_singleton.mp hm ▸ .single hedge⟩⟩
        have hbelow := hfirst.grows.mono (fun m hm => TransGen.head' hedge hm)
          (fun m hm => TransGen.head hedge hm)
        refine ⟨hsettled, ?_, ?_, (hstep.trans hbelow).trans hgrows⟩
        · exact List.cons_subset.mpr ⟨hgrows.mem_order hfirst.member, hmem⟩
        · refine List.cons_subset.mpr ⟨?_, hseen⟩
          exact hgrows.visits_subset (hfirst.grows.visits_subset
            (List.mem_append_right _ List.mem_cons_self))
      · rename_i hnot
        exact absurd h (hnot s')

theorem search_fresh {fuel : ℕ} (h : search load next name fuel stack a s = some (.ok s')) :
    name a ∉ stack := by
  cases fuel with
  | zero => cases h
  | succ fuel =>
    intro hmem
    rw [search, if_pos hmem] at h
    cases h

/-- A search that comes to its end is done with the node. -/
theorem search_done (hnamed : ∀ n a, load n = .ok a → name a = n) {fuel : ℕ}
    (hroot : name entry ∈ stack ++ [name a])
    (hresolve : name a ∉ stack → resolve load name entry (name a) = .ok a)
    (hs : Settled load next name entry stack s)
    (h : search load next name fuel stack a s = some (.ok s')) :
    Done load next name entry stack (name a) s s' := by
  induction fuel generalizing stack a s s' with
  | zero => cases h
  | succ fuel ih =>
    have hfresh := search_fresh h
    have hnode := hresolve hfresh
    rw [search, if_neg hfresh] at h
    split at h
    · rename_i hloaded
      rw [Option.some.injEq, Except.ok.injEq] at h
      subst h
      exact ⟨hs, ((hs.loaded _).mp hloaded).resolve_left hfresh, Grows.refl s⟩
    · rename_i hnew
      split at h
      · rename_i s₁ heach
        rw [Option.some.injEq, Except.ok.injEq] at h
        subst h
        have hvisit : ∀ n b t t', load n = .ok b →
            Settled load next name entry (stack ++ [name a]) t →
            search load next name fuel (stack ++ [name a]) b t = some (.ok t') →
            Done load next name entry (stack ++ [name a]) n t t' := by
          intro n b t t' hload ht hfound
          have hn := hnamed n b hload
          -- the name of the entry is on the stack
          have hne : n ≠ name entry := by
            rintro rfl
            exact search_fresh hfound (hn ▸ hroot)
          rw [← hn]
          refine ih (List.mem_append_left _ hroot) (fun _ => ?_) ht hfound
          rw [hn, resolve_of_ne hne, hload]
        obtain ⟨hsettled, hmem, hvisits, hgrows⟩ :=
          searchEach_done hvisit (fun n hn => ⟨a, hnode, hn⟩) (hs.enter hnew) heach
        refine ⟨hsettled.leave hfresh hnode hmem hvisits, by simp, ?_⟩
        obtain ⟨⟨later, horder, hlater⟩, hseen⟩ := hgrows
        refine ⟨⟨later ++ [a], ?_, ?_⟩, hseen⟩
        · change s₁.order ++ [a] = s.order ++ (later ++ [a])
          rw [horder, List.append_assoc]
        · intro b hb
          rcases List.mem_append.mp hb with hold | hlast
          · exact (hlater b hold).to_reflTransGen
          · rw [List.mem_singleton.mp hlast]
      · rename_i hnot
        exact absurd h (hnot s')

theorem search_last {fuel : ℕ} (hnew : name a ∉ s.loaded)
    (h : search load next name fuel stack a s = some (.ok s')) :
    ∃ before, s'.order = before ++ [a] := by
  cases fuel with
  | zero => cases h
  | succ fuel =>
    have hfresh := search_fresh h
    rw [search, if_neg hfresh, if_neg hnew] at h
    split at h
    · cases h
      exact ⟨_, rfl⟩
    · rename_i hnot
      exact absurd h (hnot s')

end Success

section Failures
variable {ν α ε : Type*} [DecidableEq ν] {load : ν → Except ε α} {next : α → List ν} {name : α → ν}
  {entry : α} {stack : List ν} {a : α} {x : ν} {s s' : Progress ν α} {f : Failure ν ε}

theorem searchEach_blamed {visit : α → Progress ν α → Result ν α ε}
    (hvisit : ∀ n a s, Edge load next name entry x n → load n = .ok a →
      visit a s = some (.error f) → Blamed load next name entry f)
    (hpath : ReflTransGen (Edge load next name entry) (name entry) x)
    {ns : List ν} (hedges : ∀ n ∈ ns, Edge load next name entry x n)
    (h : searchEach load visit ns s = some (.error f)) : Blamed load next name entry f := by
  induction ns generalizing s with
  | nil => cases h
  | cons n ns ih =>
    have hedge := hedges n List.mem_cons_self
    rw [searchEach] at h
    split at h
    · rename_i e hload
      cases h
      exact .failed hpath hedge hload
    · rename_i a hload
      split at h
      · exact ih (fun m hm => hedges m (List.mem_cons_of_mem n hm)) h
      · exact hvisit n a _ hedge hload h

/-- What stops the search is in the graph. -/
theorem search_blamed (hnamed : ∀ n a, load n = .ok a → name a = n) {fuel : ℕ}
    (hchain : (stack ++ [name a]).IsChain (Edge load next name entry))
    (hhead : (stack ++ [name a]).head? = some (name entry))
    (hresolve : name a ∉ stack → resolve load name entry (name a) = .ok a)
    (h : search load next name fuel stack a s = some (.error f)) :
    Blamed load next name entry f := by
  induction fuel generalizing stack a s with
  | zero => cases h
  | succ fuel ih =>
    rw [search] at h
    split at h
    · rename_i hmem
      cases h
      refine .cycle hmem hchain ?_
      cases stack with
      | nil => cases hmem
      | cons m ms => exact hhead
    · rename_i hfresh
      have hnode := hresolve hfresh
      have hpath := reaches_last hchain hhead
      split at h
      · cases h
      · split at h
        · cases h
        · refine searchEach_blamed (fun n b t hedge hload hfound => ?_) hpath
            (fun n hn => ⟨a, hnode, hn⟩) h
          have hn := hnamed n b hload
          refine ih ?_ ?_ (fun hout => ?_) hfound
          · refine List.isChain_append.mpr ⟨hchain, List.isChain_singleton _, ?_⟩
            intro p hp q hq
            rw [List.getLast?_concat, Option.mem_some_iff] at hp
            rw [List.head?_cons, Option.mem_some_iff] at hq
            rw [← hp, ← hq, hn]
            exact hedge
          · rw [List.head?_append, hhead]
            rfl
          · have hne : n ≠ name entry := by
              rintro rfl
              rw [hn] at hout
              exact hout (List.mem_of_mem_head? hhead)
            rw [hn, resolve_of_ne hne, hload]

end Failures

section Exactness
variable {ν α ε : Type*} [DecidableEq ν] {load : ν → Except ε α} {next : α → List ν} {name : α → ν}
  {entry : α} {stack : List ν} {a : α} {m n : ν} {s : Progress ν α} {f : Failure ν ε}

/-- A path without a repetition is not longer than the names of all nodes. -/
theorem search_total {nodes : List ν} (hnodes : ∀ n a, load n = .ok a → name a ∈ nodes)
    (ha : name a ∈ nodes) {fuel : ℕ} (hfuel : missing nodes stack < fuel) (s : Progress ν α) :
    ∃ r, search load next name fuel stack a s = some r := by
  induction fuel generalizing stack a s with
  | zero => omega
  | succ fuel ih =>
    rw [search]
    split
    · exact ⟨_, rfl⟩
    · rename_i hfresh
      split
      · exact ⟨_, rfl⟩
      · have hless := StackSearch.missing_concat ha hfresh
        have hroom : missing nodes (stack ++ [name a]) < fuel := by omega
        obtain ⟨r, hr⟩ := searchEach_total (fun n b t hload => ih (hnodes n b hload) hroom t)
          (next a) { s with loaded := name a :: s.loaded }
        rw [hr]
        cases r with
        | ok s' => exact ⟨_, rfl⟩
        | error f => exact ⟨_, rfl⟩

theorem Settled.edge (h : Settled load next name entry [] s) (hm : m ∈ s.order.map name)
    (hedge : Edge load next name entry m n) :
    ∃ before a after, s.order = before ++ a :: after ∧ name a = m ∧ n ∈ before.map name := by
  obtain ⟨a, ha, rfl⟩ := List.mem_map.mp hm
  obtain ⟨b, hb, hn⟩ := hedge
  rw [h.resolved a ha] at hb
  cases hb
  obtain ⟨before, after, horder⟩ := List.append_of_mem ha
  exact ⟨before, a, after, horder, rfl, h.ordered before a after horder hn⟩

theorem Settled.reaches (h : Settled load next name entry [] s) (hm : m ∈ s.order.map name)
    (hpath : ReflTransGen (Edge load next name entry) m n) : n ∈ s.order.map name := by
  induction hpath with
  | refl => exact hm
  | tail _ hedge ih =>
    obtain ⟨before, a, after, horder, -, hmem⟩ := h.edge ih hedge
    rw [horder, List.map_append]
    exact List.mem_append_left _ hmem

/-- An edge leads to a node that the search is done with before. -/
theorem Settled.idxOf_lt (h : Settled load next name entry [] s) (hm : m ∈ s.order.map name)
    (hedge : Edge load next name entry m n) :
    (s.order.map name).idxOf n < (s.order.map name).idxOf m := by
  obtain ⟨before, a, after, horder, rfl, hmem⟩ := h.edge hm hedge
  have hnodup := h.nodup
  rw [horder, List.map_append, List.map_cons] at hnodup ⊢
  have hfresh : name a ∉ before.map name := fun hin =>
    (List.nodup_append.mp hnodup).2.2 _ hin _ List.mem_cons_self rfl
  rw [List.idxOf_append_of_mem hmem, List.idxOf_append_of_notMem hfresh, List.idxOf_cons_self,
    Nat.add_zero]
  exact List.idxOf_lt_length_of_mem hmem

theorem Settled.acyclic (h : Settled load next name entry [] s) (hm : m ∈ s.order.map name) :
    ¬ TransGen (Edge load next name entry) m m := by
  have hless : ∀ n, TransGen (Edge load next name entry) m n →
      (s.order.map name).idxOf n < (s.order.map name).idxOf m := by
    intro n hpath
    induction hpath with
    | single hedge => exact h.idxOf_lt hm hedge
    | tail hpath hedge ih =>
      exact Nat.lt_trans (h.idxOf_lt (h.reaches hm hpath.to_reflTransGen) hedge) ih
  exact fun hcycle => Nat.lt_irrefl _ (hless m hcycle)

theorem Blamed.not_sound (h : Blamed load next name entry f) : ¬ Sound load next name entry := by
  intro hsound
  cases h with
  | cycle hmem hchain hhead =>
    rename_i before n
    have hroot : (before ++ [n]).head? = some (name entry) := by
      rw [List.head?_append, hhead]
      rfl
    obtain ⟨hpath, hcycle⟩ := cycle_of_chain hmem hchain hroot
    exact hsound.acyclic n hpath hcycle
  | failed hpath hedge hload =>
    obtain ⟨a, ha⟩ := hsound.loads _ _ hpath hedge
    rw [hload] at ha
    cases ha

/-- The search comes to an end. It succeeds where every name leads to a node and there is no cycle,
and gives the nodes in order. Elsewhere it stops at a cycle or at a name that leads to none. -/
theorem search_exact (hnamed : ∀ n a, load n = .ok a → name a = n) {nodes : List ν}
    (hnodes : ∀ n a, load n = .ok a → name a ∈ nodes) (hentry : name entry ∈ nodes) {fuel : ℕ}
    (hfuel : nodes.length < fuel) :
    (∃ s, search load next name fuel [] entry start = some (.ok s) ∧
      Sound load next name entry ∧ Exact load next name entry s) ∨
    (∃ f, search load next name fuel [] entry start = some (.error f) ∧
      ¬ Sound load next name entry ∧ Blamed load next name entry f) := by
  have hmissing : missing nodes [] < fuel :=
    Nat.lt_of_le_of_lt (List.length_filter_le _ nodes) hfuel
  obtain ⟨r, hr⟩ := search_total hnodes hentry hmissing start
  cases r with
  | error f =>
    have hblamed := search_blamed hnamed (List.isChain_singleton _) rfl (fun _ => resolve_entry) hr
    exact Or.inr ⟨f, hr, hblamed.not_sound, hblamed⟩
  | ok s =>
    have hstart : Settled load next name entry [] start :=
      ⟨by simp [start], List.nodup_nil, by simp, by simp [start], by simp [Ordered, start],
        by simp [start]⟩
    have hdone := search_done hnamed List.mem_cons_self (fun _ => resolve_entry) hstart hr
    have hsettled := hdone.settled
    have hmembers : ∀ n, n ∈ s.order.map name ↔
        ReflTransGen (Edge load next name entry) (name entry) n := by
      intro n
      refine ⟨fun hmem => ?_, hsettled.reaches hdone.member⟩
      obtain ⟨later, horder, hlater⟩ := hdone.grows.order
      obtain ⟨b, hb, rfl⟩ := List.mem_map.mp hmem
      rw [horder] at hb
      exact hlater b hb
    have hacyclic : ∀ n, ReflTransGen (Edge load next name entry) (name entry) n →
        ¬ TransGen (Edge load next name entry) n n := fun n hpath =>
      hsettled.acyclic ((hmembers n).mpr hpath)
    have hloads : ∀ m n, ReflTransGen (Edge load next name entry) (name entry) m →
        Edge load next name entry m n → ∃ a, load n = .ok a := by
      intro m n hpath hedge
      have hne : n ≠ name entry := by
        rintro rfl
        exact hacyclic _ .refl (TransGen.tail' hpath hedge)
      obtain ⟨b, hb, rfl⟩ := List.mem_map.mp ((hmembers n).mpr (hpath.tail hedge))
      have hnode := hsettled.resolved b hb
      rw [resolve_of_ne hne] at hnode
      exact ⟨b, hnode⟩
    have hlast := search_last (by simp [start]) hr
    refine Or.inl ⟨s, hr, ⟨hloads, hacyclic⟩, hsettled.nodup, hmembers, hsettled.resolved,
      hsettled.ordered, hlast, fun n => ⟨fun hmem => ?_, fun hpath => ?_⟩⟩
    · obtain ⟨later, hvisits, hlater⟩ := hdone.grows.visits
      rw [hvisits] at hmem
      exact hlater n hmem
    · obtain ⟨m, hpath, b, hb, hn⟩ := TransGen.tail'_iff.mp hpath
      obtain ⟨c, hc, rfl⟩ := List.mem_map.mp ((hmembers m).mpr hpath)
      rw [hsettled.resolved c hc, Except.ok.injEq] at hb
      rw [← hb] at hn
      exact hsettled.visited c hc hn

end Exactness

end NewClLang.FinishOrder
