import NewClLang.GraphSearch

set_option autoImplicit false

/-!
# Depth-first search with a stack

A search that follows every path of a graph and keeps the nodes it is inside of on a stack. It meets a
node of the stack again if and only if it has come to a cycle.
-/
namespace NewClLang.StackSearch
open GraphSearch

section Definitions
variable {ν : Type*} (edge : ν → ν → Prop)

/-- No path from the node meets the stack or itself. -/
inductive Safe : List ν → ν → Prop where
  | step {stack : List ν} {n : ν} (hfresh : n ∉ stack)
    (hnext : ∀ m, edge n m → Safe (stack ++ [n]) m) : Safe stack n

def Cyclic : Prop := ∃ n, Relation.TransGen edge n n

end Definitions

section Results
variable {ν : Type*} {edge : ν → ν → Prop} {stack : List ν} {n m : ν}

theorem Safe.fresh (h : Safe edge stack n) : n ∉ stack := by
  cases h with
  | step hfresh hnext => exact hfresh

theorem Safe.next (h : Safe edge stack n) (hedge : edge n m) : Safe edge (stack ++ [n]) m := by
  cases h with
  | step hfresh hnext => exact hnext m hedge

theorem Safe.not_reaches (h : Safe edge stack n) (hpath : Relation.ReflTransGen edge n m) :
    m ∉ stack := by
  induction hpath using Relation.ReflTransGen.head_induction_on generalizing stack with
  | refl => exact h.fresh
  | head hedge _ ih => exact fun hm => ih (h.next hedge) (List.mem_append_left _ hm)

/-- A node from which the search comes to an end is on no cycle. -/
theorem Safe.not_cyclic (h : Safe edge stack n) : ¬ Relation.TransGen edge n n := by
  intro hcycle
  obtain ⟨m, hedge, hpath⟩ := Relation.TransGen.head'_iff.mp hcycle
  exact (h.next hedge).not_reaches hpath (List.mem_append_right _ List.mem_cons_self)

theorem missing_concat [DecidableEq ν] {nodes : List ν} (hmem : n ∈ nodes) (hfresh : n ∉ stack) :
    missing nodes (stack ++ [n]) < missing nodes stack := by
  have hsub : n :: stack ⊆ stack ++ [n] :=
    List.cons_subset.mpr ⟨List.mem_append_right _ List.mem_cons_self, List.subset_append_left _ _⟩
  exact Nat.lt_of_le_of_lt (missing_le hsub) (missing_cons hmem hfresh)

/-- Where there is no cycle, the stack is a path to the node, and only finitely many nodes lead
anywhere, the search comes to an end. -/
theorem safe_of_acyclic [DecidableEq ν] {nodes : List ν} (hnodes : ∀ a b, edge a b → a ∈ nodes)
    (hacyclic : ¬ Cyclic edge) (hpath : ∀ a ∈ stack, Relation.TransGen edge a n) :
    Safe edge stack n := by
  induction hcount : missing nodes stack using Nat.strongRecOn generalizing stack n with
  | ind count ih =>
    have hfresh : n ∉ stack := fun hn => hacyclic ⟨n, hpath n hn⟩
    refine .step hfresh (fun m hedge => ?_)
    have hless := missing_concat (hnodes n m hedge) hfresh
    refine ih _ (by omega) (fun a ha => ?_) rfl
    rcases List.mem_append.mp ha with ha | ha
    · exact (hpath a ha).tail hedge
    · rw [List.mem_singleton.mp ha]
      exact .single hedge

end Results

end NewClLang.StackSearch
