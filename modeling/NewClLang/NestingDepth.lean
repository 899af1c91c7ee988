import Mathlib.Data.List.Perm.Subperm

set_option autoImplicit false

/-!
# The depth of nested calls

A call that is refused while it is under way already nests no deeper than there are things to call,
so a recursion on the depth that starts with one level for each of them and one more never ends for
want of depth.
-/
namespace NewClLang.NestingDepth

section Nesting
variable {α : Type} {all active : List α} {n : ℕ} {a : α}

/-- The calls under way are distinct, and another `n` nested ones are more than there are left. -/
def Room (all : List α) (n : ℕ) (active : List α) : Prop :=
  active.Nodup ∧ (∀ a ∈ active, a ∈ all) ∧ all.length < n + active.length

theorem room_start (all : List α) : Room all (all.length + 1) [] :=
  ⟨List.nodup_nil, fun _ h => absurd h List.not_mem_nil, Nat.lt_succ_self all.length⟩

theorem not_room_zero : ¬Room all 0 active := by
  rintro ⟨hnodup, hsubset, hlength⟩
  have hle := (List.subperm_of_subset hnodup hsubset).length_le
  omega

theorem Room.call (h : Room all (n + 1) active) (ha : a ∈ all) (hfresh : a ∉ active) :
    Room all n (a :: active) := by
  obtain ⟨hnodup, hsubset, hlength⟩ := h
  refine ⟨List.nodup_cons.2 ⟨hfresh, hnodup⟩, List.forall_mem_cons.2 ⟨ha, hsubset⟩, ?_⟩
  rw [List.length_cons]
  omega

end Nesting

end NewClLang.NestingDepth
