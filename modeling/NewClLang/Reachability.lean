import Mathlib.Logic.Relation
import Mathlib.Data.Set.Basic

set_option autoImplicit false

/-!
# Reachability from roots

What a relation leads to from a set of roots. It is the least set that holds the roots and is
closed under the relation.
-/
namespace NewClLang.Reachability

section Reachable
variable {α : Type*} {edge edge' : α → α → Prop} {roots roots' S : Set α} {a b : α}

def Reachable (edge : α → α → Prop) (roots : Set α) (b : α) : Prop :=
  ∃ r ∈ roots, Relation.ReflTransGen edge r b

theorem reachable_root (h : a ∈ roots) : Reachable edge roots a := ⟨a, h, .refl⟩

theorem Reachable.step (h : Reachable edge roots a) (hedge : edge a b) :
    Reachable edge roots b := by
  obtain ⟨r, hr, hpath⟩ := h
  exact ⟨r, hr, hpath.tail hedge⟩

/-- A closed set that holds the roots holds all that is reachable. -/
theorem Reachable.mem_of_closed (h : Reachable edge roots b) (hroots : ∀ r ∈ roots, r ∈ S)
    (hclosed : ∀ a ∈ S, ∀ b, edge a b → b ∈ S) : b ∈ S := by
  obtain ⟨r, hr, hpath⟩ := h
  induction hpath with
  | refl => exact hroots r hr
  | tail _ hedge ih => exact hclosed _ ih _ hedge

/-- Roots that are reachable from others add nothing. -/
theorem Reachable.of_roots (h : Reachable edge roots b)
    (hroots : ∀ r ∈ roots, Reachable edge roots' r) : Reachable edge roots' b :=
  h.mem_of_closed (S := {b | Reachable edge roots' b}) hroots (fun _ ha _ hedge => Reachable.step ha hedge)

theorem not_reachable_of_no_root (h : ∀ r, r ∉ roots) : ¬ Reachable edge roots b := by
  rintro ⟨r, hr, _⟩
  exact h r hr

end Reachable

end NewClLang.Reachability
