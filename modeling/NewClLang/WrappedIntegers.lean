import Mathlib.Data.Int.Basic
import Mathlib.Tactic.Common

set_option autoImplicit false

/-!
# Integers of a fixed width

What an operation on 32-bit signed integers makes of the mathematical result: the representative of
the same class that has 32 bits, or a failure where the result does not fit.
-/
namespace NewClLang.WrappedIntegers

/-- The signed 32-bit integer with the same lower 32 bits. -/
def wrap32 (z : ℤ) : ℤ :=
  if (z % 4294967296).toNat < 2147483648 then z % 4294967296 else z % 4294967296 - 4294967296

def Fits (z : ℤ) : Prop := -2147483648 ≤ z ∧ z < 2147483648

instance (z : ℤ) : Decidable (Fits z) := inferInstanceAs (Decidable (_ ∧ _))

abbrev Arithmetic := ℤ → Option ℤ

def wrapping : Arithmetic := fun z => some (wrap32 z)

def checked : Arithmetic := fun z => if Fits z then some z else none

/-- An operation succeeds where the result fits, and the result of one that succeeds is congruent to
    the mathematical one. -/
structure Modular (arith : Arithmetic) : Prop where
  fits : ∀ z, Fits z → arith z = some z
  wraps : ∀ z y, arith z = some y → y = wrap32 z

theorem wrap32_of_fits {z : ℤ} (h : Fits z) : wrap32 z = z := by
  obtain ⟨hlow, hhigh⟩ := h
  unfold wrap32
  split <;> omega

theorem wrap32_fits (z : ℤ) : Fits (wrap32 z) := by
  unfold wrap32 Fits
  split <;> omega

theorem wrap32_le {z : ℤ} (h : 0 ≤ z) : wrap32 z ≤ z := by
  unfold wrap32
  split <;> omega

theorem wrapping_modular : Modular wrapping where
  fits := by
    intro z h
    rw [wrapping, wrap32_of_fits h]
  wraps := by
    intro z y h
    exact (Option.some.inj h).symm

theorem checked_modular : Modular checked where
  fits := by
    intro z h
    rw [checked, if_pos h]
  wraps := by
    intro z y h
    unfold checked at h
    by_cases hz : Fits z
    · rw [if_pos hz] at h
      rw [wrap32_of_fits hz]
      exact (Option.some.inj h).symm
    · rw [if_neg hz] at h
      cases h

theorem Modular.eq_of_fits {arith : Arithmetic} (h : Modular arith) {z y : ℤ} (hz : Fits z)
    (hy : arith z = some y) : y = z := by
  rw [h.wraps z y hy, wrap32_of_fits hz]

end NewClLang.WrappedIntegers
