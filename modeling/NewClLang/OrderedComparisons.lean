import Mathlib.Algebra.Ring.Nat
import Mathlib.Data.Int.Order.Basic
import Mathlib.Order.Lattice

set_option autoImplicit false

/-!
# Comparison predicates

The six predicates of a machine comparison over a linear order, and the ordered ones of floating
point, which are false as soon as an operand is not a number.
-/
namespace NewClLang.OrderedComparisons

section Predicates

inductive Predicate where
  | eq
  | ne
  | lt
  | le
  | gt
  | ge
deriving DecidableEq, Repr

/-- What a predicate says of two values. -/
def Predicate.holds {α : Type} [LinearOrder α] : Predicate → α → α → Bool
  | .eq, x, y => decide (x = y)
  | .ne, x, y => decide (x ≠ y)
  | .lt, x, y => decide (x < y)
  | .le, x, y => decide (x ≤ y)
  | .gt, x, y => decide (y < x)
  | .ge, x, y => decide (y ≤ x)

variable {α : Type} [LinearOrder α]

theorem holds_ne (x y : α) : Predicate.ne.holds x y = !Predicate.eq.holds x y := by
  simp [Predicate.holds]

theorem holds_eq_comm (x y : α) : Predicate.eq.holds x y = Predicate.eq.holds y x := by
  simp [Predicate.holds, eq_comm]

theorem holds_gt (x y : α) : Predicate.gt.holds x y = Predicate.lt.holds y x := rfl

theorem holds_le (x y : α) : Predicate.le.holds x y = !Predicate.lt.holds y x := by
  rw [Predicate.holds, Predicate.holds, ← decide_not]
  exact decide_eq_decide.mpr not_lt.symm

theorem holds_ge (x y : α) : Predicate.ge.holds x y = !Predicate.lt.holds x y := holds_le y x

/-- One of three and no other. -/
def ExactlyOne (p q r : Prop) : Prop := (p ∧ ¬q ∧ ¬r) ∨ (¬p ∧ q ∧ ¬r) ∨ (¬p ∧ ¬q ∧ r)

theorem holds_trichotomy (x y : α) :
    ExactlyOne (Predicate.lt.holds x y = true) (Predicate.eq.holds x y = true)
      (Predicate.lt.holds y x = true) := by
  simp only [ExactlyOne, Predicate.holds, decide_eq_true_eq]
  rcases lt_trichotomy x y with h | h | h
  · exact Or.inl ⟨h, h.ne, h.asymm⟩
  · exact Or.inr (Or.inl ⟨h.not_lt, h, h.symm.not_lt⟩)
  · exact Or.inr (Or.inr ⟨h.asymm, h.ne', h⟩)

end Predicates

section Formats

/-- A binary floating-point format: a sign, an exponent and a fraction. -/
structure Format where
  exponent : ℕ
  fraction : ℕ
deriving DecidableEq, Repr

def binary32 : Format := ⟨8, 23⟩

def binary64 : Format := ⟨11, 52⟩

def Format.width (f : Format) : ℕ := 1 + f.exponent + f.fraction

variable {f : Format}

/-- The bits behind the sign. -/
def magnitude (x : BitVec f.width) : ℕ := x.toNat % 2 ^ (f.exponent + f.fraction)

/-- All ones in the exponent, and a fraction that is not zero. -/
def isNaN (x : BitVec f.width) : Bool :=
  decide ((2 ^ f.exponent - 1) * 2 ^ f.fraction < magnitude x)

/-- The place of a number among the numbers of its format; both zeros are at the same. -/
def place (x : BitVec f.width) : ℤ := if x.msb then -(magnitude x : ℤ) else magnitude x

/-- A comparison that is false for what is not a number. -/
def ordered (p : Predicate) (x y : BitVec f.width) : Bool :=
  !isNaN x && !isNaN y && p.holds (place x) (place y)

theorem ordered_of_numbers {x y : BitVec f.width} (hx : isNaN x = false) (hy : isNaN y = false)
    (p : Predicate) : ordered p x y = p.holds (place x) (place y) := by
  simp [ordered, hx, hy]

theorem ordered_of_nan {x y : BitVec f.width} (h : isNaN x = true ∨ isNaN y = true)
    (p : Predicate) : ordered p x y = false := by
  rcases h with h | h <;> simp [ordered, h]

theorem ordered_eq_comm (x y : BitVec f.width) : ordered .eq x y = ordered .eq y x := by
  rw [ordered, ordered, holds_eq_comm, Bool.and_comm (!isNaN x)]

theorem ordered_gt (x y : BitVec f.width) : ordered .gt x y = ordered .lt y x := by
  rw [ordered, ordered, holds_gt, Bool.and_comm (!isNaN x)]

example : ordered (f := binary64) .ne 0x7FF8000000000000#64 0x7FF8000000000000#64 = false := by
  decide

end Formats

end NewClLang.OrderedComparisons
