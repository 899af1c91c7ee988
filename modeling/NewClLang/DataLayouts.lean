import Mathlib.Algebra.Ring.Nat
import Mathlib.Data.List.Forall2
import Mathlib.Tactic.Common

set_option autoImplicit false

/-!
# Data layouts

Size and alignment of the types of LLVM for x86-64, and where the fields of a struct stand.
-/
namespace NewClLang.DataLayouts

section Alignment
variable {a b n m : ℕ}

def alignTo (value alignment : ℕ) : ℕ := (value + alignment - 1) / alignment * alignment

/-- Alignments are powers of two. -/
def IsPow (a : ℕ) : Prop := ∃ k, a = 2 ^ k

theorem IsPow.pos (h : IsPow a) : 0 < a := by
  obtain ⟨k, rfl⟩ := h
  exact Nat.two_pow_pos k

theorem IsPow.dvd_of_le (ha : IsPow a) (hb : IsPow b) (h : a ≤ b) : a ∣ b := by
  obtain ⟨k, rfl⟩ := ha
  obtain ⟨l, rfl⟩ := hb
  exact Nat.pow_dvd_pow 2 ((Nat.pow_le_pow_iff_right (by decide)).mp h)

theorem isPow_one : IsPow 1 := ⟨0, rfl⟩

theorem isPow_max (ha : IsPow a) (hb : IsPow b) : IsPow (max a b) := by
  rcases Nat.le_total a b with h | h
  · rwa [Nat.max_eq_right h]
  · rwa [Nat.max_eq_left h]

theorem dvd_alignTo (n a : ℕ) : a ∣ alignTo n a := Nat.dvd_mul_left a _

theorem le_alignTo (n : ℕ) (ha : 0 < a) : n ≤ alignTo n a := by
  have hdiv := Nat.div_add_mod (n + a - 1) a
  have hmod := Nat.mod_lt (n + a - 1) ha
  rw [alignTo, Nat.mul_comm]
  omega

theorem alignTo_of_dvd (ha : 0 < a) (h : a ∣ n) : alignTo n a = n := by
  obtain ⟨k, rfl⟩ := h
  have hdiv : (a * k + a - 1) / a = k := by
    rw [Nat.add_sub_assoc ha, Nat.mul_add_div ha, Nat.div_eq_of_lt (by omega), Nat.add_zero]
  rw [alignTo, hdiv, Nat.mul_comm]

end Alignment

section Layouts

structure Layout where
  size : ℕ
  align : ℕ
deriving DecidableEq, Repr

/-- Where each field stands, when those before it end at `offset`. -/
def fieldOffsets : ℕ → List Layout → List ℕ
  | _, [] => []
  | offset, l :: ls =>
    alignTo offset l.align :: fieldOffsets (alignTo offset l.align + l.size) ls

def fieldsEnd : ℕ → List Layout → ℕ
  | offset, [] => offset
  | offset, l :: ls => fieldsEnd (alignTo offset l.align + l.size) ls

def maxAlign : List Layout → ℕ
  | [] => 1
  | l :: ls => max l.align (maxAlign ls)

def structLayout (ls : List Layout) : Layout :=
  ⟨alignTo (fieldsEnd 0 ls) (maxAlign ls), maxAlign ls⟩

/-- The alignment is a power of two, and the size a multiple of it. -/
structure Layout.Regular (l : Layout) : Prop where
  pow : IsPow l.align
  dvd : l.align ∣ l.size

variable {l : Layout} {ls : List Layout}

theorem one_le_maxAlign (ls : List Layout) : 1 ≤ maxAlign ls := by
  induction ls with
  | nil => exact Nat.le_refl 1
  | cons l ls ih => exact Nat.le_trans ih (Nat.le_max_right _ _)

theorem isPow_maxAlign (h : ∀ l ∈ ls, l.Regular) : IsPow (maxAlign ls) := by
  induction ls with
  | nil => exact isPow_one
  | cons l ls ih =>
    exact isPow_max (h l List.mem_cons_self).pow (ih fun k hk => h k (List.mem_cons_of_mem l hk))

theorem align_dvd_maxAlign (h : ∀ l ∈ ls, l.Regular) (hl : l ∈ ls) : l.align ∣ maxAlign ls := by
  refine (h l hl).pow.dvd_of_le (isPow_maxAlign h) ?_
  induction ls with
  | nil => cases hl
  | cons k ls ih =>
    rw [maxAlign]
    rcases List.mem_cons.mp hl with rfl | hl
    · exact Nat.le_max_left _ _
    · have hle := ih (fun k hk => h k (List.mem_cons_of_mem _ hk)) hl
      exact Nat.le_trans hle (Nat.le_max_right _ _)

theorem structLayout_regular (h : ∀ l ∈ ls, l.Regular) : (structLayout ls).Regular :=
  ⟨isPow_maxAlign h, dvd_alignTo _ _⟩

theorem le_fieldsEnd (h : ∀ l ∈ ls, l.Regular) (offset : ℕ) : offset ≤ fieldsEnd offset ls := by
  induction ls generalizing offset with
  | nil => exact Nat.le_refl offset
  | cons l ls ih =>
    have hhere := le_alignTo offset (h l List.mem_cons_self).pow.pos
    have hrest : ∀ k ∈ ls, k.Regular := fun k hk => h k (List.mem_cons_of_mem l hk)
    have hlater := ih hrest (alignTo offset l.align + l.size)
    rw [fieldsEnd]
    omega

/-- A field stands at a multiple of its alignment, and ends where the fields end at the latest. -/
theorem field_placed (h : ∀ l ∈ ls, l.Regular) {offset i o : ℕ} (hl : ls[i]? = some l)
    (ho : (fieldOffsets offset ls)[i]? = some o) :
    l.align ∣ o ∧ o + l.size ≤ fieldsEnd offset ls := by
  induction ls generalizing offset i with
  | nil => cases hl
  | cons k ls ih =>
    have hrest : ∀ l ∈ ls, l.Regular := fun j hj => h j (List.mem_cons_of_mem k hj)
    cases i with
    | zero =>
      cases hl
      cases ho
      exact ⟨dvd_alignTo _ _, le_fieldsEnd hrest _⟩
    | succ i => exact ih hrest hl ho

end Layouts

section Types

inductive IRType where
  | void
  | int (bits : ℕ)
  | float
  | double
  | pointer
  | literal (elems : List IRType)
  | identified (name : String)

def intAlign (bits : ℕ) : ℕ :=
  if bits ≤ 8 then 1 else if bits ≤ 16 then 2 else if bits ≤ 32 then 4
  else if bits ≤ 64 then 8 else 16

def intLayout (bits : ℕ) : Layout := ⟨alignTo ((bits + 7) / 8) (intAlign bits), intAlign bits⟩

/-- The results of a function that may fail. -/
def each {α β : Type} (f : α → Option β) : List α → Option (List β)
  | [] => some []
  | a :: as => (f a).bind fun b => (each f as).map (b :: ·)

/-- Allocation size and ABI alignment, with the bodies of the identified types. -/
def layout (bodies : String → Option (List IRType)) : ℕ → IRType → Option Layout
  | 0, _ => none
  | fuel + 1, t =>
    match t with
    | .void => none
    | .int bits => some (intLayout bits)
    | .float => some ⟨4, 4⟩
    | .double => some ⟨8, 8⟩
    | .pointer => some ⟨8, 8⟩
    | .literal elems => (each (layout bodies fuel) elems).map structLayout
    | .identified name =>
      (bodies name).bind fun elems => (each (layout bodies fuel) elems).map structLayout

variable {α β : Type} {f g : α → Option β} {as : List α} {bs : List β}

theorem each_iff : each f as = some bs ↔ List.Forall₂ (fun a b => f a = some b) as bs := by
  induction as generalizing bs with
  | nil =>
    constructor
    · rintro ⟨⟩
      exact .nil
    · rintro ⟨⟩
      rfl
  | cons a as ih =>
    simp only [each, Option.bind_eq_some_iff, Option.map_eq_some_iff]
    constructor
    · rintro ⟨b, hb, cs, hcs, rfl⟩
      exact .cons hb (ih.mp hcs)
    · intro h
      cases h with
      | @cons _ b _ cs hb hcs => exact ⟨b, hb, cs, ih.mpr hcs, rfl⟩

theorem each_mono (h : ∀ a b, f a = some b → g a = some b) (hf : each f as = some bs) :
    each g as = some bs := each_iff.mpr ((each_iff.mp hf).imp h)

variable {bodies : String → Option (List IRType)} {t : IRType} {l k : Layout}

theorem layout_succ {fuel : ℕ} (h : layout bodies fuel t = some l) :
    layout bodies (fuel + 1) t = some l := by
  induction fuel generalizing t l with
  | zero => cases h
  | succ fuel ih =>
    have hmono : ∀ t l, layout bodies fuel t = some l → layout bodies (fuel + 1) t = some l :=
      fun t l h => ih h
    cases t with
    | void => exact h
    | int bits => exact h
    | float => exact h
    | double => exact h
    | pointer => exact h
    | literal elems =>
      obtain ⟨ls, hls, rfl⟩ := Option.map_eq_some_iff.mp h
      rw [layout, each_mono hmono hls]
      rfl
    | identified name =>
      obtain ⟨elems, hbody, h⟩ := Option.bind_eq_some_iff.mp h
      obtain ⟨ls, hls, rfl⟩ := Option.map_eq_some_iff.mp h
      rw [layout, hbody, Option.bind_some, each_mono hmono hls]
      rfl

theorem layout_mono {n m : ℕ} (h : layout bodies n t = some l) (hnm : n ≤ m) :
    layout bodies m t = some l := by
  induction hnm with
  | refl => exact h
  | step _ ih => exact layout_succ ih

theorem layout_unique {n m : ℕ} (hn : layout bodies n t = some l)
    (hm : layout bodies m t = some k) : l = k := by
  have hl := layout_mono hn (Nat.le_max_left n m)
  have hk := layout_mono hm (Nat.le_max_right n m)
  exact Option.some.inj (hl.symm.trans hk)

theorem intLayout_regular (bits : ℕ) : (intLayout bits).Regular := by
  refine ⟨?_, dvd_alignTo _ _⟩
  change IsPow (intAlign bits)
  unfold intAlign
  split
  · exact ⟨0, rfl⟩
  · split
    · exact ⟨1, rfl⟩
    · split
      · exact ⟨2, rfl⟩
      · split
        · exact ⟨3, rfl⟩
        · exact ⟨4, rfl⟩

theorem forall_of_each {P : β → Prop} (h : ∀ a b, f a = some b → P b) (hf : each f as = some bs) :
    ∀ b ∈ bs, P b := by
  have hall := each_iff.mp hf
  induction hall with
  | nil =>
    intro b hb
    cases hb
  | @cons a b as bs hab hrest ih =>
    intro c hc
    rcases List.mem_cons.mp hc with rfl | hc
    · exact h a c hab
    · exact ih (each_iff.mpr hrest) c hc

theorem layout_regular {fuel : ℕ} (h : layout bodies fuel t = some l) : l.Regular := by
  induction fuel generalizing t l with
  | zero => cases h
  | succ fuel ih =>
    have heach {elems : List IRType} {ls : List Layout}
        (hls : each (layout bodies fuel) elems = some ls) : (structLayout ls).Regular :=
      structLayout_regular (forall_of_each (fun _ _ h => ih h) hls)
    cases t with
    | void => cases h
    | int bits =>
      cases h
      exact intLayout_regular bits
    | float =>
      cases h
      exact ⟨⟨2, rfl⟩, Nat.dvd_refl 4⟩
    | double =>
      cases h
      exact ⟨⟨3, rfl⟩, Nat.dvd_refl 8⟩
    | pointer =>
      cases h
      exact ⟨⟨3, rfl⟩, Nat.dvd_refl 8⟩
    | literal elems =>
      obtain ⟨ls, hls, rfl⟩ := Option.map_eq_some_iff.mp h
      exact heach hls
    | identified name =>
      obtain ⟨elems, -, h⟩ := Option.bind_eq_some_iff.mp h
      obtain ⟨ls, hls, rfl⟩ := Option.map_eq_some_iff.mp h
      exact heach hls

end Types

end NewClLang.DataLayouts
