import Mathlib.Data.List.Lex
import NewClLang.ComparisonLaws
import NewClLang.StringRoutines

set_option autoImplicit false

/-!
# The order of strings

`__nc_str_cmp_ptr` and `__nc_str_eq`, with the pointers of their strings, and the lexicographic order
on the unsigned bytes.
-/
namespace NewClLang.StringOrder
open OrderedComparisons Comparisons ComparableValues ComparisonLaws StringRoutines

section Runtime

/-- A call of `memcmp`. A null pointer cannot be read. -/
def memcmpAt (n : ℕ) : Str → Str → Option ℤ
  | .buffer a, .buffer b => some (memcmp n a b)
  | _, _ => none

/-- `__nc_str_eq`. -/
def strEqAt (a b : Str) : Option ℤ :=
  if a.length ≠ b.length then some 0
  else if a.length = 0 then some 1
  else do
    let cmp ← memcmpAt a.length a b
    some (if cmp = 0 then 1 else 0)

/-- The end of `__nc_str_cmp_ptr`. -/
def lengthCmp (a b : Str) : ℤ :=
  if a.length < b.length then -1 else if b.length < a.length then 1 else 0

/-- `__nc_str_cmp_ptr`. -/
def strCmpPtr (a b : Str) : Option ℤ :=
  let n := if a.length < b.length then a.length else b.length
  if n ≠ 0 then do
    let cmp ← memcmpAt n a b
    some (if cmp < 0 then -1 else if 0 < cmp then 1 else lengthCmp a b)
  else
    some (lengthCmp a b)

end Runtime

section Order

/-- The bytes as unsigned numbers. -/
def codes (bytes : List UInt8) : List ℕ := bytes.map UInt8.toNat

/-- Where `a` stands to `b` in the lexicographic order, in which a proper prefix comes first. -/
def lexSign (a b : List ℕ) : ℤ := if a < b then -1 else if b < a then 1 else 0

variable {a b : List ℕ}

theorem lexSign_swap (a b : List ℕ) : lexSign b a = -lexSign a b := by
  unfold lexSign
  rcases lt_trichotomy a b with h | rfl | h
  · simp [h, h.not_gt]
  · simp
  · simp [h, h.not_gt]

theorem lexSign_nonpos : lexSign a b ≤ 0 ↔ a ≤ b := by
  unfold lexSign
  rcases lt_trichotomy a b with h | rfl | h
  · simp [h, h.le]
  · simp
  · simp [h, h.not_gt]

theorem lexSign_eq_zero : lexSign a b = 0 ↔ a = b := by
  unfold lexSign
  rcases lt_trichotomy a b with h | rfl | h
  · simp [h, h.ne]
  · simp
  · simp [h, h.not_gt, h.ne']

theorem lexSign_cons (x : ℕ) (a b : List ℕ) : lexSign (x :: a) (x :: b) = lexSign a b := by
  simp [lexSign]

theorem lexSign_cons_lt {x y : ℕ} (h : x < y) (a b : List ℕ) : lexSign (x :: a) (y :: b) = -1 :=
  if_pos (List.cons_lt_cons_iff.mpr (Or.inl h))

theorem lexSign_cons_gt {x y : ℕ} (h : y < x) (a b : List ℕ) : lexSign (x :: a) (y :: b) = 1 := by
  rw [lexSign_swap (y :: b) (x :: a), lexSign_cons_lt h]
  rfl

theorem holds_lexSign {op : Predicate} (hop : IsOrder op) (a b : List ℕ) :
    op.holds (lexSign a b) 0 = op.holds a b := by
  have hswap : 0 ≤ lexSign a b ↔ b ≤ a := by
    rw [← lexSign_nonpos, lexSign_swap a b]
    omega
  have hlt : lexSign a b < 0 ↔ a < b := by rw [← not_le, hswap, not_le]
  have hgt : 0 < lexSign a b ↔ b < a := by rw [← not_le, lexSign_nonpos, not_le]
  cases op with
  | eq => exact absurd rfl hop.1
  | ne => exact absurd rfl hop.2
  | lt => exact decide_eq_decide.mpr hlt
  | le => exact decide_eq_decide.mpr lexSign_nonpos
  | gt => exact decide_eq_decide.mpr hgt
  | ge => exact decide_eq_decide.mpr hswap

end Order

section Comparison
variable {a b : List UInt8} {n : ℕ}

theorem memcmp_cons_same (n : ℕ) (x : UInt8) (a b : List UInt8) :
    memcmp (n + 1) (x :: a) (x :: b) = memcmp n a b := by
  simp [memcmp]

theorem memcmp_cons_other (n : ℕ) {x y : UInt8} (h : x ≠ y) (a b : List UInt8) :
    memcmp (n + 1) (x :: a) (y :: b) = (x.toNat : ℤ) - y.toNat := by
  simp [memcmp, h]

/-- The bytes before the shorter end decide, and then the lengths. -/
theorem strCmp_cons_same (x : UInt8) (a b : List UInt8) :
    strCmp (x :: a) (x :: b) = strCmp a b := by
  have hn : (if (x :: a).length < (x :: b).length then (x :: a).length else (x :: b).length) =
      (if a.length < b.length then a.length else b.length) + 1 := by
    simp only [List.length_cons]
    split <;> split <;> omega
  simp only [strCmp]
  rw [hn, memcmp_cons_same]
  by_cases hzero : (if a.length < b.length then a.length else b.length) = 0
  · simp [hzero, memcmp]
  · simp [hzero]

theorem strCmp_cons_other {x y : UInt8} (h : x ≠ y) (a b : List UInt8) :
    strCmp (x :: a) (y :: b) = if x.toNat < y.toNat then -1 else 1 := by
  obtain ⟨n, hn⟩ : ∃ n, (if (x :: a).length < (y :: b).length then (x :: a).length
      else (y :: b).length) = n + 1 := by
    refine ⟨if a.length < b.length then a.length else b.length, ?_⟩
    simp only [List.length_cons]
    split <;> split <;> omega
  have hne : x.toNat ≠ y.toNat := fun heq => h (UInt8.toNat_inj.mp heq)
  simp only [strCmp]
  rw [hn, memcmp_cons_other n h]
  by_cases hlt : x.toNat < y.toNat
  · rw [if_pos hlt, if_pos ⟨Nat.succ_ne_zero n, by omega⟩]
  · rw [if_neg hlt, if_neg (by omega), if_pos ⟨Nat.succ_ne_zero n, by omega⟩]

/-- `__nc_str_cmp_ptr` is the lexicographic order. -/
theorem strCmp_lex (a b : List UInt8) : strCmp a b = lexSign (codes a) (codes b) := by
  induction a generalizing b with
  | nil =>
    cases b with
    | nil => simp [strCmp, memcmp, lexSign, codes]
    | cons y b => simp [strCmp, memcmp, lexSign, codes]
  | cons x a ih =>
    cases b with
    | nil => simp [strCmp, memcmp, lexSign, codes]
    | cons y b =>
      have hcodes : lexSign (codes (x :: a)) (codes (y :: b)) =
          lexSign (x.toNat :: codes a) (y.toNat :: codes b) := rfl
      rw [hcodes]
      by_cases h : x = y
      · subst h
        rw [strCmp_cons_same, lexSign_cons, ih]
      · have hne : x.toNat ≠ y.toNat := fun heq => h (UInt8.toNat_inj.mp heq)
        rw [strCmp_cons_other h]
        rcases Nat.lt_or_gt_of_ne hne with hlt | hgt
        · rw [if_pos hlt, lexSign_cons_lt hlt]
        · rw [if_neg hgt.not_gt, lexSign_cons_gt hgt]

theorem codes_injective (h : codes a = codes b) : a = b :=
  List.map_injective_iff.mpr (fun _ _ => UInt8.toNat_inj.mp) h

theorem memcmpAt_of_pos (hn : n ≠ 0) {a b : Str} (ha : n ≤ a.length) (hb : n ≤ b.length) :
    memcmpAt n a b = some (memcmp n a.bytes b.bytes) := by
  cases a with
  | null => exact absurd (Nat.le_zero.mp ha) hn
  | buffer x =>
    cases b with
    | null => exact absurd (Nat.le_zero.mp hb) hn
    | buffer y => rfl

/-- A null pointer is not read. -/
theorem strCmpPtr_eq (a b : Str) : strCmpPtr a b = some (strCmp a.bytes b.bytes) := by
  have hlengths : lengthCmp a b = if a.bytes.length < b.bytes.length then -1
      else if b.bytes.length < a.bytes.length then 1 else 0 := rfl
  have hn : (if a.length < b.length then a.length else b.length) =
      if a.bytes.length < b.bytes.length then a.bytes.length else b.bytes.length := rfl
  have ha : (if a.length < b.length then a.length else b.length) ≤ a.length := by split <;> omega
  have hb : (if a.length < b.length then a.length else b.length) ≤ b.length := by split <;> omega
  simp only [strCmpPtr, strCmp]
  by_cases hzero : (if a.length < b.length then a.length else b.length) = 0
  · simp [hzero, ← hn, hlengths]
  · rw [if_pos hzero, memcmpAt_of_pos hzero ha hb]
    simp [hzero, ← hn, hlengths]

theorem strEqAt_eq (a b : Str) : strEqAt a b = some (strEq a.bytes b.bytes) := by
  have hlength : ∀ s : Str, s.length = s.bytes.length := fun _ => rfl
  by_cases h : a.length = b.length
  · by_cases hzero : a.length = 0
    · simp [strEqAt, strEq, ← hlength, h, hzero ▸ h.symm]
    · have hread := memcmpAt_of_pos hzero (le_refl a.length) h.le
      rw [strEqAt, if_neg (not_not_intro h), if_neg hzero, hread]
      simp [strEq, ← hlength, h, h ▸ hzero]
  · simp [strEqAt, strEq, ← hlength, h]

end Comparison

section Laws

/-- `cmp` puts `a` before `b` or with it. -/
def AtMost (cmp : Str → Str → Option ℤ) (a b : Str) : Prop := ∃ c ≤ 0, cmp a b = some c

/-- A comparison that never fails and is the lexicographic order, with an equality that agrees. -/
structure Ordered (cmp eq : Str → Str → Option ℤ) : Prop where
  lex : ∀ a b, cmp a b = some (lexSign (codes a.bytes) (codes b.bytes))
  antisymm : ∀ a b, ∃ c, cmp a b = some c ∧ cmp b a = some (-c)
  trans : ∀ a b c, AtMost cmp a b → AtMost cmp b c → AtMost cmp a c
  total : ∀ a b, AtMost cmp a b ∨ AtMost cmp b a
  equal : ∀ a b, cmp a b = some 0 ↔ ∃ r ≠ 0, eq a b = some r

theorem strCmpPtr_lex (a b : Str) :
    strCmpPtr a b = some (lexSign (codes a.bytes) (codes b.bytes)) := by
  rw [strCmpPtr_eq, strCmp_lex]

theorem atMost_iff (a b : Str) : AtMost strCmpPtr a b ↔ codes a.bytes ≤ codes b.bytes := by
  constructor
  · rintro ⟨c, hc, heq⟩
    rw [strCmpPtr_lex] at heq
    cases heq
    exact lexSign_nonpos.mp hc
  · intro h
    exact ⟨_, lexSign_nonpos.mpr h, strCmpPtr_lex a b⟩

theorem strCmpPtr_ordered : Ordered strCmpPtr strEqAt where
  lex := strCmpPtr_lex
  antisymm := by
    intro a b
    refine ⟨_, strCmpPtr_lex a b, ?_⟩
    rw [strCmpPtr_lex, lexSign_swap (codes a.bytes)]
  trans := by
    intro a b c hab hbc
    rw [atMost_iff] at hab hbc ⊢
    exact hab.trans hbc
  total := by
    intro a b
    rw [atMost_iff, atMost_iff]
    exact le_total _ _
  equal := by
    intro a b
    rw [strCmpPtr_eq, strEqAt_eq, Option.some_inj, ← strEq_iff]
    constructor
    · intro h
      exact ⟨_, h, rfl⟩
    · rintro ⟨r, hr, heq⟩
      rw [Option.some_inj.mp heq]
      exact hr

/-- The operators that `emit_binary` makes of the comparison. -/
structure Operators {σ : Type} (d : Declarations) (call : MethodCall σ) (a b : Str) (s : σ) :
    Prop where
  compared : strCmpPtr a b = some (strCmp a.bytes b.bytes)
  emitted : ∀ op ∈ [Predicate.lt, .le, .gt, .ge],
    emitBinary d call op str str (.str a.bytes) (.str b.bytes) s =
      some (op.holds (codes a.bytes) (codes b.bytes), s)

theorem operators_of_order {σ : Type} (d : Declarations) (call : MethodCall σ) (a b : Str) (s : σ) :
    Operators d call a b s := by
  refine ⟨strCmpPtr_eq a b, fun op hop => ?_⟩
  have horder : IsOrder op := by
    rw [IsOrder]
    constructor <;> rintro rfl <;> simp at hop
  rw [emitBinary_str horder, strCmp_lex, holds_lexSign horder]

/-- `__nc_str_cmp_ptr` is the lexicographic order on unsigned bytes, and the operators are the
relations of that order. -/
theorem strings_ordered {σ : Type} (d : Declarations) (call : MethodCall σ) :
    Ordered strCmpPtr strEqAt ∧ ∀ a b s, Operators d call a b s :=
  ⟨strCmpPtr_ordered, operators_of_order d call⟩

end Laws

end NewClLang.StringOrder
