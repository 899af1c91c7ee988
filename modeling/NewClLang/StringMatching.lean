import NewClLang.StringBounds

set_option autoImplicit false

/-!
# Occurrences in strings

Where a string occurs in another one, and the loop of the strings module that compares their bytes.
-/
namespace NewClLang.StringMatching
open WrappedIntegers ExceptOutcomes StringRoutines StringBounds
open JsonModule (Bytes Stop)

section Reads
variable {s : Str}

/-- The lengths of which `len` is not cut off. -/
abbrev Short (s : Str) : Prop := s.length < 2147483648

theorem len_eq (h : Short s) : s.len = s.length := wrap32_eq (by omega) (by omega)

theorem memory_getElem {i : ℕ} (h : i < s.length) : s.memory[i]? = some (getElem s.bytes i h) := by
  cases s with
  | null => cases h
  | buffer bytes => exact (List.getElem?_append_left h).trans (List.getElem?_eq_getElem h)

theorem byteAt_memory {i : ℕ} (h : i < s.memory.length) :
    byteAt s i = .ok (getElem s.memory i h) := by
  rw [byteAt, if_pos (Int.natCast_nonneg i), Int.toNat_natCast, List.getElem?_eq_getElem h]

theorem byteAt_nat {i : ℕ} (h : i < s.length) : byteAt s i = .ok (getElem s.bytes i h) := by
  rw [byteAt, if_pos (Int.natCast_nonneg i), Int.toNat_natCast, memory_getElem h]

/-- Behind the last byte stands the NUL. -/
theorem byteAt_end (h : 0 < s.length) : byteAt s s.length = .ok 0 := by
  cases s with
  | null => cases h
  | buffer bytes =>
    rw [byteAt, if_pos (Int.natCast_nonneg _), Int.toNat_natCast]
    simp [Str.memory, Str.length, Str.bytes]

theorem drop_eq_cons {i : ℕ} (h : i < s.length) :
    s.bytes.drop i = getElem s.bytes i h :: s.bytes.drop (i + 1) := List.drop_eq_getElem_cons h

theorem memory_slice {i n : ℕ} (h : i + n ≤ s.length) :
    (s.memory.drop i).take n = (s.bytes.drop i).take n := by
  cases s with
  | null => rfl
  | buffer bytes =>
    have hlength : i + n ≤ bytes.length := h
    change ((bytes ++ [0]).drop i).take n = (bytes.drop i).take n
    rw [List.drop_append_of_le_length (by omega), List.take_append_of_le_length]
    rw [List.length_drop]
    omega

/-- A slice inside of a string, up to an index that the bounds can hold. -/
theorem strSlice_within {a b : ℕ} (hab : a ≤ b) (hb : b ≤ s.length) (hfits : b < 4294967296) :
    strSlice s a b = .ok ((s.bytes.drop a).take (b - a)) := by
  have hstart : ((a : ℤ) % 4294967296).toNat = a := by omega
  have hcount : (((b : ℤ) % 4294967296 - (a : ℤ) % 4294967296) % 18446744073709551616).toNat =
      b - a := by omega
  have hmemory := length_le_memory s
  unfold strSlice
  simp only [hstart, hcount]
  rw [if_pos (Or.inr (by omega)), memory_slice (by omega)]

theorem strSlice_nat {a b : ℕ} (hab : a ≤ b) (hb : b ≤ s.length) (hs : Short s) :
    strSlice s a b = .ok ((s.bytes.drop a).take (b - a)) := strSlice_within hab hb (by omega)

end Reads

section Occurrences

/-- `t[i..i+len(needle)) = needle`. -/
def OccursAt (t needle : Bytes) (i : ℕ) : Prop :=
  i + needle.length ≤ t.length ∧ (t.drop i).take needle.length = needle

instance (t needle : Bytes) (i : ℕ) : Decidable (OccursAt t needle i) :=
  inferInstanceAs (Decidable (_ ∧ _))

theorem occursAt_nil {t : Bytes} {i : ℕ} : OccursAt t [] i ↔ i ≤ t.length := by simp [OccursAt]

theorem OccursAt.le {t needle : Bytes} {i : ℕ} (h : OccursAt t needle i) :
    i + needle.length ≤ t.length := h.1

theorem not_occursAt_of_lt {t needle : Bytes} {i : ℕ} (h : t.length < i + needle.length) :
    ¬ OccursAt t needle i := fun hoccurs => absurd hoccurs.le (by omega)

theorem occursAt_split {t needle : Bytes} {i : ℕ} (h : OccursAt t needle i) :
    t.drop i = needle ++ t.drop (i + needle.length) := by
  have hsplit := List.take_append_drop needle.length (t.drop i)
  rw [h.2, List.drop_drop] at hsplit
  exact hsplit.symm

end Occurrences

section Matching
variable {s needle : Str}

/-- The loop compares what is left of `needle`. It may come to the NUL behind the last byte. -/
theorem matchLoop_eq {i turns j : ℕ} (hturns : j + turns = needle.length)
    (hin : i + needle.length ≤ s.memory.length) (hwrap : i + needle.length ≤ 2147483648)
    (matched : Bool) :
    matchLoop s needle i turns j matched = .ok (matched &&
      decide ((s.memory.drop (i + j)).take turns = needle.bytes.drop j)) := by
  induction turns generalizing j matched with
  | zero =>
    have hnil : needle.bytes.drop j = [] := by
      apply List.drop_of_length_le
      change needle.length ≤ j
      omega
    simp [matchLoop, hnil]
  | succ turns ih =>
    have hj : j < needle.length := by omega
    have hi : i + j < s.memory.length := by omega
    have hindex : wrap32 ((i : ℤ) + j) = ((i + j : ℕ) : ℤ) := by
      rw [wrap32_eq (by omega) (by omega), Int.natCast_add]
    rw [matchLoop, hindex, bind_ok (byteAt_memory hi), bind_ok (byteAt_nat hj)]
    have hnext := ih (j := j + 1) (by omega)
      (matched && getElem s.memory (i + j) hi == getElem needle.bytes j hj)
    rw [Int.natCast_succ] at hnext
    rw [hnext, List.drop_eq_getElem_cons hi, drop_eq_cons hj, List.take_succ_cons]
    congr 1
    rw [Bool.and_assoc]
    congr 1
    by_cases hsame : getElem s.memory (i + j) hi = getElem needle.bytes j hj
    · simp [hsame, Nat.add_assoc]
    · simp [hsame]

theorem matchesAt_memory (hneedle : Short needle) {i : ℕ}
    (hin : i + needle.length ≤ s.memory.length) (hwrap : i + needle.length ≤ 2147483648) :
    matchesAt s needle i =
      .ok (decide ((s.memory.drop i).take needle.length = needle.bytes)) := by
  have hturns : needle.len.toNat = needle.length := by
    rw [len_eq hneedle]
    exact Int.toNat_natCast _
  have hloop := matchLoop_eq (j := 0) (Nat.zero_add needle.length) hin hwrap true
  rw [matchesAt, hturns]
  refine hloop.trans ?_
  simp

theorem matchesAt_eq (hs : Short s) (hneedle : Short needle) {i : ℕ}
    (hin : i + needle.length ≤ s.length) :
    matchesAt s needle i = .ok (decide (OccursAt s.bytes needle.bytes i)) := by
  have hmemory := length_le_memory s
  have hoccurs : OccursAt s.bytes needle.bytes i ↔
      (s.bytes.drop i).take needle.length = needle.bytes :=
    ⟨fun h => h.2, fun h => ⟨hin, h⟩⟩
  rw [matchesAt_memory hneedle (by omega) (by omega), memory_slice hin]
  simp [hoccurs]

end Matching

end NewClLang.StringMatching
