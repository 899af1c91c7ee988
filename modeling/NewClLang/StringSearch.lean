import NewClLang.StringMatching

set_option autoImplicit false

/-!
# Searching and trimming strings

What the searches of the strings module find, and what its trimming functions leave.
-/
namespace NewClLang.StringSearch
open WrappedIntegers ExceptOutcomes StringRoutines StringBounds StringMatching
open JsonModule (Bytes Stop)

section Properties

/-- The least number with a property, or -1. -/
def Least (P : ℕ → Prop) (r : ℤ) : Prop :=
  (∃ i : ℕ, r = i ∧ P i ∧ ∀ m < i, ¬ P m) ∨ (r = -1 ∧ ∀ i, ¬ P i)

/-- The greatest number with a property, or -1. -/
def Greatest (P : ℕ → Prop) (r : ℤ) : Prop :=
  (∃ i : ℕ, r = i ∧ P i ∧ ∀ m, i < m → ¬ P m) ∨ (r = -1 ∧ ∀ i, ¬ P i)

/-- What is left of a text without the spaces at both ends. -/
structure Trimmed (t r : Bytes) : Prop where
  split : ∃ a b, t = a ++ r ++ b ∧ ∀ c ∈ a ++ b, isSpaceByte c = true
  first : ∀ c, r.head? = some c → isSpaceByte c = false
  last : ∀ c, r.getLast? = some c → isSpaceByte c = false

/-- The result of a call whose loops have enough fuel. -/
def Returns {α : Type} (f : ℕ → Except Stop α) (a : α) : Prop := ∃ n, ∀ fuel ≥ n, f fuel = .ok a

inductive SearchCall where
  | index (s needle : Str)
  | contains (s needle : Str)
  | startsWith (s needle : Str)
  | endsWith (s needle : Str)
  | lastIndex (s needle : Str)
  | trimPrefix (s needle : Str)
  | trimSuffix (s needle : Str)
  | trimSpace (s : Str)

/-- The lengths are those of an `i32`. -/
def SearchCall.Fits : SearchCall → Prop
  | .index s needle | .contains s needle | .startsWith s needle | .endsWith s needle
  | .lastIndex s needle | .trimPrefix s needle | .trimSuffix s needle => Short s ∧ Short needle
  | .trimSpace s => Short s

/-- The call gives what it says. -/
def SearchCall.Correct : SearchCall → Prop
  | .index s needle =>
    ∃ r, StringRoutines.index s needle = .ok r ∧ Least (OccursAt s.bytes needle.bytes) r
  | .contains s needle =>
    ∃ r, StringRoutines.contains s needle = .ok r ∧
      (r = true ↔ ∃ i, OccursAt s.bytes needle.bytes i)
  | .startsWith s needle =>
    ∃ r, StringRoutines.startsWith s needle = .ok r ∧ (r = true ↔ OccursAt s.bytes needle.bytes 0)
  | .endsWith s needle =>
    ∃ r, StringRoutines.endsWith s needle = .ok r ∧ (r = true ↔
      needle.length ≤ s.length ∧ OccursAt s.bytes needle.bytes (s.length - needle.length))
  | .lastIndex s needle =>
    ∃ r, Returns (StringRoutines.lastIndex s needle) r ∧
      Greatest (OccursAt s.bytes needle.bytes) r
  | .trimPrefix s needle =>
    ∃ r, StringRoutines.trimPrefix s needle = .ok r ∧
      (s.bytes = needle.bytes ++ r ∨ (¬ needle.bytes <+: s.bytes ∧ r = s.bytes))
  | .trimSuffix s needle =>
    ∃ r, StringRoutines.trimSuffix s needle = .ok r ∧
      (s.bytes = r ++ needle.bytes ∨ (¬ needle.bytes <:+ s.bytes ∧ r = s.bytes))
  | .trimSpace s => ∃ r, Returns (StringRoutines.trimSpace s) r ∧ Trimmed s.bytes r

/-- `trim_space` reads a byte in front of an empty string. -/
def SearchCall.Condition : SearchCall → Prop
  | .trimSpace s => s.length ≠ 0
  | _ => True

end Properties

section Searches
variable {s needle : Str}

theorem indexLoop_eq (hs : Short s) (hneedle : Short needle) {i turns : ℕ}
    (hbound : turns = 0 ∨ i + turns + needle.length ≤ s.length + 1) :
    ∃ r, indexLoop s needle turns i = .ok r ∧
      ((∃ k : ℕ, r = k ∧ OccursAt s.bytes needle.bytes k ∧
          ∀ m, i ≤ m → m < k → ¬ OccursAt s.bytes needle.bytes m) ∨
        (r = -1 ∧ ∀ m, i ≤ m → m < i + turns → ¬ OccursAt s.bytes needle.bytes m)) := by
  induction turns generalizing i with
  | zero => exact ⟨-1, rfl, Or.inr ⟨rfl, fun m hlow hhigh => absurd hhigh (by omega)⟩⟩
  | succ turns ih =>
    have hin : i + needle.length ≤ s.length := by omega
    rw [indexLoop, bind_ok (matchesAt_eq hs hneedle hin)]
    by_cases hoccurs : OccursAt s.bytes needle.bytes i
    · simp only [hoccurs, decide_true, if_true]
      exact ⟨i, rfl, Or.inl ⟨i, rfl, hoccurs, fun m hlow hhigh => absurd hhigh (by omega)⟩⟩
    · obtain ⟨r, heq, hr⟩ := ih (i := i + 1) (by omega)
      rw [Int.natCast_succ] at heq
      simp only [hoccurs, decide_false, Bool.false_eq_true, if_false]
      refine ⟨r, heq, hr.imp ?_ ?_⟩
      · rintro ⟨k, rfl, hk, hbefore⟩
        refine ⟨k, rfl, hk, fun m hlow hhigh => ?_⟩
        rcases Nat.eq_or_lt_of_le hlow with rfl | hlater
        · exact hoccurs
        · exact hbefore m hlater hhigh
      · rintro ⟨rfl, hnone⟩
        refine ⟨rfl, fun m hlow hhigh => ?_⟩
        rcases Nat.eq_or_lt_of_le hlow with rfl | hlater
        · exact hoccurs
        · exact hnone m hlater (by omega)

theorem bytes_length (s : Str) : s.bytes.length = s.length := rfl

theorem bytes_eq_nil (h : s.length = 0) : s.bytes = [] := List.length_eq_zero_iff.mp h

theorem index_correct (hs : Short s) (hneedle : Short needle) :
    (SearchCall.index s needle).Correct := by
  have hslen := len_eq hs
  have hnlen := len_eq hneedle
  change ∃ r, index s needle = .ok r ∧ _
  rw [index]
  by_cases hempty : needle.len = 0
  · rw [if_pos hempty]
    have hnil : needle.bytes = [] := bytes_eq_nil (by omega)
    refine ⟨0, rfl, Or.inl ⟨0, rfl, ?_, fun m hm => absurd hm (Nat.not_lt_zero m)⟩⟩
    rw [hnil, occursAt_nil]
    exact Nat.zero_le _
  · rw [if_neg hempty]
    by_cases hlong : needle.len > s.len
    · rw [if_pos hlong]
      refine ⟨-1, rfl, Or.inr ⟨rfl, fun i => not_occursAt_of_lt ?_⟩⟩
      rw [bytes_length, bytes_length]
      omega
    · have hlimit : wrap32 (s.len - needle.len) = s.len - needle.len :=
        wrap32_eq (by omega) (by omega)
      rw [if_neg hlong, hlimit, wrap32_eq (by omega) (by omega)]
      have hturns : (s.len - needle.len + 1).toNat = s.length - needle.length + 1 := by omega
      have hbound : 0 + (s.length - needle.length + 1) + needle.length ≤ s.length + 1 := by omega
      obtain ⟨r, heq, hr⟩ := indexLoop_eq hs hneedle (Or.inr hbound)
      rw [hturns]
      refine ⟨r, heq, hr.imp ?_ ?_⟩
      · rintro ⟨k, rfl, hk, hbefore⟩
        exact ⟨k, rfl, hk, fun m hm => hbefore m (Nat.zero_le m) hm⟩
      · rintro ⟨rfl, hnone⟩
        refine ⟨rfl, fun i hoccurs => hnone i (Nat.zero_le i) ?_ hoccurs⟩
        have hle := hoccurs.le
        rw [bytes_length, bytes_length] at hle
        omega

theorem contains_correct (hs : Short s) (hneedle : Short needle) :
    (SearchCall.contains s needle).Correct := by
  obtain ⟨r, heq, hr⟩ := index_correct hs hneedle
  refine ⟨decide (r ≥ 0), ?_, ?_⟩
  · rw [contains, bind_ok heq]
  · rw [decide_eq_true_eq]
    rcases hr with ⟨i, rfl, hi, -⟩ | ⟨rfl, hnone⟩
    · exact iff_of_true (Int.natCast_nonneg i) ⟨i, hi⟩
    · exact iff_of_false (by decide) fun ⟨i, hi⟩ => hnone i hi

theorem lastIndexLoop_eq (hs : Short s) (hneedle : Short needle) {i : ℕ}
    (hin : i + needle.length ≤ s.length) :
    ∃ r, (∀ fuel, i + 2 ≤ fuel → lastIndexLoop s needle fuel i = .ok r) ∧
      ((∃ k : ℕ, r = k ∧ OccursAt s.bytes needle.bytes k ∧
          ∀ m, k < m → m ≤ i → ¬ OccursAt s.bytes needle.bytes m) ∨
        (r = -1 ∧ ∀ m ≤ i, ¬ OccursAt s.bytes needle.bytes m)) := by
  have hturn : ∀ fuel, lastIndexLoop s needle (fuel + 1) i =
      if OccursAt s.bytes needle.bytes i then .ok (i : ℤ)
      else lastIndexLoop s needle fuel (wrap32 ((i : ℤ) - 1)) := by
    intro fuel
    rw [lastIndexLoop, if_pos (Int.natCast_nonneg i), bind_ok (matchesAt_eq hs hneedle hin)]
    simp only [decide_eq_true_eq]
  by_cases hoccurs : OccursAt s.bytes needle.bytes i
  · refine ⟨i, fun fuel hfuel => ?_,
      Or.inl ⟨i, rfl, hoccurs, fun m hlow hhigh => absurd hhigh (by omega)⟩⟩
    obtain ⟨fuel, rfl⟩ : ∃ n, fuel = n + 1 := ⟨fuel - 1, by omega⟩
    rw [hturn, if_pos hoccurs]
  · have hback : wrap32 ((i : ℤ) - 1) = (i : ℤ) - 1 := wrap32_eq (by omega) (by omega)
    cases i with
    | zero =>
      refine ⟨-1, fun fuel hfuel => ?_, Or.inr ⟨rfl, fun m hm => ?_⟩⟩
      · obtain ⟨fuel, rfl⟩ : ∃ n, fuel = n + 2 := ⟨fuel - 2, by omega⟩
        rw [hturn, if_neg hoccurs, hback, lastIndexLoop, if_neg (by omega)]
      · rw [Nat.le_zero.mp hm]
        exact hoccurs
    | succ i =>
      obtain ⟨r, heq, hr⟩ := lastIndexLoop_eq hs hneedle (i := i) (by omega)
      refine ⟨r, fun fuel hfuel => ?_, hr.imp ?_ ?_⟩
      · obtain ⟨fuel, rfl⟩ : ∃ n, fuel = n + 1 := ⟨fuel - 1, by omega⟩
        have hprevious : ((i + 1 : ℕ) : ℤ) - 1 = i := by omega
        rw [hturn, if_neg hoccurs, hback, hprevious]
        exact heq fuel (by omega)
      · rintro ⟨k, rfl, hk, hafter⟩
        refine ⟨k, rfl, hk, fun m hlow hhigh => ?_⟩
        rcases Nat.eq_or_lt_of_le hhigh with rfl | hbefore
        · exact hoccurs
        · exact hafter m hlow (by omega)
      · rintro ⟨rfl, hnone⟩
        refine ⟨rfl, fun m hm => ?_⟩
        rcases Nat.eq_or_lt_of_le hm with rfl | hbefore
        · exact hoccurs
        · exact hnone m (by omega)

theorem lastIndex_correct (hs : Short s) (hneedle : Short needle) :
    (SearchCall.lastIndex s needle).Correct := by
  have hslen := len_eq hs
  have hnlen := len_eq hneedle
  change ∃ r, Returns (lastIndex s needle) r ∧ _
  by_cases hempty : needle.len = 0
  · have hnil : needle.bytes = [] := bytes_eq_nil (by omega)
    refine ⟨s.len, ⟨0, fun fuel _ => by rw [lastIndex, if_pos hempty]⟩,
      Or.inl ⟨s.length, hslen, ?_, fun m hm => ?_⟩⟩
    · rw [hnil, occursAt_nil]
      exact Nat.le_refl _
    · rw [hnil, occursAt_nil, bytes_length]
      omega
  · by_cases hlong : needle.len > s.len
    · refine ⟨-1, ⟨0, fun fuel _ => by rw [lastIndex, if_neg hempty, if_pos hlong]⟩,
        Or.inr ⟨rfl, fun i => not_occursAt_of_lt ?_⟩⟩
      rw [bytes_length, bytes_length]
      omega
    · have hstart : wrap32 (s.len - needle.len) = ((s.length - needle.length : ℕ) : ℤ) := by
        rw [wrap32_eq (by omega) (by omega)]
        omega
      have hin : s.length - needle.length + needle.length ≤ s.length := by omega
      obtain ⟨r, heq, hr⟩ := lastIndexLoop_eq hs hneedle hin
      refine ⟨r, ⟨s.length - needle.length + 2, fun fuel hfuel => ?_⟩, hr.imp ?_ ?_⟩
      · rw [lastIndex, if_neg hempty, if_neg hlong, hstart]
        exact heq fuel hfuel
      · rintro ⟨k, rfl, hk, hafter⟩
        refine ⟨k, rfl, hk, fun m hm hoccurs => hafter m hm ?_ hoccurs⟩
        have hle := hoccurs.le
        rw [bytes_length, bytes_length] at hle
        omega
      · rintro ⟨rfl, hnone⟩
        refine ⟨rfl, fun m hoccurs => hnone m ?_ hoccurs⟩
        have hle := hoccurs.le
        rw [bytes_length, bytes_length] at hle
        omega

end Searches

section Ends
variable {s needle : Str}

/-- The loop that ends at the first difference. -/
theorem equalLoop_eq (hs : Short s) {start turns i : ℕ} (hturns : i + turns = needle.length)
    (hin : start + needle.length ≤ s.length) :
    equalLoop s needle start turns i =
      .ok (decide ((s.bytes.drop (start + i)).take turns = needle.bytes.drop i)) := by
  induction turns generalizing i with
  | zero =>
    have hnil : needle.bytes.drop i = [] := by
      apply List.drop_of_length_le
      rw [bytes_length]
      omega
    simp [equalLoop, hnil]
  | succ turns ih =>
    have hi : i < needle.length := by omega
    have hat : start + i < s.length := by omega
    have hindex : wrap32 ((start : ℤ) + i) = ((start + i : ℕ) : ℤ) := by
      rw [wrap32_eq (by omega) (by omega), Int.natCast_add]
    have hnext := ih (i := i + 1) (by omega)
    rw [Int.natCast_succ] at hnext
    rw [equalLoop, hindex, bind_ok (byteAt_nat hat), bind_ok (byteAt_nat hi), hnext,
      drop_eq_cons hat, drop_eq_cons hi, List.take_succ_cons]
    by_cases hsame : getElem s.bytes (start + i) hat = getElem needle.bytes i hi
    · simp [hsame, Nat.add_assoc]
    · simp [hsame]

theorem equalLoop_occursAt (hs : Short s) (hneedle : Short needle) {start : ℕ}
    (hin : start + needle.length ≤ s.length) :
    equalLoop s needle start needle.len.toNat 0 =
      .ok (decide (OccursAt s.bytes needle.bytes start)) := by
  have hturns : needle.len.toNat = needle.length := by
    rw [len_eq hneedle]
    exact Int.toNat_natCast _
  have hoccurs : OccursAt s.bytes needle.bytes start ↔
      (s.bytes.drop start).take needle.length = needle.bytes :=
    ⟨fun h => h.2, fun h => ⟨hin, h⟩⟩
  have hloop := equalLoop_eq hs (i := 0) (Nat.zero_add needle.length) hin
  rw [hturns]
  refine hloop.trans ?_
  simp [hoccurs]

theorem startsWith_correct (hs : Short s) (hneedle : Short needle) :
    (SearchCall.startsWith s needle).Correct := by
  have hslen := len_eq hs
  have hnlen := len_eq hneedle
  change ∃ r, startsWith s needle = .ok r ∧ _
  rw [startsWith]
  by_cases hlong : needle.len > s.len
  · rw [if_pos hlong]
    refine ⟨false, rfl, iff_of_false Bool.false_ne_true (not_occursAt_of_lt ?_)⟩
    rw [bytes_length, bytes_length]
    omega
  · have hin : 0 + needle.length ≤ s.length := by omega
    rw [if_neg hlong]
    exact ⟨_, equalLoop_occursAt hs hneedle hin, decide_eq_true_iff⟩

theorem endsWith_correct (hs : Short s) (hneedle : Short needle) :
    (SearchCall.endsWith s needle).Correct := by
  have hslen := len_eq hs
  have hnlen := len_eq hneedle
  change ∃ r, endsWith s needle = .ok r ∧ _
  rw [endsWith]
  by_cases hlong : needle.len > s.len
  · rw [if_pos hlong]
    exact ⟨false, rfl, iff_of_false Bool.false_ne_true fun h => absurd h.1 (by omega)⟩
  · have hle : needle.length ≤ s.length := by omega
    have hstart : wrap32 (s.len - needle.len) = ((s.length - needle.length : ℕ) : ℤ) := by
      rw [wrap32_eq (by omega) (by omega)]
      omega
    rw [if_neg hlong, hstart]
    refine ⟨_, equalLoop_occursAt hs hneedle (by omega), ?_⟩
    rw [decide_eq_true_eq]
    exact ⟨fun h => ⟨hle, h⟩, fun h => h.2⟩

theorem occursAt_zero {t needle : Bytes} : OccursAt t needle 0 ↔ needle <+: t := by
  constructor
  · intro h
    have hsplit := occursAt_split h
    rw [List.drop_zero] at hsplit
    exact ⟨_, hsplit.symm⟩
  · rintro ⟨r, rfl⟩
    simp [OccursAt]

theorem occursAt_end {t needle : Bytes} (hle : needle.length ≤ t.length) :
    OccursAt t needle (t.length - needle.length) ↔ needle <:+ t := by
  constructor
  · intro h
    have hsplit := occursAt_split h
    have hrest : t.drop (t.length - needle.length + needle.length) = [] := by
      rw [Nat.sub_add_cancel hle, List.drop_length]
    rw [hrest, List.append_nil] at hsplit
    rw [← hsplit]
    exact List.drop_suffix _ t
  · rintro ⟨r, rfl⟩
    simp [OccursAt]

theorem trimPrefix_correct (hs : Short s) (hneedle : Short needle) :
    (SearchCall.trimPrefix s needle).Correct := by
  obtain ⟨r, heq, hr⟩ := startsWith_correct hs hneedle
  rw [occursAt_zero] at hr
  change ∃ r, trimPrefix s needle = .ok r ∧ _
  rw [trimPrefix, bind_ok heq]
  cases r with
  | false =>
    simp only [Bool.false_eq_true, if_false]
    exact ⟨_, rfl, Or.inr ⟨fun h => absurd (hr.mpr h) Bool.false_ne_true, rfl⟩⟩
  | true =>
    obtain ⟨rest, hrest⟩ := hr.mp rfl
    have hlength : needle.length + rest.length = s.length := by
      rw [← bytes_length, ← bytes_length s, ← hrest, List.length_append]
    simp only [if_true]
    rw [len_eq hs, len_eq hneedle, strSlice_nat (by omega) (Nat.le_refl _) hs]
    refine ⟨_, rfl, Or.inl ?_⟩
    have hdrop : s.bytes.drop needle.length = rest := by
      rw [← hrest]
      exact List.drop_left
    rw [hdrop, List.take_of_length_le (by omega), hrest]

theorem trimSuffix_correct (hs : Short s) (hneedle : Short needle) :
    (SearchCall.trimSuffix s needle).Correct := by
  obtain ⟨r, heq, hr⟩ := endsWith_correct hs hneedle
  change ∃ r, trimSuffix s needle = .ok r ∧ _
  rw [trimSuffix, bind_ok heq]
  cases r with
  | false =>
    simp only [Bool.false_eq_true, if_false]
    refine ⟨_, rfl, Or.inr ⟨fun h => absurd (hr.mpr ?_) Bool.false_ne_true, rfl⟩⟩
    have hle : needle.length ≤ s.length := h.length_le
    exact ⟨hle, (occursAt_end hle).mpr h⟩
  | true =>
    obtain ⟨hle, hoccurs⟩ := hr.mp rfl
    obtain ⟨rest, hrest⟩ := (occursAt_end (t := s.bytes) hle).mp hoccurs
    have hlength : rest.length + needle.length = s.length := by
      rw [← bytes_length, ← bytes_length s, ← hrest, List.length_append]
    have hstop : wrap32 (s.len - needle.len) = ((rest.length : ℕ) : ℤ) := by
      have hslen := len_eq hs
      have hnlen := len_eq hneedle
      rw [wrap32_eq (by omega) (by omega)]
      omega
    simp only [if_true]
    rw [hstop]
    refine ⟨_, strSlice_nat (a := 0) (Nat.zero_le _) (by omega) hs, Or.inl ?_⟩
    rw [← hrest, List.drop_zero, Nat.sub_zero, List.take_left]

end Ends

section Spaces
variable {s : Str}

/-- The first loop goes over the spaces at the start. At the end it reads the NUL. -/
theorem trimStart_eq (hs : Short s) (hpos : 0 < s.length) {start : ℕ} (hle : start ≤ s.length) :
    ∃ k, start ≤ k ∧ k ≤ s.length ∧
      (∀ fuel, s.length - start + 1 ≤ fuel → trimStart s s.len fuel start = .ok k) ∧
      (∀ (j : ℕ) (hj : j < s.length), start ≤ j → j < k →
        isSpaceByte (getElem s.bytes j hj) = true) ∧
      (∀ hk : k < s.length, isSpaceByte (getElem s.bytes k hk) = false) := by
  have hlen := len_eq hs
  induction hleft : s.length - start generalizing start with
  | zero =>
    obtain rfl : start = s.length := by omega
    refine ⟨s.length, Nat.le_refl _, Nat.le_refl _, fun fuel hfuel => ?_,
      fun j hj hlow _ => absurd hj (by omega), fun hk => absurd hk (Nat.lt_irrefl _)⟩
    obtain ⟨fuel, rfl⟩ : ∃ n, fuel = n + 1 := ⟨fuel - 1, by omega⟩
    rw [trimStart, bind_ok (byteAt_end hpos), if_neg (by omega)]
  | succ left ih =>
    have hin : start < s.length := by omega
    have hturn : ∀ fuel, trimStart s s.len (fuel + 1) start =
        if isSpaceByte (getElem s.bytes start hin) = true then
          trimStart s s.len fuel ((start + 1 : ℕ) : ℤ)
        else .ok (start : ℤ) := by
      intro fuel
      have hbelow : (start : ℤ) < s.len := by omega
      have hnext : wrap32 ((start : ℤ) + 1) = ((start + 1 : ℕ) : ℤ) := by
        rw [wrap32_eq (by omega) (by omega), Int.natCast_succ]
      rw [trimStart, bind_ok (byteAt_nat hin), hnext]
      simp only [hbelow, true_and]
    by_cases hspace : isSpaceByte (getElem s.bytes start hin) = true
    · obtain ⟨k, hlow, hhigh, hloop, hspaces, hstop⟩ :=
        ih (show start + 1 ≤ s.length by omega) (by omega)
      refine ⟨k, by omega, hhigh, fun fuel hfuel => ?_, fun j hj hstart hjk => ?_, hstop⟩
      · obtain ⟨fuel, rfl⟩ : ∃ n, fuel = n + 1 := ⟨fuel - 1, by omega⟩
        rw [hturn, if_pos hspace]
        exact hloop fuel (by omega)
      · rcases Nat.eq_or_lt_of_le hstart with rfl | hlater
        · exact hspace
        · exact hspaces j hj hlater hjk
    · refine ⟨start, Nat.le_refl _, hle, fun fuel hfuel => ?_,
        fun j hj hlow hhigh => absurd hhigh (by omega), fun _ => eq_false_of_ne_true hspace⟩
      obtain ⟨fuel, rfl⟩ : ∃ n, fuel = n + 1 := ⟨fuel - 1, by omega⟩
      rw [hturn, if_neg hspace]

/-- The second loop goes back over the spaces at the end. It does not come to the first byte of a
string that begins with another byte. -/
theorem trimEnd_eq (hs : Short s) {start stop : ℕ} (hpos : 0 < stop) (hstart : start ≤ stop)
    (hle : stop ≤ s.length)
    (hfirst : start = 0 → ∀ h : 0 < s.length, isSpaceByte (getElem s.bytes 0 h) = false) :
    ∃ k, start ≤ k ∧ k ≤ stop ∧
      (∀ fuel, stop - start + 1 ≤ fuel → trimEnd s start fuel stop = .ok k) ∧
      (∀ (j : ℕ) (hj : j < s.length), k ≤ j → j < stop →
        isSpaceByte (getElem s.bytes j hj) = true) ∧
      (start < k → ∃ hk : k - 1 < s.length, isSpaceByte (getElem s.bytes (k - 1) hk) = false) := by
  induction hleft : stop - start generalizing stop with
  | zero =>
    obtain rfl : start = stop := by omega
    refine ⟨start, Nat.le_refl _, Nat.le_refl _, fun fuel hfuel => ?_,
      fun j hj hlow hhigh => absurd hhigh (by omega), fun h => absurd h (Nat.lt_irrefl _)⟩
    obtain ⟨fuel, rfl⟩ : ∃ n, fuel = n + 1 := ⟨fuel - 1, by omega⟩
    have hback : wrap32 ((start : ℤ) - 1) = ((start - 1 : ℕ) : ℤ) := by
      rw [wrap32_eq (by omega) (by omega)]
      omega
    have hin : start - 1 < s.length := by omega
    rw [trimEnd, hback, bind_ok (byteAt_nat hin), if_neg (by omega)]
  | succ left ih =>
    have hin : stop - 1 < s.length := by omega
    have hturn : ∀ fuel, trimEnd s start (fuel + 1) stop =
        if isSpaceByte (getElem s.bytes (stop - 1) hin) = true then
          trimEnd s start fuel ((stop - 1 : ℕ) : ℤ)
        else .ok (stop : ℤ) := by
      intro fuel
      have habove : (stop : ℤ) > start := by omega
      have hback : wrap32 ((stop : ℤ) - 1) = ((stop - 1 : ℕ) : ℤ) := by
        rw [wrap32_eq (by omega) (by omega)]
        omega
      rw [trimEnd, hback, bind_ok (byteAt_nat hin)]
      simp only [habove, true_and]
    by_cases hspace : isSpaceByte (getElem s.bytes (stop - 1) hin) = true
    · have hmore : 0 < stop - 1 := by
        by_contra hnone
        obtain rfl : stop = 1 := by omega
        have hother := hfirst (by omega) (by omega)
        rw [hother] at hspace
        cases hspace
      obtain ⟨k, hlow, hhigh, hloop, hspaces, hlast⟩ :=
        ih hmore (by omega) (by omega) (by omega)
      refine ⟨k, hlow, by omega, fun fuel hfuel => ?_, fun j hj hkj hjstop => ?_, hlast⟩
      · obtain ⟨fuel, rfl⟩ : ∃ n, fuel = n + 1 := ⟨fuel - 1, by omega⟩
        rw [hturn, if_pos hspace]
        exact hloop fuel (by omega)
      · rcases Nat.lt_or_ge j (stop - 1) with hbefore | hlater
        · exact hspaces j hj hkj hbefore
        · obtain rfl : j = stop - 1 := by omega
          exact hspace
    · refine ⟨stop, hstart, Nat.le_refl _, fun fuel hfuel => ?_,
        fun j hj hlow hhigh => absurd hhigh (by omega), fun _ => ⟨hin, eq_false_of_ne_true hspace⟩⟩
      obtain ⟨fuel, rfl⟩ : ∃ n, fuel = n + 1 := ⟨fuel - 1, by omega⟩
      rw [hturn, if_neg hspace]

theorem mem_take_drop {t : Bytes} {a b : ℕ} {c : UInt8} (h : c ∈ (t.drop a).take (b - a)) :
    ∃ (j : ℕ) (hj : j < t.length), a ≤ j ∧ j < b ∧ t[j] = c := by
  obtain ⟨i, hi, heq⟩ := List.getElem_of_mem h
  rw [List.length_take, List.length_drop] at hi
  rw [List.getElem_take, List.getElem_drop] at heq
  exact ⟨a + i, by omega, by omega, by omega, heq⟩

theorem split_slice {t : Bytes} {a b : ℕ} (hab : a ≤ b) :
    t = t.take a ++ (t.drop a).take (b - a) ++ t.drop b := by
  have hrest : t.drop b = (t.drop a).drop (b - a) := by
    rw [List.drop_drop]
    congr 1
    omega
  rw [List.append_assoc, hrest, List.take_append_drop, List.take_append_drop]

theorem trimmed_slice {a b : ℕ} (hab : a ≤ b) (hb : b ≤ s.length)
    (hfront : ∀ (j : ℕ) (hj : j < s.length), 0 ≤ j → j < a →
      isSpaceByte (getElem s.bytes j hj) = true)
    (hback : ∀ (j : ℕ) (hj : j < s.length), b ≤ j → j < s.length →
      isSpaceByte (getElem s.bytes j hj) = true)
    (hfirst : ∀ ha : a < s.length, isSpaceByte (getElem s.bytes a ha) = false)
    (hlast : a < b → ∃ hb : b - 1 < s.length, isSpaceByte (getElem s.bytes (b - 1) hb) = false) :
    Trimmed s.bytes ((s.bytes.drop a).take (b - a)) where
  split := by
    refine ⟨s.bytes.take a, s.bytes.drop b, split_slice hab, fun c hc => ?_⟩
    rcases List.mem_append.mp hc with hc | hc
    · obtain ⟨j, hj, heq⟩ := List.getElem_of_mem hc
      rw [List.length_take] at hj
      rw [List.getElem_take] at heq
      rw [← heq]
      exact hfront j (by rw [← bytes_length]; omega) (Nat.zero_le j) (by omega)
    · obtain ⟨j, hj, heq⟩ := List.getElem_of_mem hc
      rw [List.length_drop, bytes_length] at hj
      rw [List.getElem_drop] at heq
      rw [← heq]
      exact hback (b + j) (by omega) (by omega) (by omega)
  first := by
    intro c hc
    rw [List.head?_take, List.head?_drop] at hc
    split at hc
    · cases hc
    · obtain ⟨ha, heq⟩ := List.getElem?_eq_some_iff.mp hc
      rw [← heq]
      exact hfirst ha
  last := by
    intro c hc
    rw [List.getLast?_eq_getElem?, List.length_take, List.length_drop, bytes_length] at hc
    by_cases hlt : a < b
    · obtain ⟨hin, hspace⟩ := hlast hlt
      have hcount : min (b - a) (s.length - a) - 1 = b - 1 - a := by omega
      rw [hcount, List.getElem?_take_of_lt (by omega), List.getElem?_drop] at hc
      obtain ⟨hat, heq⟩ := List.getElem?_eq_some_iff.mp hc
      have hindex : a + (b - 1 - a) = b - 1 := by omega
      rw [← heq]
      simp only [hindex]
      exact hspace
    · have hnone : b - a = 0 := by omega
      rw [hnone] at hc
      cases hc

theorem trimSpace_correct (hs : Short s) (hpos : 0 < s.length) :
    (SearchCall.trimSpace s).Correct := by
  obtain ⟨start, -, hstart, hfront, hspaces, hfirst⟩ :=
    trimStart_eq hs hpos (Nat.zero_le s.length)
  have hstop : start = 0 → ∀ h : 0 < s.length, isSpaceByte (getElem s.bytes 0 h) = false := by
    rintro rfl h
    exact hfirst h
  obtain ⟨stop, hlow, hhigh, hback, hspaces', hlast⟩ :=
    trimEnd_eq hs hpos hstart (Nat.le_refl _) hstop
  refine ⟨_, ⟨s.length + 1, fun fuel hfuel => ?_⟩,
    trimmed_slice hlow hhigh hspaces hspaces' hfirst hlast⟩
  have hfirstLoop : trimStart s s.len fuel 0 = .ok (start : ℤ) := hfront fuel (by omega)
  rw [trimSpace, bind_ok hfirstLoop, len_eq hs, bind_ok (hback fuel (by omega))]
  exact strSlice_nat hlow hhigh hs

end Spaces

section Calls

/-- Every search gives what it says, but `trim_space` of an empty string: before it sees that
nothing is left, it has read the byte in front. -/
theorem searches_correct (c : SearchCall) (h : c.Fits) : c.Correct ↔ c.Condition := by
  cases c with
  | index s needle => exact iff_of_true (index_correct h.1 h.2) trivial
  | contains s needle => exact iff_of_true (contains_correct h.1 h.2) trivial
  | startsWith s needle => exact iff_of_true (startsWith_correct h.1 h.2) trivial
  | endsWith s needle => exact iff_of_true (endsWith_correct h.1 h.2) trivial
  | lastIndex s needle => exact iff_of_true (lastIndex_correct h.1 h.2) trivial
  | trimPrefix s needle => exact iff_of_true (trimPrefix_correct h.1 h.2) trivial
  | trimSuffix s needle => exact iff_of_true (trimSuffix_correct h.1 h.2) trivial
  | trimSpace s =>
    have hlen := len_eq (s := s) h
    constructor
    · rintro ⟨r, ⟨n, hreturns⟩, -⟩ hempty
      have hfault := hreturns (n + 1) (Nat.le_succ n)
      rw [trimSpace_faulty (by omega) (by omega)] at hfault
      cases hfault
    · intro hne
      exact trimSpace_correct h (Nat.pos_of_ne_zero hne)

/-- The searches of `"ab"` in `"abab"`, and `trim_space` of a space. -/
theorem searches_correct_abab :
    (SearchCall.index (.buffer [97, 98, 97, 98]) (.buffer [97, 98])).Correct ∧
      (SearchCall.trimSpace (.buffer [32])).Correct := by
  have hindex : (SearchCall.index (.buffer [97, 98, 97, 98]) (.buffer [97, 98])).Fits := by
    constructor <;> decide
  have htrim : (SearchCall.trimSpace (.buffer [32])).Fits := by
    change (1 : ℕ) < 2147483648
    decide
  exact ⟨(searches_correct _ hindex).mpr trivial, (searches_correct _ htrim).mpr Nat.one_ne_zero⟩

/-- The zero value of `str`. -/
theorem trimSpace_null : ¬ ∀ c : SearchCall, c.Fits → c.Correct := by
  intro h
  have hfits : (SearchCall.trimSpace .null).Fits := by
    change (0 : ℕ) < 2147483648
    decide
  obtain ⟨r, ⟨n, hreturns⟩, -⟩ := h _ hfits
  have hfault := hreturns (n + 1) (Nat.le_succ n)
  rw [trimSpace_faulty (by decide) (by decide)] at hfault
  cases hfault

end Calls

end NewClLang.StringSearch
