import NewClLang.StringRoutines

set_option autoImplicit false

/-!
# The reads of the strings module

The loops that compare two strings stay inside both of them. `trim_space` reads the byte at its index
before it is known whether the index is between the ends: at the end of the string that is the NUL,
and of an empty string it is the byte in front.
-/
namespace NewClLang.StringBounds
open WrappedIntegers ExceptOutcomes StringRoutines
open JsonModule (Bytes Stop failed)

section Memory
variable {s needle : Str} {i : ℤ}

def Harmless (e : Stop) : Prop := e ≠ .outOfBounds

theorem failed_ends {α : Type} {Q : α → Prop} : Ends Harmless Q (failed : Except Stop α) :=
  .error (by simp [Harmless])

theorem err_ends {α : Type} {Q : α → Prop} (message : String) :
    Ends Harmless Q (.error (.err message) : Except Stop α) := .error (by simp [Harmless])

theorem unfinished_ends {α : Type} {Q : α → Prop} :
    Ends Harmless Q (.error .unfinished : Except Stop α) := .error (by simp [Harmless])

theorem length_le_memory (s : Str) : s.length ≤ s.memory.length := by
  cases s with
  | null => exact Nat.le_refl _
  | buffer bytes => simp [Str.length, Str.bytes, Str.memory]

theorem length_lt_memory (h : 0 < s.length) : s.length < s.memory.length := by
  cases s with
  | null => cases h
  | buffer bytes => simp [Str.length, Str.bytes, Str.memory]

theorem len_low (s : Str) : -2147483648 ≤ s.len := (wrap32_fits _).1

theorem len_high (s : Str) : s.len < 2147483648 := (wrap32_fits _).2

theorem len_le_length (s : Str) : s.len ≤ s.length := wrap32_le (Int.natCast_nonneg _)

theorem wrap32_eq {z : ℤ} (hlow : -2147483648 ≤ z) (hhigh : z < 2147483648) : wrap32 z = z :=
  wrap32_of_fits ⟨hlow, hhigh⟩

theorem len_nonneg (h : s.length < 2147483648) : 0 ≤ s.len := by
  have hlen : s.len = s.length := wrap32_eq (by omega) (by omega)
  omega

/-- A length that is read as negative is one of `2 ^ 31` at least. -/
theorem length_of_negative (h : s.len < 0) : 2147483648 ≤ s.length := by
  have hlen : wrap32 (s.length : ℤ) < 0 := h
  unfold wrap32 at hlen
  split at hlen <;> omega

theorem byteAt_ends (hlow : 0 ≤ i) (hhigh : i < s.memory.length) :
    Ends Harmless (fun b => byteAt s i = .ok b) (byteAt s i) := by
  have hin : i.toNat < s.memory.length := by omega
  have hread : byteAt s i = .ok s.memory[i.toNat] := by
    rw [byteAt, if_pos hlow, List.getElem?_eq_getElem hin]
  rw [hread]
  exact .ok rfl

theorem byteAt_negative (h : i < 0) : byteAt s i = .error .outOfBounds := by
  rw [byteAt, if_neg (by omega)]

theorem byteAt_cases (s : Str) (i : ℤ) :
    (∃ b, byteAt s i = .ok b) ∨ byteAt s i = .error .outOfBounds := by
  rw [byteAt]
  by_cases hlow : 0 ≤ i
  · rw [if_pos hlow]
    cases s.memory[i.toNat]? with
    | some b => exact Or.inl ⟨b, rfl⟩
    | none => exact Or.inr rfl
  · rw [if_neg hlow]
    exact Or.inr rfl

/-- Below `len` every string may be read. -/
theorem byteAt_below (hlow : 0 ≤ i) (hhigh : i < s.len) :
    Ends Harmless (fun b => byteAt s i = .ok b) (byteAt s i) := by
  have hlen := len_le_length s
  have hmemory := length_le_memory s
  exact byteAt_ends hlow (by omega)

theorem strSlice_ends {a b : ℤ} (ha : 0 ≤ a) (hab : a ≤ b) (hb : b ≤ s.len) :
    Ends Harmless (fun _ => True) (strSlice s a b) := by
  have hlen := len_le_length s
  have hhigh := len_high s
  have hmemory := length_le_memory s
  rw [strSlice, if_pos (Or.inr (by omega))]
  exact .ok trivial

/-- Where a byte may be read although the index has reached `len`. The cursor has not gone back
    behind `low`. -/
structure UpTo (s : Str) (low i : ℤ) : Prop where
  nonneg : 0 ≤ i
  above : low ≤ i
  top : i ≤ max s.len 1

theorem UpTo.read {low : ℤ} (h : UpTo s low i) (hs : s.len ≠ 0) :
    Ends Harmless (fun b => byteAt s i = .ok b) (byteAt s i) := by
  obtain ⟨hlow, -, hhigh⟩ := h
  have hlen := len_le_length s
  by_cases hnegative : s.len < 0
  · have hlong := length_of_negative hnegative
    have hmemory := length_le_memory s
    exact byteAt_ends hlow (by omega)
  · have hmemory := length_lt_memory (s := s) (by omega)
    exact byteAt_ends hlow (by omega)

theorem UpTo.next {low : ℤ} (h : UpTo s low i) (hbelow : i < s.len) :
    UpTo s low (wrap32 (i + 1)) := by
  obtain ⟨hlow, habove, -⟩ := h
  have hhigh := len_high s
  rw [wrap32_eq (by omega) (by omega)]
  exact ⟨by omega, by omega, by omega⟩

end Memory

section Searches
variable {s needle : Str}

theorem matchLoop_ends {i j : ℤ} {turns : ℕ} (hi : 0 < turns → 0 ≤ i ∧ i + needle.len ≤ s.len)
    (hj : 0 ≤ j) (hturns : 0 < turns → j + turns ≤ needle.len) (matched : Bool) :
    Ends Harmless (fun _ => True) (matchLoop s needle i turns j matched) := by
  induction turns generalizing j matched with
  | zero => exact .ok trivial
  | succ turns ih =>
    obtain ⟨hlow, hroom⟩ := hi (Nat.succ_pos turns)
    have hleft := hturns (Nat.succ_pos turns)
    have hhigh := len_high s
    push_cast at hleft
    rw [matchLoop, wrap32_eq (by omega) (by omega)]
    refine (byteAt_below (by omega) (by omega)).bind fun a _ => ?_
    refine (byteAt_below hj (by omega)).bind fun b _ => ?_
    exact ih (fun _ => ⟨hlow, hroom⟩) (by omega) (fun _ => by omega) _

theorem matchesAt_ends {i : ℤ} (h : 0 < needle.len → 0 ≤ i ∧ i + needle.len ≤ s.len) :
    Ends Harmless (fun _ => True) (matchesAt s needle i) := by
  refine matchLoop_ends (fun hturns => h (by omega)) (Int.le_refl 0) (fun hturns => ?_) true
  omega

theorem indexLoop_ends {i : ℤ} {turns : ℕ}
    (h : 0 < needle.len → 0 ≤ i ∧ i + turns + needle.len ≤ s.len + 1) :
    Ends Harmless (fun _ => True) (indexLoop s needle turns i) := by
  induction turns generalizing i with
  | zero => exact .ok trivial
  | succ turns ih =>
    push_cast at h
    rw [indexLoop]
    refine (matchesAt_ends fun hn => ?_).bind fun matched _ => ?_
    · have hroom := h hn
      omega
    · cases matched with
      | true => exact .ok trivial
      | false =>
        refine ih fun hn => ?_
        have hroom := h hn
        omega

theorem index_ends (s needle : Str) : Ends Harmless (fun _ => True) (index s needle) := by
  rw [index]
  by_cases hempty : needle.len = 0
  · rw [if_pos hempty]
    exact .ok trivial
  · rw [if_neg hempty]
    by_cases hlonger : needle.len > s.len
    · rw [if_pos hlonger]
      exact .ok trivial
    · rw [if_neg hlonger]
      refine indexLoop_ends fun hn => ?_
      have hhigh := len_high s
      rw [wrap32_eq (z := s.len - needle.len) (by omega) (by omega),
        wrap32_eq (by omega) (by omega)]
      omega

theorem contains_ends (s needle : Str) : Ends Harmless (fun _ => True) (contains s needle) :=
  (index_ends s needle).bind fun _ _ => .ok trivial

theorem equalLoop_ends {start i : ℤ} {turns : ℕ}
    (hstart : 0 < turns → 0 ≤ start ∧ start + needle.len ≤ s.len) (hi : 0 ≤ i)
    (hturns : 0 < turns → i + turns ≤ needle.len) :
    Ends Harmless (fun _ => True) (equalLoop s needle start turns i) := by
  induction turns generalizing i with
  | zero => exact .ok trivial
  | succ turns ih =>
    obtain ⟨hlow, hroom⟩ := hstart (Nat.succ_pos turns)
    have hleft := hturns (Nat.succ_pos turns)
    have hhigh := len_high s
    push_cast at hleft
    rw [equalLoop, wrap32_eq (by omega) (by omega)]
    refine (byteAt_below (by omega) (by omega)).bind fun a _ => ?_
    refine (byteAt_below hi (by omega)).bind fun b _ => ?_
    by_cases hne : a ≠ b
    · rw [if_pos hne]
      exact .ok trivial
    · rw [if_neg hne]
      exact ih (fun _ => ⟨hlow, hroom⟩) (by omega) (fun _ => by omega)

/-- Where it answers yes, the prefix is no longer than the string. -/
theorem startsWith_ends (s pre : Str) :
    Ends Harmless (fun starts => starts = true → pre.len ≤ s.len) (startsWith s pre) := by
  rw [startsWith]
  by_cases hlonger : pre.len > s.len
  · rw [if_pos hlonger]
    exact .ok fun h => by cases h
  · rw [if_neg hlonger]
    refine (equalLoop_ends (fun hturns => ?_) (Int.le_refl 0) fun hturns => ?_).mono
      fun _ _ _ => by omega
    · omega
    · omega

theorem endsWith_ends (s suffix : Str) :
    Ends Harmless (fun ends => ends = true → suffix.len ≤ s.len) (endsWith s suffix) := by
  rw [endsWith]
  by_cases hlonger : suffix.len > s.len
  · rw [if_pos hlonger]
    exact .ok fun h => by cases h
  · rw [if_neg hlonger]
    have hhigh := len_high s
    refine (equalLoop_ends (fun hturns => ?_) (Int.le_refl 0) fun hturns => ?_).mono
      fun _ _ _ => by omega
    · rw [wrap32_eq (by omega) (by omega)]
      omega
    · omega

theorem lastIndexLoop_ends {fuel : ℕ} {i : ℤ} (h : 0 < needle.len → i + needle.len ≤ s.len) :
    Ends Harmless (fun _ => True) (lastIndexLoop s needle fuel i) := by
  induction fuel generalizing i with
  | zero => exact unfinished_ends
  | succ fuel ih =>
    rw [lastIndexLoop]
    by_cases hi : i ≥ 0
    · rw [if_pos hi]
      refine (matchesAt_ends fun hn => ⟨hi, h hn⟩).bind fun matched _ => ?_
      cases matched with
      | true => exact .ok trivial
      | false =>
        refine ih fun hn => ?_
        have hroom := h hn
        have hhigh := len_high s
        rw [wrap32_eq (by omega) (by omega)]
        omega
    · rw [if_neg hi]
      exact .ok trivial

theorem lastIndex_ends (s needle : Str) (fuel : ℕ) :
    Ends Harmless (fun _ => True) (lastIndex s needle fuel) := by
  rw [lastIndex]
  by_cases hempty : needle.len = 0
  · rw [if_pos hempty]
    exact .ok trivial
  · rw [if_neg hempty]
    by_cases hlonger : needle.len > s.len
    · rw [if_pos hlonger]
      exact .ok trivial
    · rw [if_neg hlonger]
      refine lastIndexLoop_ends fun hn => ?_
      have hhigh := len_high s
      rw [wrap32_eq (by omega) (by omega)]
      omega

theorem countLoop_ends {fuel : ℕ} {n i : ℤ} (hs : 0 ≤ s.len ∨ needle.len ≤ 0)
    (hi : 0 < needle.len → 0 ≤ i) : Ends Harmless (fun _ => True) (countLoop s needle fuel n i) := by
  induction fuel generalizing n i with
  | zero => exact unfinished_ends
  | succ fuel ih =>
    have hhigh := len_high s
    have hneedle := len_high needle
    have hbound : 0 < needle.len → wrap32 (s.len - needle.len) = s.len - needle.len := by
      intro hn
      exact wrap32_eq (by omega) (by omega)
    rw [countLoop]
    by_cases hin : i ≤ wrap32 (s.len - needle.len)
    · rw [if_pos hin]
      refine (matchesAt_ends fun hn => ?_).bind fun matched _ => ?_
      · rw [hbound hn] at hin
        exact ⟨hi hn, by omega⟩
      · -- The next position is at most the length, so that it does not wrap.
        have hnext (m step : ℤ) (hstep : 0 < needle.len → 0 ≤ step ∧ step ≤ needle.len) :
            Ends Harmless (fun _ => True) (countLoop s needle fuel m (wrap32 (i + step))) := by
          apply ih
          intro hn
          have hlow := hi hn
          obtain ⟨hpos, hle⟩ := hstep hn
          rw [hbound hn] at hin
          rw [wrap32_eq (by omega) (by omega)]
          omega
        cases matched with
        | true => exact hnext _ needle.len fun hn => ⟨Int.le_of_lt hn, Int.le_refl _⟩
        | false => exact hnext _ 1 fun hn => ⟨by decide, hn⟩
    · rw [if_neg hin]
      exact .ok trivial

theorem count_ends (fuel : ℕ) (h : 0 ≤ s.len ∨ needle.len ≤ 0) :
    Ends Harmless (fun _ => True) (count s needle fuel) := by
  rw [count]
  by_cases hempty : needle.len = 0
  · rw [if_pos hempty]
    exact .ok trivial
  · rw [if_neg hempty]
    exact countLoop_ends h fun _ => Int.le_refl 0

theorem replaceLoop_ends {old repl : Str} {fuel : ℕ} {out : Bytes} {i : ℤ} (hold : 0 < old.len)
    (hroom : s.len + old.len ≤ 2147483648) (hi : 0 ≤ i) :
    Ends Harmless (fun _ => True) (replaceLoop s old repl fuel out i) := by
  induction fuel generalizing out i with
  | zero => exact unfinished_ends
  | succ fuel ih =>
    have hhigh := len_high s
    rw [replaceLoop]
    by_cases hin : i < s.len
    · rw [if_pos hin, wrap32_eq (z := i + old.len) (by omega) (by omega),
        wrap32_eq (z := i + 1) (by omega) (by omega)]
      have hmatched : Ends Harmless (fun _ => True) (replaceAt s old i) := by
        rw [replaceAt, wrap32_eq (by omega) (by omega)]
        by_cases hfits : i + old.len ≤ s.len
        · rw [if_pos hfits]
          exact matchesAt_ends fun _ => ⟨hi, hfits⟩
        · rw [if_neg hfits]
          exact .ok trivial
      refine hmatched.bind fun matched _ => ?_
      cases matched with
      | true => exact ih (by omega)
      | false => exact (strSlice_ends hi (by omega) (by omega)).bind fun piece _ => ih (by omega)
    · rw [if_neg hin]
      exact .ok trivial

theorem replaceAll_ends {old : Str} (repl : Str) (fuel : ℕ)
    (h : s.len ≤ 0 ∨ 0 ≤ old.len ∧ s.len + old.len ≤ 2147483648) :
    Ends Harmless (fun _ => True) (replaceAll s old repl fuel) := by
  rw [replaceAll]
  by_cases hempty : old.len = 0
  · rw [if_pos hempty]
    exact err_ends _
  · rw [if_neg hempty]
    rcases h with hs | ⟨hold, hroom⟩
    · -- The loop is not entered.
      cases fuel with
      | zero => exact unfinished_ends
      | succ fuel =>
        rw [replaceLoop, if_neg (by omega)]
        exact .ok trivial
    · exact replaceLoop_ends (by omega) hroom (Int.le_refl 0)

end Searches

section Trimming
variable {s : Str}

theorem trimPrefix_ends {pre : Str} (h : 0 ≤ pre.len ∨ s.len < 0) :
    Ends Harmless (fun _ => True) (trimPrefix s pre) := by
  refine (startsWith_ends s pre).bind fun starts hstarts => ?_
  cases starts with
  | false => exact .ok trivial
  | true =>
    have hle := hstarts rfl
    by_cases hpre : 0 ≤ pre.len
    · exact strSlice_ends hpre hle (Int.le_refl _)
    · -- Both lengths are read as negative, and the slice goes by their unsigned values.
      have hs : s.len < 0 := h.resolve_left hpre
      have hmemory := length_le_memory s
      have hlow := len_low pre
      have hunsigned : s.len % 4294967296 ≤ s.length := by
        have hlen : s.len = wrap32 s.length := rfl
        unfold wrap32 at hlen
        split at hlen <;> omega
      change Ends Harmless (fun _ => True) (strSlice s pre.len s.len)
      rw [strSlice, if_pos (Or.inr (by omega))]
      exact .ok trivial

theorem trimSuffix_ends {suffix : Str} (h : 0 ≤ suffix.len ∨ s.len < 0) :
    Ends Harmless (fun _ => True) (trimSuffix s suffix) := by
  refine (endsWith_ends s suffix).bind fun ends hends => ?_
  cases ends with
  | false => exact .ok trivial
  | true =>
    have hle := hends rfl
    have hhigh := len_high s
    have hlow := len_low suffix
    change Ends Harmless (fun _ => True) (strSlice s 0 (wrap32 (s.len - suffix.len)))
    rw [wrap32_eq (by omega) (by omega)]
    by_cases hs : 0 ≤ s.len
    · exact strSlice_ends (Int.le_refl 0) (by omega) (by omega)
    · have hlong := length_of_negative (s := s) (by omega)
      have hmemory := length_le_memory s
      rw [strSlice, if_pos (Or.inr (by omega))]
      exact .ok trivial

/-- The loop from the front ends behind the string, or at a byte that is no space. -/
def Started (s : Str) (start : ℤ) : Prop :=
  0 ≤ start ∧ start ≤ s.len ∧
    (start < s.len → ∀ b, byteAt s start = .ok b → isSpaceByte b = false)

theorem trimStart_ends {fuel : ℕ} {start : ℤ} (hs : 0 < s.len) (hlow : 0 ≤ start)
    (hhigh : start ≤ s.len) : Ends Harmless (Started s) (trimStart s s.len fuel start) := by
  induction fuel generalizing start with
  | zero => exact unfinished_ends
  | succ fuel ih =>
    have hupto : UpTo s 0 start := ⟨hlow, hlow, by omega⟩
    have hbound := len_high s
    rw [trimStart]
    refine (hupto.read (by omega)).bind fun b hb => ?_
    by_cases hmore : start < s.len ∧ isSpaceByte b = true
    · rw [if_pos hmore, wrap32_eq (by omega) (by omega)]
      exact ih (by omega) (by omega)
    · rw [if_neg hmore]
      refine .ok ⟨hlow, hhigh, fun hlt b' hb' => ?_⟩
      rw [hb] at hb'
      cases hb'
      simpa using fun hspace => hmore ⟨hlt, hspace⟩

/-- The loop from behind does not come to a byte in front of one that is no space. -/
theorem trimEnd_ends {fuel : ℕ} {start stop : ℤ} (hs : 0 < s.len) (hstart : Started s start)
    (hlow : start ≤ stop) (hhigh : stop ≤ s.len) (hne : start < s.len → start < stop) :
    Ends Harmless (fun stop => start ≤ stop ∧ stop ≤ s.len) (trimEnd s start fuel stop) := by
  induction fuel generalizing stop with
  | zero => exact unfinished_ends
  | succ fuel ih =>
    obtain ⟨hfirst, hlast, hbyte⟩ := hstart
    have hbound := len_high s
    rw [trimEnd, wrap32_eq (by omega) (by omega)]
    refine (byteAt_below (by omega) (by omega)).bind fun b hb => ?_
    by_cases hmore : stop > start ∧ isSpaceByte b = true
    · rw [if_pos hmore]
      refine ih (by omega) (by omega) fun hlt => ?_
      have hother : stop - 1 ≠ start := by
        rintro heq
        rw [heq] at hb
        rw [hbyte hlt b hb] at hmore
        exact absurd hmore.2 (by decide)
      omega
    · rw [if_neg hmore]
      exact .ok ⟨hlow, hhigh⟩

theorem trimSpace_positive (fuel : ℕ) (hs : 0 < s.len) :
    Ends Harmless (fun _ => True) (trimSpace s fuel) := by
  refine (trimStart_ends hs (Int.le_refl 0) (by omega)).bind fun start hstart => ?_
  have hlow : start ≤ s.len := hstart.2.1
  refine (trimEnd_ends hs hstart hlow (Int.le_refl _) id).bind fun stop hstop => ?_
  exact strSlice_ends hstart.1 hstop.1 hstop.2

/-- Of a length that is read as `-2 ^ 31` the index from behind wraps to one inside. -/
theorem trimSpace_lowest (fuel : ℕ) (hs : s.len = -2147483648) :
    Ends Harmless (fun _ => True) (trimSpace s fuel) := by
  have hlong := length_of_negative (s := s) (by omega)
  have hmemory := length_le_memory s
  cases fuel with
  | zero => exact unfinished_ends
  | succ fuel =>
    have hstart : Ends Harmless (fun start => start = 0) (trimStart s s.len (fuel + 1) 0) := by
      rw [trimStart]
      refine (byteAt_ends (Int.le_refl 0) (by omega)).bind fun b _ => ?_
      rw [if_neg (by omega)]
      exact .ok rfl
    have hstop : Ends Harmless (fun stop => stop = s.len) (trimEnd s 0 (fuel + 1) s.len) := by
      have hwraps : wrap32 (s.len - 1) = 2147483647 := by
        rw [hs]
        rfl
      rw [trimEnd, hwraps]
      refine (byteAt_ends (by omega) (by omega)).bind fun b _ => ?_
      rw [if_neg (by omega)]
      exact .ok rfl
    refine hstart.bind fun start heq => ?_
    subst heq
    refine hstop.bind fun stop heq => ?_
    subst heq
    rw [strSlice, if_pos (Or.inr (by omega))]
    exact .ok trivial

/-- Of a length that is read as another number that is not positive, the first index from behind is
    negative. -/
theorem trimSpace_faulty (hlow : -2147483648 < s.len) (hs : s.len ≤ 0) (fuel : ℕ) :
    trimSpace s (fuel + 1) = .error .outOfBounds := by
  have hlast : trimEnd s 0 (fuel + 1) s.len = .error .outOfBounds := by
    rw [trimEnd, wrap32_eq (by omega) (by omega), byteAt_negative (by omega)]
    rfl
  rw [trimSpace, trimStart]
  rcases byteAt_cases s 0 with ⟨b, hb⟩ | hfault
  · rw [hb]
    have hstop : ¬ ((0 : ℤ) < s.len ∧ isSpaceByte b = true) := by omega
    change ((if (0 : ℤ) < s.len ∧ isSpaceByte b = true then trimStart s s.len fuel (wrap32 (0 + 1))
      else .ok 0) >>= fun start => _) = _
    rw [if_neg hstop]
    change ((trimEnd s 0 (fuel + 1) s.len) >>= fun stop => strSlice s 0 stop) = _
    rw [hlast]
    rfl
  · rw [hfault]
    rfl

theorem trimSpace_iff : (∀ fuel, trimSpace s fuel ≠ .error .outOfBounds) ↔
    0 < s.length % 4294967296 ∧ s.length % 4294967296 ≤ 2147483648 := by
  have hlen : s.len = wrap32 s.length := rfl
  have hlow := len_low s
  have hcount : 0 < s.length % 4294967296 ∧ s.length % 4294967296 ≤ 2147483648 ↔
      0 < s.len ∨ s.len = -2147483648 := by
    unfold wrap32 at hlen
    split at hlen <;> omega
  rw [hcount]
  constructor
  · intro hsafe
    by_contra hnot
    exact hsafe 1 (trimSpace_faulty (by omega) (by omega) 0)
  · rintro (hs | hs) fuel herr
    · exact (trimSpace_positive fuel hs).raised herr rfl
    · exact (trimSpace_lowest fuel hs).raised herr rfl

end Trimming

end NewClLang.StringBounds
