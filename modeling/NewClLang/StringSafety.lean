import NewClLang.StringBounds

set_option autoImplicit false

/-!
# The reads of the scanners

`parse_i32`, `_validate_float` and the scanner of the json module read the byte at the cursor before
they know whether it is below `len`. The cursor never passes `len`, behind which stands the NUL.
-/
namespace NewClLang.StringSafety
open WrappedIntegers ExceptOutcomes StringRoutines StringBounds
open JsonModule (Bytes Stop hexValue isDigit isDigit1_9 isSpace failed nullLit trueLit falseLit)

section Numbers
variable {s : Str} {low : ℤ}

theorem signAt_ends (hs : s.len ≠ 0) : Ends Harmless (fun r => UpTo s 0 r.2) (signAt s) := by
  have hzero : UpTo s 0 0 := ⟨Int.le_refl 0, Int.le_refl 0, by omega⟩
  have hone : UpTo s 0 1 := ⟨by omega, by omega, by omega⟩
  rw [signAt]
  refine (hzero.read hs).bind fun b _ => ?_
  by_cases hminus : b = 45
  · rw [if_pos hminus]
    exact .ok hone
  · rw [if_neg hminus]
    refine (hzero.read hs).bind fun b _ => .ok ?_
    by_cases hplus : b = 43
    · rw [if_pos hplus]
      exact hone
    · rw [if_neg hplus]
      exact hzero

theorem parseLoop_ends {limit value i : ℤ} {fuel : ℕ} (hi : UpTo s low i) :
    Ends Harmless (fun _ => True) (parseLoop s limit fuel value i) := by
  induction fuel generalizing value i with
  | zero => exact unfinished_ends
  | succ fuel ih =>
    rw [parseLoop]
    by_cases hin : i < s.len
    · rw [if_pos hin]
      refine (byteAt_below hi.1 hin).bind fun b _ => ?_
      by_cases hdigit : ¬ isDigitByte b = true
      · rw [if_pos hdigit]
        exact err_ends _
      · rw [if_neg hdigit]
        by_cases hlarge : value > (limit - (b.toNat - 48)) / 10
        · rw [if_pos hlarge]
          exact err_ends _
        · rw [if_neg hlarge]
          exact ih (hi.next hin)
    · rw [if_neg hin]
      exact .ok trivial

theorem parseI32_ends (s : Str) (fuel : ℕ) : Ends Harmless (fun _ => True) (parseI32 s fuel) := by
  rw [parseI32]
  by_cases hs : s.len = 0
  · rw [if_pos hs]
    exact err_ends _
  · rw [if_neg hs]
    refine (signAt_ends hs).bind fun r hr => ?_
    obtain ⟨neg, i⟩ := r
    by_cases hend : i = s.len
    · simp only [if_pos hend]
      exact err_ends _
    · simp only [if_neg hend]
      exact (parseLoop_ends hr).bind fun _ _ => .ok trivial

/-- The byte is read at the end of the string too; the test then fails. -/
theorem testAt_ends (hs : s.len ≠ 0) {i : ℤ} (hi : UpTo s low i) (test : UInt8 → Bool) :
    Ends Harmless (fun passes => passes = true → i < s.len) (testAt s test i) := by
  refine (hi.read hs).bind fun b _ => .ok ?_
  intro hpasses
  exact of_decide_eq_true (Bool.and_eq_true_iff.mp hpasses).1

theorem skipLoop_ends (hs : s.len ≠ 0) (test : UInt8 → Bool) {fuel : ℕ} {n i : ℤ}
    (hi : UpTo s low i) : Ends Harmless (fun r => UpTo s low r.2) (skipLoop s test fuel n i) := by
  induction fuel generalizing n i with
  | zero => exact unfinished_ends
  | succ fuel ih =>
    rw [skipLoop]
    refine (testAt_ends hs hi test).bind fun passes hpasses => ?_
    cases passes with
    | true => exact ih (hi.next (hpasses rfl))
    | false => exact .ok hi

/-- After a byte and a sign behind it, if there is one. -/
theorem signed_ends (hs : s.len ≠ 0) {i : ℤ} (hi : UpTo s low i) {β : Type} {Q : β → Prop}
    {next : ℤ → Except Stop β} (hnext : ∀ i, UpTo s low i → Ends Harmless Q (next i)) :
    Ends Harmless Q (do
      let signed ← testAt s (fun b => b == 45 || b == 43) i
      next (if signed then wrap32 (i + 1) else i)) := by
  refine (testAt_ends hs hi _).bind fun signed hsigned => hnext _ ?_
  cases signed with
  | true => exact hi.next (hsigned rfl)
  | false => exact hi

theorem validateFraction_ends (hs : s.len ≠ 0) (fuel : ℕ) (digits : ℤ) {i : ℤ} (hi : UpTo s low i) :
    Ends Harmless (fun r => UpTo s low r.2) (validateFraction s fuel digits i) := by
  refine (testAt_ends hs hi _).bind fun point hpoint => ?_
  cases point with
  | true => exact skipLoop_ends hs _ (hi.next (hpoint rfl))
  | false => exact .ok hi

theorem exponentDigits_ends (hs : s.len ≠ 0) (errMsg : String) (fuel : ℕ) {i : ℤ}
    (hi : UpTo s low i) : Ends Harmless (fun _ => True) (exponentDigits s errMsg fuel i) := by
  refine (skipLoop_ends hs isDigitByte hi).bind fun r _ => ?_
  by_cases hnone : r.1 = 0
  · simp only [if_pos hnone]
    exact err_ends _
  · simp only [if_neg hnone]
    exact .ok trivial

theorem validateExponent_ends (hs : s.len ≠ 0) (errMsg : String) (fuel : ℕ) {i : ℤ}
    (hi : UpTo s low i) : Ends Harmless (fun _ => True) (validateExponent s errMsg fuel i) := by
  refine (testAt_ends hs hi _).bind fun exponent hexponent => ?_
  cases exponent with
  | true =>
    exact signed_ends hs (hi.next (hexponent rfl)) fun i hi =>
      exponentDigits_ends hs errMsg fuel hi
  | false => exact .ok trivial

theorem validateFloat_ends (s : Str) (errMsg : String) (fuel : ℕ) :
    Ends Harmless (fun _ => True) (validateFloat s errMsg fuel) := by
  rw [validateFloat]
  by_cases hs : s.len = 0
  · rw [if_pos hs]
    exact err_ends _
  · rw [if_neg hs]
    refine (signAt_ends hs).bind fun sign hsign => ?_
    by_cases hend : sign.2 = s.len
    · simp only [if_pos hend]
      exact err_ends _
    · simp only [if_neg hend]
      refine (skipLoop_ends hs isDigitByte hsign).bind fun digits hdigits => ?_
      refine (validateFraction_ends hs fuel digits.1 hdigits).bind fun all hall => ?_
      by_cases hnone : all.1 = 0
      · simp only [if_pos hnone]
        exact err_ends _
      · simp only [if_neg hnone]
        refine (validateExponent_ends hs errMsg fuel hall).bind fun i _ => ?_
        by_cases hrest : i ≠ s.len
        · rw [if_pos hrest]
          exact err_ends _
        · rw [if_neg hrest]
          exact .ok trivial

end Numbers

section Scanner
variable {s : Str} {low : ℤ}

theorem skipWs_ends {fuel : ℕ} {i : ℤ} (hi : UpTo s low i) :
    Ends Harmless (UpTo s low) (skipWs s fuel i) := by
  induction fuel generalizing i with
  | zero => exact unfinished_ends
  | succ fuel ih =>
    rw [skipWs]
    by_cases hin : i < s.len
    · rw [if_pos hin]
      refine (byteAt_below hi.1 hin).bind fun b _ => ?_
      cases isSpace b with
      | true => exact ih (hi.next hin)
      | false => exact .ok hi
    · rw [if_neg hin]
      exact .ok hi

theorem consume_ends (hs : s.len ≠ 0) (b : UInt8) {i : ℤ} (hi : UpTo s low i) :
    Ends Harmless (fun r => UpTo s low r.2) (consume s b i) := by
  refine (testAt_ends hs hi _).bind fun here hhere => .ok ?_
  cases here with
  | true => exact hi.next (hhere rfl)
  | false => exact hi

theorem expectLit_ends (hs : s.len ≠ 0) (lit : Bytes) {i k : ℤ} (hi : UpTo s low (i + k)) :
    Ends Harmless (UpTo s low) (expectLit s i lit k) := by
  have hbound : i + k < 2147483648 := by
    have hhigh := len_high s
    have htop := hi.top
    omega
  have hexact : wrap32 (i + k) = i + k := by
    have hlow := hi.1
    exact wrap32_eq (by omega) hbound
  induction lit generalizing k with
  | nil =>
    rw [expectLit, hexact]
    exact .ok hi
  | cons c lit ih =>
    rw [expectLit, hexact]
    refine (hi.read hs).bind fun b _ => ?_
    by_cases hdiffers : i + k ≥ s.len ∨ b ≠ c
    · rw [if_pos hdiffers]
      exact failed_ends
    · rw [if_neg hdiffers]
      have hhigh := len_high s
      have hlow := hi.1
      have habove := hi.above
      have hnext : UpTo s low (i + (k + 1)) := ⟨by omega, by omega, by omega⟩
      exact ih hnext (by omega) (wrap32_eq (by omega) (by omega))

/-- A digit is no NUL. -/
theorem hexValue_ends (b : UInt8) : Ends Harmless (fun _ => b ≠ 0) (hexValue b) := by
  rw [hexValue]
  by_cases hdigit : 48 ≤ b ∧ b ≤ 57
  · rw [if_pos hdigit]
    refine .ok ?_
    rintro rfl
    exact absurd hdigit.1 (by decide)
  · rw [if_neg hdigit]
    by_cases hupper : 65 ≤ b ∧ b ≤ 70
    · rw [if_pos hupper]
      refine .ok ?_
      rintro rfl
      exact absurd hupper.1 (by decide)
    · rw [if_neg hupper]
      by_cases hlower : 97 ≤ b ∧ b ≤ 102
      · rw [if_pos hlower]
        refine .ok ?_
        rintro rfl
        exact absurd hlower.1 (by decide)
      · rw [if_neg hlower]
        exact failed_ends

/-- Behind a string that `len` counts in full stands the NUL. -/
theorem byteAt_length (hwhole : s.len = s.length) {b : UInt8} (h : byteAt s s.len = .ok b) :
    b = 0 := by
  rw [hwhole] at h
  cases s with
  | null => simp [byteAt, Str.length, Str.bytes, Str.memory] at h
  | buffer bytes =>
    simp [byteAt, Str.length, Str.bytes, Str.memory] at h
    exact h.symm

/-- Of the digits after `\\u` there are enough, or the NUL ends them. -/
theorem hexLoop_ends (hs : 0 < s.len) {turns : ℕ} {i : ℤ} (hi : UpTo s low i)
    (hroom : i + turns ≤ s.len ∨ s.len = s.length) :
    Ends Harmless (UpTo s low) (hexLoop s turns i) := by
  induction turns generalizing i with
  | zero => exact .ok hi
  | succ turns ih =>
    have htop := hi.top
    rw [hexLoop]
    refine (hi.read (by omega)).bind fun b hb => ?_
    refine (hexValue_ends b).bind fun d hd => ?_
    have hin : i < s.len := by
      by_contra hend
      have hlast : i = s.len := by omega
      rw [hlast] at hb
      rcases hroom with hroom | hwhole
      · push_cast at hroom
        omega
      · exact hd (byteAt_length hwhole hb)
    refine ih (hi.next hin) (hroom.imp_left fun hroom => ?_)
    have hlow := hi.nonneg
    have hhigh := len_high s
    rw [wrap32_eq (by omega) (by omega)]
    push_cast at hroom
    omega

/-- The part of the condition on the scanner that concerns `p.i + 4`. -/
def Counted (s : Str) : Prop := 0 < s.len ∧ (s.length < 4294967296 ∨ s.len + 4 < 2147483648)

theorem Counted.ne (h : Counted s) : s.len ≠ 0 := by
  have hpositive := h.1
  omega

theorem parseHex4_ends (h : Counted s) {i : ℤ} (hi : UpTo s low i) :
    Ends Harmless (UpTo s low) (parseHex4 s i) := by
  obtain ⟨hpositive, hlength⟩ := h
  have hlow := hi.nonneg
  have htop := hi.top
  have hbound := len_high s
  rw [parseHex4]
  by_cases hshort : wrap32 (i + 4) > s.len
  · rw [if_pos hshort]
    exact failed_ends
  · rw [if_neg hshort]
    refine hexLoop_ends hpositive hi ?_
    by_cases hfits : i + 4 < 2147483648
    · rw [wrap32_eq (by omega) hfits] at hshort
      exact Or.inl (by push_cast; omega)
    · refine Or.inr ?_
      have hlen : s.len = wrap32 s.length := rfl
      unfold wrap32 at hlen
      split at hlen <;> omega

theorem parseEscape_ends (h : Counted s) {i : ℤ} (hi : UpTo s low i) :
    Ends Harmless (UpTo s low) (parseEscape s i) := by
  rw [parseEscape]
  by_cases hend : i ≥ s.len
  · rw [if_pos hend]
    exact failed_ends
  · rw [if_neg hend]
    refine (hi.read h.ne).bind fun e _ => ?_
    have hnext := hi.next (by omega)
    by_cases hescape : isEscape e = true
    · rw [if_pos hescape]
      exact .ok hnext
    · rw [if_neg hescape]
      by_cases hu : e = 117
      · rw [if_pos hu]
        exact parseHex4_ends h hnext
      · rw [if_neg hu]
        exact failed_ends

theorem stringLoop_ends (h : Counted s) {fuel : ℕ} {i : ℤ} (hi : UpTo s low i) :
    Ends Harmless (UpTo s low) (stringLoop s fuel i) := by
  induction fuel generalizing i with
  | zero => exact unfinished_ends
  | succ fuel ih =>
    rw [stringLoop]
    by_cases hin : i < s.len
    · rw [if_pos hin]
      have hnext := hi.next hin
      refine (byteAt_below hi.1 hin).bind fun b _ => ?_
      by_cases hquote : b = 34
      · rw [if_pos hquote]
        exact .ok hnext
      · rw [if_neg hquote]
        by_cases hescape : b = 92
        · rw [if_pos hescape]
          exact (parseEscape_ends h hnext).bind fun i hi => ih hi
        · rw [if_neg hescape]
          by_cases hcontrol : b < 32
          · rw [if_pos hcontrol]
            exact failed_ends
          · rw [if_neg hcontrol]
            refine Ends.bind (Q := fun _ => True) ?_ fun _ _ => ih hnext
            have hlow := hi.1
            have hhigh := len_high s
            rw [wrap32_eq (by omega) (by omega)]
            exact strSlice_ends hi.1 (by omega) (by omega)
    · rw [if_neg hin]
      exact failed_ends

theorem parseString_ends (h : Counted s) (fuel : ℕ) {i : ℤ} (hi : UpTo s low i) :
    Ends Harmless (UpTo s low) (parseString s fuel i) := by
  refine (consume_ends h.ne 34 hi).bind fun r hr => ?_
  obtain ⟨quoted, i⟩ := r
  cases quoted with
  | true => exact stringLoop_ends h hr
  | false => exact failed_ends

theorem numberDigits_ends (hs : s.len ≠ 0) (first : UInt8 → Bool) (fuel : ℕ) {i : ℤ}
    (hi : UpTo s low i) : Ends Harmless (UpTo s low) (numberDigits s first fuel i) := by
  refine (testAt_ends hs hi first).bind fun digit _ => ?_
  cases digit with
  | true => exact (skipLoop_ends hs isDigit hi).bind fun _ hr => .ok hr
  | false => exact failed_ends

theorem numberInt_ends (hs : s.len ≠ 0) (fuel : ℕ) {i : ℤ} (hi : UpTo s low i) :
    Ends Harmless (UpTo s low) (numberInt s fuel i) := by
  refine (consume_ends hs 48 hi).bind fun r hr => ?_
  obtain ⟨zero, i⟩ := r
  cases zero with
  | true =>
    refine (testAt_ends hs hr isDigit).bind fun digit _ => ?_
    cases digit with
    | true => exact failed_ends
    | false => exact .ok hr
  | false => exact numberDigits_ends hs isDigit1_9 fuel hr

theorem numberFrac_ends (hs : s.len ≠ 0) (fuel : ℕ) {i : ℤ} (hi : UpTo s low i) :
    Ends Harmless (UpTo s low) (numberFrac s fuel i) := by
  refine (consume_ends hs 46 hi).bind fun r hr => ?_
  obtain ⟨point, i⟩ := r
  cases point with
  | true => exact numberDigits_ends hs isDigit fuel hr
  | false => exact .ok hr

theorem numberExp_ends (hs : s.len ≠ 0) (fuel : ℕ) {i : ℤ} (hi : UpTo s low i) :
    Ends Harmless (UpTo s low) (numberExp s fuel i) := by
  refine (testAt_ends hs hi _).bind fun exponent hexponent => ?_
  cases exponent with
  | true =>
    exact signed_ends hs (hi.next (hexponent rfl)) fun i hi => numberDigits_ends hs isDigit fuel hi
  | false => exact .ok hi

/-- The number is cut out of the text and goes through `_validate_float`. -/
theorem numberText_ends {start i : ℤ} (fuel : ℕ) (hs : 0 < s.len) (hstart : 0 ≤ start)
    (hi : UpTo s start i) :
    Ends Harmless (UpTo s 0) (do
      let text ← strSlice s start i
      validateFloat (.buffer text) "strconv.parse_f64 failed" fuel
      .ok i) := by
  have htop := hi.top
  refine (strSlice_ends hstart hi.above (by omega)).bind fun text _ => ?_
  exact (validateFloat_ends _ _ fuel).bind fun _ _ => .ok ⟨hi.nonneg, hi.nonneg, htop⟩

theorem parseNumber_ends (hs : 0 < s.len) (fuel : ℕ) {start : ℤ} (hi : UpTo s 0 start) :
    Ends Harmless (UpTo s 0) (parseNumber s fuel start) := by
  have hne : s.len ≠ 0 := by omega
  have hstart : UpTo s start start := ⟨hi.nonneg, Int.le_refl _, hi.top⟩
  refine (consume_ends hne 45 hstart).bind fun r hr => ?_
  obtain ⟨minus, i⟩ := r
  by_cases hend : minus = true ∧ i ≥ s.len
  · simp only [if_pos hend]
    exact failed_ends
  · simp only [if_neg hend]
    refine (numberInt_ends hne fuel hr).bind fun i hi' => ?_
    refine (numberFrac_ends hne fuel hi').bind fun i hi' => ?_
    refine (numberExp_ends hne fuel hi').bind fun i hi' => ?_
    exact numberText_ends fuel hs hi.nonneg hi'

end Scanner

section Parser
variable {s : Str} {value : ℤ → Except Stop ℤ} {i : ℤ}

/-- What is known of the recursive calls. -/
def Keeps (s : Str) (value : ℤ → Except Stop ℤ) : Prop :=
  ∀ i, UpTo s 0 i → Ends Harmless (UpTo s 0) (value i)

theorem elementsLoop_ends (hs : s.len ≠ 0) (hvalue : Keeps s value) (ws : ℕ) {fuel : ℕ}
    (hi : UpTo s 0 i) : Ends Harmless (UpTo s 0) (elementsLoop s value ws fuel i) := by
  induction fuel generalizing i with
  | zero => exact unfinished_ends
  | succ fuel ih =>
    refine (hvalue i hi).bind fun i hi => ?_
    refine (skipWs_ends hi).bind fun i hi => ?_
    refine (consume_ends hs 93 hi).bind fun r hr => ?_
    obtain ⟨closed, i⟩ := r
    cases closed with
    | true => exact .ok hr
    | false =>
      refine (consume_ends hs 44 hr).bind fun r hr => ?_
      obtain ⟨comma, i⟩ := r
      cases comma with
      | true => exact ih hr
      | false => exact failed_ends

theorem parseArray_ends (hs : s.len ≠ 0) (hvalue : Keeps s value) (fuel : ℕ) (hi : UpTo s 0 i)
    (hin : i < s.len) : Ends Harmless (UpTo s 0) (parseArray s value fuel i) := by
  refine (skipWs_ends (hi.next hin)).bind fun i hi => ?_
  refine (consume_ends hs 93 hi).bind fun r hr => ?_
  obtain ⟨closed, i⟩ := r
  cases closed with
  | true => exact .ok hr
  | false => exact elementsLoop_ends hs hvalue fuel hr

theorem membersLoop_ends (h : Counted s) (hvalue : Keeps s value) (ws : ℕ) {fuel : ℕ}
    (hi : UpTo s 0 i) : Ends Harmless (UpTo s 0) (membersLoop s value ws fuel i) := by
  induction fuel generalizing i with
  | zero => exact unfinished_ends
  | succ fuel ih =>
    refine (skipWs_ends hi).bind fun i hi => ?_
    refine (testAt_ends h.ne hi _).bind fun quoted _ => ?_
    cases quoted with
    | false => exact failed_ends
    | true =>
      refine (parseString_ends h ws hi).bind fun i hi => ?_
      refine (skipWs_ends hi).bind fun i hi => ?_
      refine (consume_ends h.ne 58 hi).bind fun r hr => ?_
      obtain ⟨colon, i⟩ := r
      cases colon with
      | false => exact failed_ends
      | true =>
        refine (hvalue i hr).bind fun i hi => ?_
        refine (skipWs_ends hi).bind fun i hi => ?_
        refine (consume_ends h.ne 125 hi).bind fun r hr => ?_
        obtain ⟨closed, i⟩ := r
        cases closed with
        | true => exact .ok hr
        | false =>
          refine (consume_ends h.ne 44 hr).bind fun r hr => ?_
          obtain ⟨comma, i⟩ := r
          cases comma with
          | true => exact ih hr
          | false => exact failed_ends

theorem parseObject_ends (h : Counted s) (hvalue : Keeps s value) (fuel : ℕ) (hi : UpTo s 0 i)
    (hin : i < s.len) : Ends Harmless (UpTo s 0) (parseObject s value fuel i) := by
  refine (skipWs_ends (hi.next hin)).bind fun i hi => ?_
  refine (consume_ends h.ne 125 hi).bind fun r hr => ?_
  obtain ⟨closed, i⟩ := r
  cases closed with
  | true => exact .ok hr
  | false => exact membersLoop_ends h hvalue fuel hr

theorem valueStep_ends (h : Counted s) (hvalue : Keeps s value) (fuel : ℕ) :
    Keeps s (valueStep s value fuel) := by
  intro i hi
  refine (skipWs_ends hi).bind fun i hi => ?_
  by_cases hend : i ≥ s.len
  · rw [if_pos hend]
    exact failed_ends
  · rw [if_neg hend]
    have hin : i < s.len := by omega
    have hlit : ∀ lit, Ends Harmless (UpTo s 0) (expectLit s i lit 0) := by
      intro lit
      exact expectLit_ends h.ne lit (by simpa using hi)
    refine (hi.read h.ne).bind fun b _ => ?_
    split_ifs
    · exact hlit nullLit
    · exact hlit trueLit
    · exact hlit falseLit
    · exact parseString_ends h fuel hi
    · exact parseArray_ends h.ne hvalue fuel hi hin
    · exact parseObject_ends h hvalue fuel hi hin
    · exact parseNumber_ends h.1 fuel hi
    · exact failed_ends

theorem parseValue_ends (h : Counted s) (fuel depth : ℕ) : Keeps s (parseValue s fuel depth) := by
  induction depth with
  | zero => exact fun _ _ => unfinished_ends
  | succ depth ih => exact valueStep_ends h ih fuel

theorem jsonParse_ends (fuel : ℕ) (h : s.length < 4294967296 ∨ s.len + 4 < 2147483648) :
    Ends Harmless (fun _ => True) (jsonParse s fuel) := by
  have hzero : UpTo s 0 0 := ⟨Int.le_refl 0, Int.le_refl 0, by omega⟩
  by_cases hpositive : 0 < s.len
  · have hcounted : Counted s := ⟨hpositive, h⟩
    refine (skipWs_ends hzero).bind fun i hi => ?_
    refine (parseValue_ends hcounted fuel fuel i hi).bind fun i hi => ?_
    refine (skipWs_ends hi).bind fun i _ => ?_
    by_cases hrest : i ≠ s.len
    · rw [if_pos hrest]
      exact failed_ends
    · rw [if_neg hrest]
      exact .ok trivial
  · -- Nothing is counted, so that nothing is read.
    have hskip : ∀ fuel, skipWs s (fuel + 1) 0 = .ok 0 := by
      intro fuel
      rw [skipWs, if_neg hpositive]
    cases fuel with
    | zero => exact unfinished_ends
    | succ fuel =>
      rw [jsonParse, bind_ok (hskip fuel), parseValue, valueStep, bind_ok (hskip fuel),
        if_pos (by omega)]
      exact failed_ends

theorem quoteLoop_ends {turns : ℕ} (hlow : 0 ≤ i) (hroom : 0 < turns → i + turns ≤ s.len) :
    Ends Harmless (fun _ => True) (quoteLoop s turns i) := by
  induction turns generalizing i with
  | zero => exact .ok trivial
  | succ turns ih =>
    have hleft := hroom (Nat.succ_pos turns)
    have hhigh := len_high s
    push_cast at hleft
    have hnext : Ends Harmless (fun _ => True) (quoteLoop s turns (i + 1)) :=
      ih (by omega) fun _ => by omega
    rw [quoteLoop]
    refine (byteAt_below hlow (by omega)).bind fun b _ => ?_
    by_cases hescaped : b = 34 ∨ b = 92 ∨ b < 32
    · rw [if_pos hescaped]
      exact hnext
    · rw [if_neg hescaped, wrap32_eq (by omega) (by omega)]
      exact (strSlice_ends hlow (by omega) (by omega)).bind fun _ _ => hnext

theorem quote_ends (s : Str) : Ends Harmless (fun _ => True) (quote s) :=
  quoteLoop_ends (Int.le_refl 0) fun hturns => by omega

end Parser

section Property

/-- Of the strings that are shorter than `2 ^ 31` bytes only the empty one meets a defect, in
    `trim_space`. Where a length does not fit, `len` is negative or too small. -/
def Condition : Call → Prop
  | .trimSpace s => 0 < s.length % 4294967296 ∧ s.length % 4294967296 ≤ 2147483648
  | .trimPrefix s pre => 0 ≤ pre.len ∨ s.len < 0
  | .trimSuffix s suffix => 0 ≤ suffix.len ∨ s.len < 0
  | .count s needle => 0 ≤ s.len ∨ needle.len ≤ 0
  | .replaceAll s old _ => s.len ≤ 0 ∨ 0 ≤ old.len ∧ s.len + old.len ≤ 2147483648
  | .jsonParse s => s.length < 4294967296 ∨ s.len + 4 < 2147483648
  | _ => True

/-- The calls with strings so long that the arithmetic on their lengths can overflow. -/
def Long : Call → Prop
  | .trimPrefix _ pre => 2147483648 ≤ pre.length
  | .trimSuffix _ suffix => 2147483648 ≤ suffix.length
  | .count s _ => 2147483648 ≤ s.length
  | .replaceAll s old _ => 2147483648 < s.length + old.length
  | .jsonParse s => 4294967296 ≤ s.length
  | _ => False

end Property

section Calls

theorem finish_error {α : Type} {x : Except Stop α} :
    finish x = .error .outOfBounds ↔ x = .error .outOfBounds := by
  cases x with
  | ok a => exact ⟨(nomatch ·), (nomatch ·)⟩
  | error e =>
    constructor
    · intro h
      cases h
      rfl
    · intro h
      cases h
      rfl

theorem finish_harmless {α : Type} {x : Except Stop α} (h : Ends Harmless (fun _ => True) x) :
    finish x ≠ .error .outOfBounds := fun herr => h.raised (finish_error.mp herr) rfl

theorem repeatStr_ends (s : Str) (n : ℤ) : Ends Harmless (fun _ => True) (repeatStr s n) := by
  rw [repeatStr]
  by_cases hn : n < 0
  · rw [if_pos hn]
    exact err_ends _
  · rw [if_neg hn]
    exact .ok trivial

theorem trimSpace_inBounds (s : Str) : InBounds (.trimSpace s) ↔ Condition (.trimSpace s) := by
  rw [Condition, ← trimSpace_iff]
  exact forall_congr' fun fuel => not_congr finish_error

/-- Where the condition holds every byte that is read belongs to its string, and apart from the
    calls with long strings it holds only there. -/
theorem reads_in_bounds (c : Call) :
    (Condition c → InBounds c) ∧ (¬ Long c → (InBounds c ↔ Condition c)) := by
  have hsafe : Condition c → InBounds c := by
    intro h
    cases c with
    | trimSpace s => exact (trimSpace_inBounds s).mpr h
    | index s needle => exact fun _ => finish_harmless (index_ends s needle)
    | contains s needle => exact fun _ => finish_harmless (contains_ends s needle)
    | startsWith s pre =>
      exact fun _ => finish_harmless ((startsWith_ends s pre).mono fun _ _ => trivial)
    | endsWith s suffix =>
      exact fun _ => finish_harmless ((endsWith_ends s suffix).mono fun _ _ => trivial)
    | lastIndex s needle => exact fun fuel => finish_harmless (lastIndex_ends s needle fuel)
    | count s needle => exact fun fuel => finish_harmless (count_ends fuel h)
    | repeatStr s n => exact fun _ => finish_harmless (repeatStr_ends s n)
    | replaceAll s old repl => exact fun fuel => finish_harmless (replaceAll_ends repl fuel h)
    | trimPrefix s pre => exact fun _ => finish_harmless (trimPrefix_ends h)
    | trimSuffix s suffix => exact fun _ => finish_harmless (trimSuffix_ends h)
    | parseI32 s => exact fun fuel => finish_harmless (parseI32_ends s fuel)
    | validateFloat s errMsg =>
      exact fun fuel herr => (validateFloat_ends s errMsg fuel).raised herr rfl
    | jsonParse s => exact fun fuel herr => (jsonParse_ends fuel h).raised herr rfl
    | quote s => exact fun _ herr => (quote_ends s).raised herr rfl
  refine ⟨hsafe, fun hshort => ⟨fun hin => ?_, hsafe⟩⟩
  cases c with
  | trimSpace s => exact (trimSpace_inBounds s).mp hin
  | count s needle => exact Or.inl (len_nonneg (Nat.lt_of_not_le hshort))
  | trimPrefix s pre => exact Or.inl (len_nonneg (Nat.lt_of_not_le hshort))
  | trimSuffix s suffix => exact Or.inl (len_nonneg (Nat.lt_of_not_le hshort))
  | jsonParse s => exact Or.inl (Nat.lt_of_not_le hshort)
  | replaceAll s old repl =>
    have hroom : s.length + old.length ≤ 2147483648 := Nat.le_of_not_lt hshort
    by_cases hempty : s.length = 0
    · have hlen := len_le_length s
      exact Or.inl (by omega)
    · have hs := len_le_length s
      have hold := len_le_length old
      exact Or.inr ⟨len_nonneg (by omega), by omega⟩
  | _ => trivial

theorem trimSpace_empty : ¬ InBounds (.trimSpace (.buffer [])) := by
  intro h
  exact h 1 rfl

end Calls

end NewClLang.StringSafety
