import NewClLang.IntegerParsing
import NewClLang.NumberLanguages

set_option autoImplicit false

/-!
# Validating floats

`_validate_float` and the number scanner of the json module over a string are those over what its
`len` lets them see.
-/
namespace NewClLang.FloatValidation
open StringRoutines hiding startsWith
open WrappedIntegers ExceptOutcomes StringBounds StringMatching StringSearch
open IntegerParsing NumberLanguages JsonGrammar
open JsonNumbers (FloatText)
open JsonScanning (startsWith)
open JsonModule (Bytes Stop isDigit isDigit1_9 failed)

section Cursors
variable {s : Str} {r t : Bytes} {i fuel : ℕ}

/-- The cursor `i` stands before the text `r`. -/
structure Cursor (s : Str) (i : ℕ) (r : Bytes) : Prop where
  positive : 0 < s.len
  inside : (i : ℤ) ≤ s.len
  rest : (visible s).drop i = r

theorem Cursor.length (h : Cursor s i r) : (i : ℤ) + r.length = s.len := by
  have hlength := congrArg List.length h.rest
  have hinside := h.inside
  rw [List.length_drop, visible_length] at hlength
  omega

theorem Cursor.append (h : Cursor s i (t ++ r)) : Cursor s (i + t.length) r := by
  have hlength := h.length
  rw [List.length_append] at hlength
  refine ⟨h.positive, by omega, ?_⟩
  rw [← List.drop_drop, h.rest, List.drop_left]

theorem Cursor.tail {b : UInt8} (h : Cursor s i (b :: r)) : Cursor s (i + 1) r :=
  h.append (t := [b])

theorem Cursor.read (h : Cursor s i r) :
    ∃ b, byteAt s i = .ok b ∧ ∀ c rest, r = c :: rest → b = c := by
  have hpos := h.positive
  have hinside := h.inside
  have hle := len_le_length s
  rcases Nat.lt_or_ge i s.length with hin | hend
  · refine ⟨_, byteAt_nat hin, ?_⟩
    rintro c rest rfl
    have hlength := h.length
    rw [List.length_cons] at hlength
    obtain ⟨hi, hdrop⟩ := visible_drop (s := s) (i := i) (by omega)
    rw [h.rest] at hdrop
    exact (List.cons.inj hdrop).1.symm
  · have heq : i = s.length := by omega
    rw [heq]
    refine ⟨0, byteAt_end (by omega), ?_⟩
    rintro c rest rfl
    have hlength := h.length
    rw [List.length_cons] at hlength
    omega

theorem testAt_eq (test : UInt8 → Bool) (h : Cursor s i r) :
    testAt s test i = .ok (startsWith test r) := by
  obtain ⟨b, hread, hb⟩ := h.read
  have hlength := h.length
  rw [testAt, bind_ok hread]
  cases r with
  | nil =>
    rw [List.length_nil] at hlength
    rw [decide_eq_false (by omega)]
    rfl
  | cons c rest =>
    rw [List.length_cons] at hlength
    rw [decide_eq_true (by omega), hb c rest rfl]
    rfl

theorem wrap_next {i : ℕ} (h : Cursor s i r) (hne : r ≠ []) :
    wrap32 ((i : ℤ) + 1) = ((i + 1 : ℕ) : ℤ) := by
  have hlength := h.length
  have hhigh := len_high s
  have hpos := List.length_pos_iff.mpr hne
  rw [wrap32_eq (by omega) (by omega), Int.natCast_succ]

theorem skipLoop_eq (test : UInt8 → Bool) {n : ℕ} (h : Cursor s i r) (hn : n ≤ i)
    (hfuel : r.length < fuel) :
    skipLoop s test fuel n i = .ok (((n + (r.takeWhile test).length : ℕ) : ℤ),
      ((i + (r.takeWhile test).length : ℕ) : ℤ)) := by
  have hhigh := len_high s
  induction fuel generalizing n i r with
  | zero => omega
  | succ fuel ih =>
    rw [skipLoop, bind_ok (testAt_eq test h)]
    cases r with
    | nil => rfl
    | cons b rest =>
      have hlength := h.length
      rw [List.length_cons] at hlength hfuel
      cases hb : test b with
      | false =>
        have hstart : startsWith test (b :: rest) = false := hb
        rw [hstart, List.takeWhile_cons_of_neg (by rw [hb]; exact Bool.false_ne_true)]
        rfl
      | true =>
        have hstart : startsWith test (b :: rest) = true := hb
        have hcount : wrap32 ((n : ℤ) + 1) = ((n + 1 : ℕ) : ℤ) := by
          rw [wrap32_eq (by omega) (by omega), Int.natCast_succ]
        rw [hstart, if_pos rfl, hcount, wrap_next h (List.cons_ne_nil b rest),
          ih h.tail (by omega) (by omega), List.takeWhile_cons_of_pos hb, List.length_cons]
        congr 3 <;> omega

theorem skipped (test : UInt8 → Bool) (h : Cursor s i r) :
    Cursor s (i + (r.takeWhile test).length) (r.dropWhile test) := by
  refine Cursor.append ?_
  rw [List.takeWhile_append_dropWhile]
  exact h

theorem consume_eq {b : UInt8} (h : Cursor s i r) :
    ∃ i' : ℕ, consume s b i = .ok (startsWith (· == b) r, (i' : ℤ)) ∧
      Cursor s i' (skipIf (· == b) r) := by
  rw [consume, bind_ok (testAt_eq _ h)]
  cases hstart : startsWith (· == b) r with
  | false =>
    rw [skipIf_other hstart]
    exact ⟨i, rfl, h⟩
  | true =>
    obtain ⟨c, rest, rfl, hc⟩ := exists_of_startsWith hstart
    have hskip : skipIf (· == b) (c :: rest) = rest := skipIf_cons hc
    rw [hskip, wrap_next h (List.cons_ne_nil c rest)]
    exact ⟨i + 1, rfl, h.tail⟩

theorem slice_eq (h : Cursor s i (t ++ r)) : strSlice s i ((i + t.length : ℕ) : ℤ) = .ok t := by
  have hle := len_le_length s
  have hhigh := len_high s
  have hlength := h.length
  rw [List.length_append] at hlength
  rw [strSlice_within (Nat.le_add_right i t.length) (by omega) (by omega), Nat.add_sub_cancel_left]
  have htake : (visible s).drop i = (s.bytes.drop i).take (s.len.toNat - i) := by
    rw [visible, List.drop_take]
  have hfront : ((s.bytes.drop i).take (s.len.toNat - i)).take t.length = t := by
    rw [← htake, h.rest, List.take_left]
  rw [List.take_take, Nat.min_eq_left (by omega)] at hfront
  rw [hfront]

/-- Where `len` is not passed, no test is. -/
theorem testAt_beyond {test : UInt8 → Bool} {z : ℤ} {b : Bool} (hz : s.len ≤ z)
    (h : testAt s test z = .ok b) :
    b = false := by
  cases hread : byteAt s z with
  | error stop =>
    rw [testAt, bind_error hread] at h
    cases h
  | ok c =>
    rw [testAt, bind_ok hread, decide_eq_false (by omega)] at h
    cases h
    rfl

end Cursors

section Parts
variable {s : Str} {r : Bytes} {i fuel : ℕ}

/-- The cursor goes on to what the scanner leaves, or there is an error. -/
inductive Scans (s : Str) (e : Stop) : Option Bytes → Except Stop ℤ → Prop where
  | ok {r' : Bytes} {i' : ℕ} (h : Cursor s i' r') : Scans s e (some r') (.ok (i' : ℤ))
  | error : Scans s e none (.error e)

theorem Scans.bind {e : Stop} {o : Option Bytes} {x : Except Stop ℤ} {f : Bytes → Option Bytes}
    {g : ℤ → Except Stop ℤ} (h : Scans s e o x)
    (hnext : ∀ r' (i' : ℕ), Cursor s i' r' → Scans s e (f r') (g i')) :
    Scans s e (o.bind f) (x >>= g) := by
  cases h with
  | ok h => exact hnext _ _ h
  | error => exact .error

theorem digits_none {first : UInt8 → Bool} (h : startsWith first r = false) :
    digitsRest first r = none := by
  rw [digitsRest, h, if_neg Bool.false_ne_true]

theorem digits_some {first : UInt8 → Bool} (h : startsWith first r = true) :
    digitsRest first r = some (r.dropWhile isDigit) := by
  rw [digitsRest, h, if_pos rfl]

theorem takeWhile_length_pos : 0 < (r.takeWhile isDigit).length ↔ startsWith isDigit r = true := by
  cases r with
  | nil => simp [startsWith]
  | cons b rest =>
    cases hb : isDigit b with
    | true =>
      rw [List.takeWhile_cons_of_pos hb]
      simp [startsWith, hb]
    | false =>
      rw [List.takeWhile_cons_of_neg (by rw [hb]; exact Bool.false_ne_true)]
      simp [startsWith, hb]

theorem skipSign_eq (test : UInt8 → Bool) (h : Cursor s i r) :
    ∃ i' : ℕ, (if startsWith test r then wrap32 ((i : ℤ) + 1) else (i : ℤ)) = (i' : ℤ) ∧
      Cursor s i' (skipIf test r) := by
  cases hstart : startsWith test r with
  | false =>
    rw [skipIf_other hstart]
    exact ⟨i, rfl, h⟩
  | true =>
    obtain ⟨c, rest, rfl, hc⟩ := exists_of_startsWith hstart
    rw [skipIf_cons hc, wrap_next h (List.cons_ne_nil c rest)]
    exact ⟨i + 1, rfl, h.tail⟩

theorem exponentDigits_scans (errMsg : String) (h : Cursor s i r) (hfuel : s.len.toNat < fuel) :
    Scans s (.err errMsg) (digitsRest isDigit r) (exponentDigits s errMsg fuel i) := by
  have hlength := h.length
  have hloop := skipLoop_eq isDigit (n := 0) h (Nat.zero_le i)
    (show r.length < fuel by omega)
  change skipLoop s isDigitByte fuel 0 i = _ at hloop
  rw [exponentDigits, bind_ok hloop]
  cases hstart : startsWith isDigit r with
  | false =>
    have hzero : ¬ 0 < (r.takeWhile isDigit).length := by
      rw [takeWhile_length_pos, hstart]
      exact Bool.false_ne_true
    rw [digits_none hstart]
    dsimp only
    rw [if_pos (by omega)]
    exact .error
  | true =>
    have hpos := takeWhile_length_pos.mpr hstart
    rw [digits_some hstart]
    dsimp only
    rw [if_neg (by omega)]
    exact .ok (skipped isDigit h)

theorem validateExponent_scans (errMsg : String) (h : Cursor s i r) (hfuel : s.len.toNat < fuel) :
    Scans s (.err errMsg) (expRest r) (validateExponent s errMsg fuel i) := by
  have hmark := testAt_eq isMark h
  change testAt s (fun b => b == 101 || b == 69) i = _ at hmark
  rw [validateExponent, bind_ok hmark, expRest]
  cases hstart : startsWith isMark r with
  | false => exact .ok h
  | true =>
    obtain ⟨e, rest, rfl, he⟩ := exists_of_startsWith hstart
    have hsign := testAt_eq isSign h.tail
    change testAt s (fun b => b == 45 || b == 43) _ = _ at hsign
    obtain ⟨i', hi', hcursor⟩ := skipSign_eq isSign h.tail
    rw [if_pos rfl, if_pos rfl, wrap_next h (List.cons_ne_nil e rest), bind_ok hsign, hi']
    exact exponentDigits_scans errMsg hcursor hfuel

/-- The integer part and the fraction. -/
theorem mantissa_scans (h : Cursor s i r) (hfuel : s.len.toNat < fuel) :
    ∃ (digits j : ℤ) (i' : ℕ), Cursor s i' (mantissaRest r).2 ∧
      skipLoop s isDigitByte fuel 0 i = .ok (digits, j) ∧
      validateFraction s fuel digits j = .ok (((mantissaRest r).1 : ℤ), (i' : ℤ)) := by
  have hlength := h.length
  have hloop := skipLoop_eq isDigit (n := 0) h (Nat.zero_le i)
    (show r.length < fuel by omega)
  change skipLoop s isDigitByte fuel 0 i = _ at hloop
  have hrest := skipped isDigit h
  have hpoint := testAt_eq (· == 46) hrest
  have hlength' := hrest.length
  rw [hloop, Nat.zero_add]
  suffices hfrac : ∃ i' : ℕ, Cursor s i' (mantissaRest r).2 ∧
      validateFraction s fuel ((r.takeWhile isDigit).length : ℤ)
        ((i + (r.takeWhile isDigit).length : ℕ) : ℤ) =
          .ok (((mantissaRest r).1 : ℤ), (i' : ℤ)) by
    obtain ⟨i', hcursor, heq⟩ := hfrac
    exact ⟨_, _, i', hcursor, rfl, heq⟩
  rw [validateFraction, bind_ok hpoint, mantissaRest]
  cases hstart : startsWith (· == 46) (r.dropWhile isDigit) with
  | false => exact ⟨_, hrest, rfl⟩
  | true =>
    obtain ⟨c, rest, hdrop, -⟩ := exists_of_startsWith hstart
    rw [hdrop] at hrest hlength'
    rw [List.length_cons] at hlength'
    have hmore := skipLoop_eq isDigit (n := (r.takeWhile isDigit).length) hrest.tail
      (by omega) (show rest.length < fuel by omega)
    change skipLoop s isDigitByte fuel _ _ = _ at hmore
    rw [hdrop, if_pos rfl, if_pos rfl, wrap_next hrest (List.cons_ne_nil c rest), hmore,
      List.tail_cons]
    exact ⟨_, skipped isDigit hrest.tail, rfl⟩

theorem signOf_eq (r : Bytes) : (signOf r).2 = skipIf isSign r := by
  cases r with
  | nil => rfl
  | cons b r =>
    rw [signOf, skipIf, startsWith, isSign]
    by_cases hminus : b = 45
    · subst hminus
      rfl
    · by_cases hplus : b = 43
      · subst hplus
        rfl
      · simp [hminus, hplus]

/-- What `len` lets the function see is validated. -/
theorem validateFloat_eq {errMsg : String} (hs : 0 < s.len) (hfuel : s.len.toNat < fuel) :
    validateFloat s errMsg fuel =
      if floatRest (visible s) = some [] then .ok () else .error (.err errMsg) := by
  obtain ⟨i, hi, hsign, hrest⟩ := signAt_eq hs
  rw [signOf_eq] at hrest
  have hcursor : Cursor s i (skipIf isSign (visible s)) := ⟨hs, by omega, hrest⟩
  have hlength := hcursor.length
  rw [validateFloat, if_neg (by omega), bind_ok hsign]
  dsimp only
  by_cases hend : (i : ℤ) = s.len
  · have hnil : skipIf isSign (visible s) = [] := List.length_eq_zero_iff.mp (by omega)
    have hnone : floatRest (visible s) = none := by
      rw [floatRest, hnil]
      rfl
    rw [if_pos hend, hnone]
    rfl
  · obtain ⟨digits, j, i', hcursor', hloop, hfraction⟩ := mantissa_scans hcursor hfuel
    rw [if_neg hend, bind_ok hloop]
    dsimp only
    rw [bind_ok hfraction, floatRest]
    dsimp only
    by_cases hzero : (mantissaRest (skipIf isSign (visible s))).1 = 0
    · rw [if_pos (by omega), if_pos hzero]
      rfl
    · rw [if_neg (by omega), if_neg hzero]
      have hexp := validateExponent_scans errMsg hcursor' hfuel
      generalize expRest (mantissaRest (skipIf isSign (visible s))).2 = o at hexp ⊢
      generalize validateExponent s errMsg fuel i' = x at hexp ⊢
      cases hexp with
      | error => rfl
      | @ok r' k hcursor'' =>
        have hlength' := hcursor''.length
        rw [bind_ok rfl]
        cases r' with
        | nil =>
          rw [List.length_nil] at hlength'
          rw [if_neg (not_not_intro (by omega))]
          rfl
        | cons b rest =>
          rw [List.length_cons] at hlength'
          rw [if_pos (by omega)]
          rfl

end Parts

section Validation
variable {s : Str}

/-- `_validate_float` fails exactly on the texts that are not in the grammar. -/
def Validates (s : Str) (errMsg : String) : Prop :=
  ∃ n, ∀ fuel ≥ n, (FloatText s.bytes → validateFloat s errMsg fuel = .ok ()) ∧
    (¬ FloatText s.bytes → validateFloat s errMsg fuel = .error (.err errMsg))

/-- Nothing is seen where `len` is not positive. -/
theorem visible_nil (hs : s.len ≤ 0) : visible s = [] := by
  have hlength := visible_length s
  exact List.length_eq_zero_iff.mp (by omega)

theorem signAt_some (hs : s.len < 0) : ∃ (neg : Bool) (i : ℤ), 0 ≤ i ∧ signAt s = .ok (neg, i) ∧
    ∃ b, byteAt s i = .ok b := by
  have hlength := length_of_negative hs
  have hzero : 0 < s.length := by omega
  have hone : 1 < s.length := by omega
  have hread : byteAt s 0 = .ok (getElem s.bytes 0 hzero) := byteAt_nat hzero
  have hread' : byteAt s 1 = .ok (getElem s.bytes 1 hone) := byteAt_nat hone
  rw [signAt, bind_ok hread]
  split
  · exact ⟨true, 1, by decide, rfl, _, hread'⟩
  · rw [bind_ok hread]
    split
    · exact ⟨false, 1, by decide, rfl, _, hread'⟩
    · exact ⟨false, 0, by decide, rfl, _, hread⟩

theorem validateFloat_negative {errMsg : String} {fuel : ℕ} (hs : s.len < 0) :
    validateFloat s errMsg (fuel + 1) = .error (.err errMsg) := by
  obtain ⟨neg, i, hi, hsign, b, hread⟩ := signAt_some hs
  have htest (test : UInt8 → Bool) : testAt s test i = .ok false := by
    rw [testAt, bind_ok hread, decide_eq_false (by omega)]
    rfl
  rw [validateFloat, if_neg (by omega), bind_ok hsign]
  dsimp only
  rw [if_neg (by omega), skipLoop, bind_ok (htest isDigitByte)]
  change (validateFraction s (fuel + 1) 0 i >>= _) = _
  rw [validateFraction, bind_ok (htest (· == 46))]
  rfl

theorem validateFloat_visible (errMsg : String) {fuel : ℕ} (hfuel : s.len.toNat < fuel) :
    validateFloat s errMsg fuel =
      if floatRest (visible s) = some [] then .ok () else .error (.err errMsg) := by
  rcases Int.lt_or_le 0 s.len with hpos | hle
  · exact validateFloat_eq hpos hfuel
  · obtain ⟨fuel, rfl⟩ : ∃ n, fuel = n + 1 := ⟨fuel - 1, by omega⟩
    have hnone : floatRest (visible s) = none := by
      rw [visible_nil hle]
      rfl
    rw [hnone]
    rcases Int.lt_or_eq_of_le hle with hneg | hzero
    · exact validateFloat_negative hneg
    · rw [validateFloat, if_pos hzero]
      rfl

/-- The text, and what `len` lets the function see, are both in the grammar or both not. -/
def FloatSeen (s : Str) : Prop := Short s ∨ (FloatText s.bytes ↔ FloatText (visible s))

theorem validates_iff (s : Str) (errMsg : String) : Validates s errMsg ↔ FloatSeen s := by
  constructor
  · rintro ⟨n, hvalid⟩
    obtain ⟨haccepts, hrejects⟩ := hvalid (n + (s.len.toNat + 1)) (Nat.le_add_right _ _)
    have hseen := validateFloat_visible errMsg
      (Nat.lt_of_lt_of_le (Nat.lt_succ_self _) (Nat.le_add_left (s.len.toNat + 1) n))
    refine Or.inr ⟨fun h => ?_, fun h => ?_⟩
    · rw [floatText_iff]
      by_contra hnot
      rw [if_neg hnot, haccepts h] at hseen
      cases hseen
    · by_contra hnot
      rw [if_pos (floatText_iff.mp h), hrejects hnot] at hseen
      cases hseen
  · intro hseen
    have hsame : FloatText s.bytes ↔ FloatText (visible s) := by
      rcases hseen with hshort | hsame
      · rw [visible_short hshort]
      · exact hsame
    refine ⟨s.len.toNat + 1, fun fuel hfuel => ?_⟩
    rw [validateFloat_visible _ hfuel, hsame, floatText_iff]
    exact ⟨fun h => if_pos h, fun h => if_neg h⟩

end Validation

section Numbers
variable {s : Str} {r : Bytes} {i fuel : ℕ}

abbrev jsonError : Stop := .err "json.parse failed"

theorem numberDigits_scans {first : UInt8 → Bool} (h : Cursor s i r) (hfuel : s.len.toNat < fuel) :
    Scans s jsonError (digitsRest first r) (numberDigits s first fuel i) := by
  have hlength := h.length
  rw [numberDigits, bind_ok (testAt_eq first h)]
  cases hstart : startsWith first r with
  | false =>
    rw [digits_none hstart]
    exact .error
  | true =>
    have hloop := skipLoop_eq isDigit (n := 0) h (Nat.zero_le i)
      (show r.length < fuel by omega)
    rw [digits_some hstart, if_pos rfl]
    change Scans s jsonError _ (skipLoop s isDigit fuel ((0 : ℕ) : ℤ) i >>= _)
    rw [bind_ok hloop]
    exact .ok (skipped isDigit h)

theorem numberInt_scans (h : Cursor s i r) (hfuel : s.len.toNat < fuel) :
    Scans s jsonError (intRest r) (numberInt s fuel i) := by
  obtain ⟨i', hconsume, hcursor⟩ := consume_eq (b := 48) h
  rw [numberInt, bind_ok hconsume, intRest]
  dsimp only
  cases hzero : startsWith (· == 48) r with
  | false =>
    rw [skipIf_other hzero] at hcursor
    exact numberDigits_scans hcursor hfuel
  | true =>
    rw [skipIf, hzero, if_pos rfl] at hcursor
    rw [if_pos rfl, if_pos rfl, bind_ok (testAt_eq isDigit hcursor)]
    cases startsWith isDigit r.tail with
    | true => exact .error
    | false => exact .ok hcursor

theorem numberFrac_scans (h : Cursor s i r) (hfuel : s.len.toNat < fuel) :
    Scans s jsonError (fracRest r) (numberFrac s fuel i) := by
  obtain ⟨i', hconsume, hcursor⟩ := consume_eq (b := 46) h
  rw [numberFrac, bind_ok hconsume, fracRest]
  dsimp only
  cases hpoint : startsWith (· == 46) r with
  | false =>
    rw [skipIf_other hpoint] at hcursor
    exact .ok hcursor
  | true =>
    rw [skipIf, hpoint, if_pos rfl] at hcursor
    exact numberDigits_scans hcursor hfuel

theorem numberExp_scans (h : Cursor s i r) (hfuel : s.len.toNat < fuel) :
    Scans s jsonError (expRest r) (numberExp s fuel i) := by
  have hmark := testAt_eq isMark h
  change testAt s (fun b => b == 101 || b == 69) i = _ at hmark
  rw [numberExp, bind_ok hmark, expRest]
  cases hstart : startsWith isMark r with
  | false => exact .ok h
  | true =>
    obtain ⟨e, rest, rfl, he⟩ := exists_of_startsWith hstart
    have hsign := testAt_eq isSign h.tail
    change testAt s (fun b => b == 45 || b == 43) _ = _ at hsign
    obtain ⟨i', hi', hcursor⟩ := skipSign_eq isSign h.tail
    rw [if_pos rfl, if_pos rfl, wrap_next h (List.cons_ne_nil e rest), bind_ok hsign, hi']
    exact numberDigits_scans hcursor hfuel

/-- `_parse_number` up to its call of `parse_f64`: the text of the number, and where it ends. -/
def numberText (s : Str) (fuel : ℕ) (start : ℤ) : Except Stop (Bytes × ℤ) := do
  let (minus, i) ← consume s 45 start
  if minus = true ∧ i ≥ s.len then
    failed
  else do
    let i ← numberInt s fuel i
    let i ← numberFrac s fuel i
    let i ← numberExp s fuel i
    let text ← strSlice s start i
    .ok (text, i)

theorem parseNumber_eq (s : Str) (fuel : ℕ) (start : ℤ) :
    parseNumber s fuel start = numberText s fuel start >>= fun out =>
      validateFloat (.buffer out.1) "strconv.parse_f64 failed" fuel >>= fun _ => .ok out.2 := by
  rw [parseNumber, numberText]
  cases consume s 45 start with
  | error stop => rfl
  | ok out =>
    obtain ⟨minus, i⟩ := out
    rw [bind_ok rfl, bind_ok rfl]
    dsimp only
    split
    · rfl
    · cases numberInt s fuel i with
      | error stop => rfl
      | ok i =>
        rw [bind_ok rfl, bind_ok rfl]
        cases numberFrac s fuel i with
        | error stop => rfl
        | ok i =>
          rw [bind_ok rfl, bind_ok rfl]
          cases numberExp s fuel i with
          | error stop => rfl
          | ok i =>
            rw [bind_ok rfl, bind_ok rfl]
            cases strSlice s start i with
            | error stop => rfl
            | ok text => rfl

/-- The text is the one that the scanner takes. -/
theorem numberText_eq (h : Cursor s i r) (hfuel : s.len.toNat < fuel) :
    (∃ t r', numberRest r = some r' ∧ r = t ++ r' ∧
        numberText s fuel i = .ok (t, ((i + t.length : ℕ) : ℤ))) ∨
      (numberRest r = none ∧ numberText s fuel i = .error jsonError) := by
  obtain ⟨i₁, hconsume, hcursor⟩ := consume_eq (b := 45) h
  have hlength := hcursor.length
  rw [numberText, bind_ok hconsume]
  dsimp only
  by_cases hend : startsWith (· == 45) r = true ∧ (i₁ : ℤ) ≥ s.len
  · have hnil : skipIf (· == 45) r = [] := List.length_eq_zero_iff.mp (by omega)
    rw [if_pos hend, numberRest, hnil]
    exact Or.inr ⟨rfl, rfl⟩
  · rw [if_neg hend]
    have hscan : Scans s jsonError (numberRest r) (numberInt s fuel i₁ >>= fun i =>
        numberFrac s fuel i >>= fun i => numberExp s fuel i) :=
      (numberInt_scans hcursor hfuel).bind fun _ _ h₁ =>
        (numberFrac_scans h₁ hfuel).bind fun _ _ h₂ => numberExp_scans h₂ hfuel
    have hgroup : (do
        let j ← numberInt s fuel i₁
        let j ← numberFrac s fuel j
        let j ← numberExp s fuel j
        let text ← strSlice s i j
        .ok (text, j)) =
        ((numberInt s fuel i₁ >>= fun i => numberFrac s fuel i >>= fun i => numberExp s fuel i) >>=
          fun j => strSlice s i j >>= fun text => .ok (text, j)) := by simp only [bind_assoc]
    rw [hgroup]
    cases hrest : numberRest r with
    | none =>
      rw [hrest] at hscan
      generalize (numberInt s fuel i₁ >>= fun i => numberFrac s fuel i >>= fun i =>
        numberExp s fuel i) = x at hscan ⊢
      cases hscan
      exact Or.inr ⟨rfl, rfl⟩
    | some r' =>
      rw [hrest] at hscan
      obtain ⟨t, rfl, -⟩ := numberRest_takes hrest
      generalize (numberInt s fuel i₁ >>= fun i => numberFrac s fuel i >>= fun i =>
        numberExp s fuel i) = x at hscan ⊢
      cases hscan with
      | @ok _ j hcursor' =>
        have hall := h.length
        have hleft := hcursor'.length
        rw [List.length_append] at hall
        obtain rfl : j = i + t.length := by omega
        refine Or.inl ⟨t, r', rfl, rfl, ?_⟩
        rw [bind_ok rfl, bind_ok (slice_eq h)]

/-- The slice that `_parse_number` passes to `parse_f64` is accepted, and it is the longest number
at its position. -/
def SlicesNumber (s : Str) (start : ℕ) : Prop :=
  ∃ n, ∀ fuel ≥ n, ∀ text i, numberText s fuel start = .ok (text, i) →
    Returns (validateFloat (.buffer text) "strconv.parse_f64 failed") () ∧
      i = ((start + text.length : ℕ) : ℤ) ∧ LongestNumber (s.bytes.drop start) text

/-- The length is one of an `i32`, or what `len` lets the scanner see from the position on is no
number, or no longer one begins there. -/
def NumberSeen (s : Str) (start : ℕ) : Prop :=
  Short s ∨ ¬ Number ((visible s).drop start) ∨
    ∀ u, u <+: s.bytes.drop start → Number u → u.length ≤ ((visible s).drop start).length

theorem accepts_number {t : Bytes} (ht : Number t) (hshort : t.length < 2147483648) :
    Returns (validateFloat (.buffer t) "strconv.parse_f64 failed") () := by
  have hlength : (Str.buffer t).length = t.length := rfl
  have hvisible : visible (.buffer t) = t := visible_short hshort
  refine ⟨(Str.buffer t).len.toNat + 1, fun fuel hfuel => ?_⟩
  rw [validateFloat_visible _ hfuel, hvisible,
    if_pos (floatText_iff.mp (JsonNumbers.number_floatText ht))]

theorem consume_beyond {b : UInt8} {z : ℤ} (hz : s.len ≤ z) :
    Ends (fun _ => True) (fun out => out = (false, z)) (consume s b z) := by
  rw [consume]
  cases htest : testAt s (· == b) z with
  | error stop => exact .error trivial
  | ok here =>
    obtain rfl := testAt_beyond hz htest
    exact .ok rfl

theorem numberInt_beyond {z : ℤ} (hz : s.len ≤ z) :
    Ends (fun _ => True) (fun _ => False) (numberInt s fuel z) := by
  rw [numberInt]
  refine (consume_beyond hz).bind ?_
  rintro _ rfl
  change Ends _ _ (numberDigits s isDigit1_9 fuel z)
  rw [numberDigits]
  cases htest : testAt s isDigit1_9 z with
  | error stop => exact .error trivial
  | ok digit =>
    obtain rfl := testAt_beyond hz htest
    exact .error trivial

/-- Behind what `len` lets it see the scanner finds no number. -/
theorem numberText_beyond {start : ℤ} (hs : s.len ≤ start) :
    Ends (fun _ => True) (fun _ => False) (numberText s fuel start) := by
  rw [numberText]
  refine (consume_beyond hs).bind ?_
  rintro _ rfl
  dsimp only
  rw [if_neg (fun h => absurd h.1 Bool.false_ne_true)]
  exact (numberInt_beyond hs).bind fun _ h => h.elim

theorem visible_append (s : Str) (start : ℕ) (hstart : start ≤ (visible s).length) :
    ∃ x, s.bytes.drop start = (visible s).drop start ++ x ∧ (Short s → x = []) := by
  refine ⟨s.bytes.drop s.len.toNat, ?_, fun hshort => ?_⟩
  · have hsplit : s.bytes = visible s ++ s.bytes.drop s.len.toNat :=
      (List.take_append_drop s.len.toNat s.bytes).symm
    conv_lhs => rw [hsplit]
    exact List.drop_append_of_le_length hstart
  · rw [len_eq hshort, Int.toNat_natCast]
    exact List.drop_length

/-- A number at the position is sliced out where the scanner has found it. -/
theorem slicesNumber_of_seen {start : ℕ} (h : NumberSeen s start) : SlicesNumber s start := by
  refine ⟨s.len.toNat + 1, fun fuel hfuel text i htext => ?_⟩
  by_cases hinside : 0 < s.len ∧ (start : ℤ) ≤ s.len
  · have hcursor : Cursor s start ((visible s).drop start) := ⟨hinside.1, hinside.2, rfl⟩
    have hlength := hcursor.length
    have hhigh := len_high s
    have hstart : start ≤ (visible s).length := by
      rw [visible_length]
      omega
    rcases numberText_eq hcursor hfuel with ⟨t, r', hrest, hr, heq⟩ | ⟨-, heq⟩
    · cases htext.symm.trans heq
      obtain ⟨x, hx, hshort⟩ := visible_append s start hstart
      have hlongest : LongestNumber (s.bytes.drop start) text := by
        have hmore : r' ≠ [] ∨ x = [] → LongestNumber (s.bytes.drop start) text := by
          intro hend
          obtain ⟨t, ht, hlongest⟩ := longest_of_numberRest hrest x hend
          rw [List.append_cancel_right (ht.symm.trans hr)] at hlongest
          rw [hx]
          exact hlongest
        rcases h with hfits | hnot | hall
        · exact hmore (Or.inr (hshort hfits))
        · refine hmore (Or.inl ?_)
          rintro rfl
          obtain ⟨t, ht, hnumber⟩ := numberRest_takes hrest
          rw [List.append_nil] at ht
          rw [ht] at hnot
          exact hnot hnumber
        · cases r' with
          | cons b rest => exact hmore (Or.inl (List.cons_ne_nil b rest))
          | nil =>
            obtain ⟨t, ht, hnumber⟩ := numberRest_takes hrest
            rw [List.append_nil] at ht hr
            rw [hr] at hall hx
            rw [ht.symm.trans hr] at hnumber
            exact ⟨⟨x, hx.symm⟩, hnumber, hall⟩
      have hsize := congrArg List.length hr
      rw [List.length_append] at hsize
      exact ⟨accepts_number hlongest.number (by omega), rfl, hlongest⟩
    · cases htext.symm.trans heq
  · have hlow := len_low s
    have hbeyond : s.len ≤ (start : ℤ) := by omega
    exact ((numberText_beyond hbeyond).result htext).elim

theorem seen_of_slicesNumber {start : ℕ} (h : SlicesNumber s start) : NumberSeen s start := by
  by_contra hnot
  rw [NumberSeen, not_or, not_or, not_not] at hnot
  obtain ⟨-, hnumber, hlonger⟩ := hnot
  obtain ⟨n, hslices⟩ := h
  have hrest := numberRest_exact hnumber
  have hne : (visible s).drop start ≠ [] := by
    intro hnil
    rw [hnil] at hrest
    cases hrest
  have hlength := visible_length s
  have hpos := List.length_pos_iff.mpr hne
  rw [List.length_drop] at hpos
  have hcursor : Cursor s start ((visible s).drop start) := ⟨by omega, by omega, rfl⟩
  rcases numberText_eq hcursor (Nat.lt_of_lt_of_le (Nat.lt_succ_self _)
    (Nat.le_add_left (s.len.toNat + 1) n)) with ⟨t, r', hrest', hr, heq⟩ | ⟨hnone, -⟩
  · cases hrest.symm.trans hrest'
    rw [List.append_nil] at hr
    obtain ⟨-, -, hlongest⟩ := hslices _ (Nat.le_add_right _ _) _ _ heq
    refine hlonger fun u hu hnumber' => ?_
    rw [hr]
    exact hlongest.longest u hu hnumber'
  · cases hnone.symm.trans hrest

theorem slicesNumber_iff (s : Str) (start : ℕ) : SlicesNumber s start ↔ NumberSeen s start :=
  ⟨seen_of_slicesNumber, slicesNumber_of_seen⟩

/-- `_validate_float` decides the grammar, and the number scanner of the json module passes on the
longest number, if `len` does not cut off what makes a difference. -/
theorem floats_validated (s : Str) (errMsg : String) (start : ℕ) :
    (Validates s errMsg ↔ FloatSeen s) ∧ (SlicesNumber s start ↔ NumberSeen s start) :=
  ⟨validates_iff s errMsg, slicesNumber_iff s start⟩

/-- `2 ^ 31` digits. -/
def manyDigits : Str := .buffer (List.replicate 2147483648 49)

theorem manyDigits_rejected :
    ¬ ∀ (s : Str) (errMsg : String) (start : ℕ), Validates s errMsg ∧ SlicesNumber s start := by
  intro h
  have hlength : manyDigits.length = 2147483648 := List.length_replicate
  have hlen : manyDigits.len ≤ 0 := by
    rw [Str.len, hlength]
    decide
  have htext : FloatText manyDigits.bytes := by
    refine ⟨[], manyDigits.bytes, [], [], by simp, Or.inl rfl, fun b hb => ?_, Or.inl rfl,
      Or.inl ?_, Or.inl rfl⟩
    · rw [List.eq_of_mem_replicate hb]
      decide
    · intro hnil
      rw [Str.length, hnil] at hlength
      cases hlength
  rcases (validates_iff manyDigits "").mp (h manyDigits "" 0).1 with hshort | hsame
  · omega
  · have hseen := floatText_iff.mp (hsame.mp htext)
    rw [visible_nil hlen] at hseen
    cases hseen

end Numbers

end NewClLang.FloatValidation
