import NewClLang.JsonNumbers

set_option autoImplicit false

/-!
# Taking numbers off the front of a text

The scanners for numbers of the json and the strconv module as functions of the text at the cursor,
which give what is left of it, and the languages of what they take.
-/
namespace NewClLang.NumberLanguages
open JsonGrammar JsonNumbers JsonScanning
open JsonModule (Bytes isDigit isDigit1_9)

section Scanners

def isSign (b : UInt8) : Bool := b == 45 || b == 43

def isMark (b : UInt8) : Bool := b == 101 || b == 69

/-- The text without a first byte that passes the test. -/
def skipIf (test : UInt8 → Bool) (r : Bytes) : Bytes := if startsWith test r then r.tail else r

/-- A digit that passes the test, and those that follow. -/
def digitsRest (first : UInt8 → Bool) (r : Bytes) : Option Bytes :=
  if startsWith first r then some (r.dropWhile isDigit) else none

def intRest (r : Bytes) : Option Bytes :=
  if startsWith (· == 48) r then
    if startsWith isDigit r.tail then none else some r.tail
  else
    digitsRest isDigit1_9 r

def fracRest (r : Bytes) : Option Bytes :=
  if startsWith (· == 46) r then digitsRest isDigit r.tail else some r

def expRest (r : Bytes) : Option Bytes :=
  if startsWith isMark r then digitsRest isDigit (skipIf isSign r.tail) else some r

/-- `_parse_number` up to its call of `parse_f64`. -/
def numberRest (r : Bytes) : Option Bytes :=
  (intRest (skipIf (· == 45) r)).bind fun r => (fracRest r).bind expRest

/-- The digits of the integer part and the fraction in `_validate_float`, and what follows them. -/
def mantissaRest (r : Bytes) : ℕ × Bytes :=
  let digits := (r.takeWhile isDigit).length
  let r := r.dropWhile isDigit
  if startsWith (· == 46) r then
    (digits + (r.tail.takeWhile isDigit).length, r.tail.dropWhile isDigit)
  else
    (digits, r)

/-- `_validate_float`, which wants nothing left. -/
def floatRest (r : Bytes) : Option Bytes :=
  let mantissa := mantissaRest (skipIf isSign r)
  if mantissa.1 = 0 then none else expRest mantissa.2

end Scanners

section Tests
variable {r t x : Bytes} {test first : UInt8 → Bool}

theorem startsWith_append (hr : r ≠ []) : startsWith test (r ++ x) = startsWith test r := by
  cases r with
  | nil => exact absurd rfl hr
  | cons b r => rfl

theorem exists_of_startsWith (h : startsWith test r = true) :
    ∃ b rest, r = b :: rest ∧ test b = true := by
  cases r with
  | nil => cases h
  | cons b rest => exact ⟨b, rest, rfl, h⟩

theorem dropWhile_here (h : startsWith test r = false) : r.dropWhile test = r := by
  cases r with
  | nil => rfl
  | cons b r => exact List.dropWhile_cons_of_neg (by rw [show test b = false from h]; decide)

theorem startsWith_dropWhile (r : Bytes) : startsWith test (r.dropWhile test) = false := by
  cases hdrop : r.dropWhile test with
  | nil => rfl
  | cons b rest =>
    have hhead := List.head?_dropWhile_not test r
    rw [hdrop] at hhead
    simpa [startsWith] using hhead

theorem dropWhile_digits (ht : ∀ b ∈ t, test b = true) :
    (t ++ x).dropWhile test = x.dropWhile test := List.dropWhile_append_of_pos ht

theorem dropWhile_length_le (r : Bytes) : (r.dropWhile test).length ≤ r.length :=
  (List.dropWhile_suffix test).length_le

/-- A test that no digit passes. -/
theorem startsWith_digits (ht : Digits t) (htest : ∀ b, Digit b → test b = false) :
    startsWith test (t ++ x) = false := by
  obtain ⟨hne, hdigits⟩ := ht
  cases t with
  | nil => exact absurd rfl hne
  | cons b t => exact htest b (hdigits b List.mem_cons_self)

theorem digit_bounds {b : UInt8} (h : Digit b) : 48 ≤ b.toNat ∧ b.toNat ≤ 57 := by
  simpa [Digit, UInt8.le_iff_toNat_le] using h

theorem isSign_digit (b : UInt8) (h : Digit b) : isSign b = false := by
  have hbounds := digit_bounds h
  rw [isSign, Bool.or_eq_false_iff, beq_eq_false_iff_ne, beq_eq_false_iff_ne]
  constructor
  · rintro rfl
    exact absurd hbounds (by decide)
  · rintro rfl
    exact absurd hbounds (by decide)

theorem beq_digit {c : UInt8} (hc : c.toNat < 48 ∨ 57 < c.toNat) (b : UInt8) (h : Digit b) :
    (b == c) = false := by
  have hbounds := digit_bounds h
  rw [beq_eq_false_iff_ne]
  rintro rfl
  omega

theorem skipIf_cons {b : UInt8} (h : test b = true) : skipIf test (b :: r) = r := if_pos h

theorem skipIf_other (h : startsWith test r = false) : skipIf test r = r := by
  rw [skipIf, h, if_neg Bool.false_ne_true]

end Tests

section Taken
variable {r r' : Bytes} {first : UInt8 → Bool}

theorem digitsRest_takes (hfirst : ∀ b, first b = true → Digit b)
    (h : digitsRest first r = some r') :
    ∃ b t, r = b :: (t ++ r') ∧ first b = true ∧ (∀ c ∈ t, Digit c) ∧
      startsWith isDigit r' = false := by
  unfold digitsRest at h
  cases hstart : startsWith first r with
  | false =>
    rw [hstart, if_neg Bool.false_ne_true] at h
    cases h
  | true =>
    rw [hstart, if_pos rfl] at h
    obtain ⟨b, rest, rfl, hb⟩ := exists_of_startsWith hstart
    have hdrop : (b :: rest).dropWhile isDigit = rest.dropWhile isDigit :=
      List.dropWhile_cons_of_pos (isDigit_iff.mpr (hfirst b hb))
    rw [hdrop] at h
    cases h
    refine ⟨b, rest.takeWhile isDigit, ?_, hb, fun c hc => ?_, startsWith_dropWhile rest⟩
    · rw [List.takeWhile_append_dropWhile]
    · exact isDigit_iff.mp (List.mem_takeWhile_imp hc)

theorem digitsRest_digits (h : digitsRest isDigit r = some r') :
    ∃ t, r = t ++ r' ∧ Digits t := by
  obtain ⟨b, t, rfl, hb, ht, -⟩ := digitsRest_takes (fun b hb => isDigit_iff.mp hb) h
  refine ⟨b :: t, rfl, List.cons_ne_nil b t, fun c hc => ?_⟩
  rcases List.mem_cons.mp hc with rfl | hc
  · exact isDigit_iff.mp hb
  · exact ht c hc

theorem intRest_takes (h : intRest r = some r') : ∃ t, r = t ++ r' ∧ IntPart t := by
  unfold intRest at h
  cases hzero : startsWith (· == 48) r with
  | true =>
    obtain ⟨b, rest, rfl, hb⟩ := exists_of_startsWith hzero
    cases eq_of_beq hb
    rw [hzero, if_pos rfl, List.tail_cons] at h
    split at h
    · cases h
    · cases h
      exact ⟨[48], rfl, Or.inl rfl⟩
  | false =>
    rw [hzero, if_neg Bool.false_ne_true] at h
    obtain ⟨b, t, rfl, hb, ht, -⟩ :=
      digitsRest_takes (fun b hb => (isDigit1_9_iff.mp hb).digit) h
    exact ⟨b :: t, rfl, Or.inr ⟨b, t, rfl, isDigit1_9_iff.mp hb, ht⟩⟩

theorem fracRest_takes (h : fracRest r = some r') : ∃ t, r = t ++ r' ∧ FracPart t := by
  unfold fracRest at h
  cases hpoint : startsWith (· == 46) r with
  | true =>
    obtain ⟨b, rest, rfl, hb⟩ := exists_of_startsWith hpoint
    cases eq_of_beq hb
    rw [hpoint, if_pos rfl, List.tail_cons] at h
    obtain ⟨t, rfl, ht⟩ := digitsRest_digits h
    exact ⟨46 :: t, rfl, Or.inr ⟨t, rfl, ht⟩⟩
  | false =>
    rw [hpoint, if_neg Bool.false_ne_true] at h
    cases h
    exact ⟨[], rfl, Or.inl rfl⟩

theorem expRest_takes (h : expRest r = some r') : ∃ t, r = t ++ r' ∧ ExpPart t := by
  unfold expRest at h
  cases hmark : startsWith isMark r with
  | true =>
    obtain ⟨e, rest, rfl, he⟩ := exists_of_startsWith hmark
    have hletter : e = 101 ∨ e = 69 := by simpa [isMark] using he
    rw [hmark, if_pos rfl, List.tail_cons] at h
    cases hsign : startsWith isSign rest with
    | true =>
      obtain ⟨c, rest, rfl, hc⟩ := exists_of_startsWith hsign
      have hsigned : [c] = [] ∨ [c] = [45] ∨ [c] = [43] := by simpa [isSign] using hc
      rw [skipIf_cons hc] at h
      obtain ⟨t, rfl, ht⟩ := digitsRest_digits h
      exact ⟨e :: c :: t, rfl, Or.inr ⟨e, [c], t, rfl, hletter, hsigned, ht⟩⟩
    | false =>
      rw [skipIf_other hsign] at h
      obtain ⟨t, rfl, ht⟩ := digitsRest_digits h
      exact ⟨e :: t, rfl, Or.inr ⟨e, [], t, rfl, hletter, Or.inl rfl, ht⟩⟩
  | false =>
    rw [hmark, if_neg Bool.false_ne_true] at h
    cases h
    exact ⟨[], rfl, Or.inl rfl⟩

theorem minus_takes (r : Bytes) :
    ∃ minus, r = minus ++ skipIf (· == 45) r ∧ (minus = [] ∨ minus = [45]) := by
  cases hminus : startsWith (· == 45) r with
  | true =>
    obtain ⟨b, rest, rfl, hb⟩ := exists_of_startsWith hminus
    cases eq_of_beq hb
    exact ⟨[45], rfl, Or.inr rfl⟩
  | false =>
    rw [skipIf_other hminus]
    exact ⟨[], rfl, Or.inl rfl⟩

/-- What the scanner takes is a number. -/
theorem numberRest_takes (h : numberRest r = some r') : ∃ t, r = t ++ r' ∧ Number t := by
  obtain ⟨minus, hr, hminus⟩ := minus_takes r
  obtain ⟨r₁, h₁, h⟩ := Option.bind_eq_some_iff.mp h
  obtain ⟨r₂, h₂, h₃⟩ := Option.bind_eq_some_iff.mp h
  obtain ⟨int, hr₀, hint⟩ := intRest_takes h₁
  obtain ⟨frac, rfl, hfrac⟩ := fracRest_takes h₂
  obtain ⟨exp, rfl, hexp⟩ := expRest_takes h₃
  refine ⟨minus ++ (int ++ (frac ++ exp)), ?_, minus, int, frac, exp, rfl, hminus, hint, hfrac,
    hexp⟩
  rw [hr, hr₀]
  simp only [List.append_assoc]

end Taken

section Longest
variable {r r' t w x y : Bytes}

/-- The scanner stands behind the part, or it has gone on over digits that follow. -/
def Behind (x y : Bytes) : Prop := y = x ∨ y = x.dropWhile isDigit

theorem Behind.length_le (h : Behind x y) : y.length ≤ x.length := by
  rcases h with rfl | rfl
  · exact Nat.le_refl _
  · exact dropWhile_length_le x

theorem Behind.here (h : Behind x y) (hx : startsWith isDigit x = false) : y = x := by
  rcases h with rfl | rfl
  · rfl
  · exact dropWhile_here hx

theorem digitsRest_behind {first : UInt8 → Bool} (ht : ∀ b ∈ t, Digit b)
    (h : digitsRest first (t ++ x) = some y) : Behind x y := by
  unfold digitsRest at h
  split at h
  · cases h
    exact Or.inr (dropWhile_digits fun b hb => isDigit_iff.mpr (ht b hb))
  · cases h

theorem startsWith_dot {test : UInt8 → Bool} (ht : FracPart t) (hx : startsWith test x = false)
    (htest : test 46 = false) : startsWith test (t ++ x) = false := by
  rcases ht with rfl | ⟨ds, rfl, -⟩
  · exact hx
  · exact htest

theorem startsWith_mark {test : UInt8 → Bool} (ht : ExpPart t) (hx : startsWith test x = false)
    (htest : ∀ e, e = 101 ∨ e = 69 → test e = false) : startsWith test (t ++ x) = false := by
  rcases ht with rfl | ⟨e, sign, ds, rfl, he, -⟩
  · exact hx
  · exact htest e he

theorem letter_tests : ∀ e : UInt8, e = 101 ∨ e = 69 → isDigit e = false ∧ (e == 46) = false := by
  rintro e (rfl | rfl) <;> decide

theorem intRest_behind (ht : IntPart t) (h : intRest (t ++ x) = some y) : Behind x y := by
  rcases ht with rfl | ⟨b, rest, rfl, hb, hrest⟩
  · have hzero : startsWith (· == 48) ([48] ++ x) = true := rfl
    rw [intRest, hzero, if_pos rfl] at h
    split at h
    · cases h
    · cases h
      exact Or.inl rfl
  · have hzero : startsWith (· == 48) (b :: rest ++ x) = false := by
      rw [List.cons_append, startsWith, beq_eq_false_iff_ne]
      rintro rfl
      exact absurd hb (by decide)
    rw [intRest, hzero, if_neg Bool.false_ne_true] at h
    refine digitsRest_behind (fun c hc => ?_) h
    rcases List.mem_cons.mp hc with rfl | hc
    · exact hb.digit
    · exact hrest c hc

theorem fracRest_length (h : fracRest r = some r') : r'.length ≤ r.length := by
  obtain ⟨t, rfl, -⟩ := fracRest_takes h
  rw [List.length_append]
  omega

theorem expRest_length (h : expRest r = some r') : r'.length ≤ r.length := by
  obtain ⟨t, rfl, -⟩ := expRest_takes h
  rw [List.length_append]
  omega

theorem skipSign_append {sign ds : Bytes} (hsign : sign = [] ∨ sign = [45] ∨ sign = [43])
    (hds : Digits ds) : skipIf isSign (sign ++ (ds ++ x)) = ds ++ x := by
  have hdigit : startsWith isSign (ds ++ x) = false := startsWith_digits hds isSign_digit
  rcases hsign with rfl | rfl | rfl
  · exact skipIf_other hdigit
  · exact skipIf_cons rfl
  · exact skipIf_cons rfl

/-- The exponent of a number is taken in full. -/
theorem expRest_length_le (ht : ExpPart t) (hy : Behind (t ++ w) y ∨ y.length ≤ w.length)
    (h : expRest y = some r') : r'.length ≤ w.length := by
  rcases hy with hy | hy
  · rcases ht with rfl | ⟨e, sign, ds, rfl, he, hsign, hds⟩
    · exact Nat.le_trans (expRest_length h) hy.length_le
    · have hdigit : startsWith isDigit (e :: (sign ++ ds) ++ w) = false := (letter_tests e he).1
      have hmark : startsWith isMark (e :: (sign ++ ds) ++ w) = true := by
        rcases he with rfl | rfl <;> rfl
      have htail : (e :: (sign ++ ds) ++ w).tail = sign ++ (ds ++ w) := List.append_assoc sign ds w
      rw [hy.here hdigit, expRest, hmark, if_pos rfl, htail, skipSign_append hsign hds] at h
      exact (digitsRest_behind hds.2 h).length_le
  · exact Nat.le_trans (expRest_length h) hy

theorem fracRest_behind (ht : FracPart t) {exp : Bytes} (hexp : ExpPart exp)
    (hx : Behind (t ++ (exp ++ w)) x) (h : fracRest x = some y) :
    Behind (exp ++ w) y ∨ y.length ≤ w.length := by
  rcases ht with rfl | ⟨ds, rfl, hds⟩
  · rcases hexp with rfl | ⟨e, sign, ds, rfl, he, hsign, hds⟩
    · exact Or.inr (Nat.le_trans (fracRest_length h) hx.length_le)
    · have hdigit : startsWith isDigit ([] ++ (e :: (sign ++ ds) ++ w)) = false :=
        (letter_tests e he).1
      have hpoint : startsWith (· == 46) ([] ++ (e :: (sign ++ ds) ++ w)) = false :=
        (letter_tests e he).2
      rw [hx.here hdigit, fracRest, hpoint, if_neg Bool.false_ne_true] at h
      cases h
      exact Or.inl (Or.inl rfl)
  · have hhere := hx.here (show startsWith isDigit (46 :: ds ++ (exp ++ w)) = false from rfl)
    have hpoint : startsWith (· == 46) (46 :: ds ++ (exp ++ w)) = true := rfl
    rw [hhere, fracRest, hpoint, if_pos rfl] at h
    exact Or.inl (digitsRest_behind hds.2 h)

theorem skipMinus_number {minus int : Bytes} (hminus : minus = [] ∨ minus = [45])
    (hint : IntPart int) : skipIf (· == 45) (minus ++ (int ++ x)) = int ++ x := by
  have hdigit : startsWith (· == 45) (int ++ x) = false :=
    startsWith_digits (IntPart.digits hint) (beq_digit (Or.inl (by decide)))
  rcases hminus with rfl | rfl
  · exact skipIf_other hdigit
  · exact skipIf_cons rfl

/-- No number at the front of the text is longer than what the scanner takes. -/
theorem numberRest_longest (ht : Number t) (h : numberRest (t ++ w) = some r') :
    r'.length ≤ w.length := by
  obtain ⟨minus, int, frac, exp, rfl, hminus, hint, hfrac, hexp⟩ := ht
  obtain ⟨r₁, h₁, h⟩ := Option.bind_eq_some_iff.mp h
  obtain ⟨r₂, h₂, h₃⟩ := Option.bind_eq_some_iff.mp h
  simp only [List.append_assoc] at h₁
  rw [skipMinus_number hminus hint] at h₁
  exact expRest_length_le hexp (fracRest_behind hfrac hexp (intRest_behind hint h₁) h₂) h₃

end Longest

section Exactness
variable {t w : Bytes}

theorem digitsRest_exact {first : UInt8 → Bool} (ht : ∀ b ∈ t, Digit b)
    (hfirst : startsWith first (t ++ w) = true) (hw : startsWith isDigit w = false) :
    digitsRest first (t ++ w) = some w := by
  rw [digitsRest, hfirst, if_pos rfl, dropWhile_digits (fun b hb => isDigit_iff.mpr (ht b hb)),
    dropWhile_here hw]

theorem startsWith_isDigit (ht : Digits t) : startsWith isDigit (t ++ w) = true := by
  obtain ⟨hne, hdigits⟩ := ht
  cases t with
  | nil => exact absurd rfl hne
  | cons b t => exact isDigit_iff.mpr (hdigits b List.mem_cons_self)

theorem intRest_exact (ht : IntPart t) (hw : startsWith isDigit w = false) :
    intRest (t ++ w) = some w := by
  have hdigits := (IntPart.digits ht).2
  rcases ht with rfl | ⟨b, rest, rfl, hb, -⟩
  · have hzero : startsWith (· == 48) ([48] ++ w) = true := rfl
    have htail : ([48] ++ w).tail = w := rfl
    rw [intRest, hzero, if_pos rfl, htail, hw, if_neg Bool.false_ne_true]
  · have hzero : startsWith (· == 48) (b :: rest ++ w) = false := by
      rw [List.cons_append, startsWith, beq_eq_false_iff_ne]
      rintro rfl
      exact absurd hb (by decide)
    have hfirst : startsWith isDigit1_9 (b :: rest ++ w) = true := isDigit1_9_iff.mpr hb
    rw [intRest, hzero, if_neg Bool.false_ne_true, digitsRest_exact hdigits hfirst hw]

theorem fracRest_exact (ht : FracPart t) (hw : startsWith isDigit w = false)
    (hpoint : startsWith (· == 46) w = false) : fracRest (t ++ w) = some w := by
  rcases ht with rfl | ⟨ds, rfl, hds⟩
  · rw [List.nil_append, fracRest, hpoint, if_neg Bool.false_ne_true]
  · have hdot : startsWith (· == 46) (46 :: ds ++ w) = true := rfl
    have htail : (46 :: ds ++ w).tail = ds ++ w := rfl
    rw [fracRest, hdot, if_pos rfl, htail, digitsRest_exact hds.2 (startsWith_isDigit hds) hw]

theorem expRest_exact (ht : ExpPart t) : expRest t = some [] := by
  rcases ht with rfl | ⟨e, sign, ds, rfl, he, hsign, hds⟩
  · rfl
  · have hmark : startsWith isMark (e :: (sign ++ ds)) = true := by
      rcases he with rfl | rfl <;> rfl
    have hskip := skipSign_append (x := []) hsign hds
    have hrest := digitsRest_exact (w := []) hds.2 (startsWith_isDigit hds) rfl
    rw [List.append_nil] at hskip hrest
    rw [expRest, hmark, if_pos rfl, List.tail_cons, hskip, hrest]

/-- A number is taken in full where nothing follows it. -/
theorem numberRest_exact (ht : Number t) : numberRest t = some [] := by
  obtain ⟨minus, int, frac, exp, rfl, hminus, hint, hfrac, hexp⟩ := ht
  have hdigit : startsWith isDigit exp = false := by
    simpa using startsWith_mark hexp (x := []) rfl fun e he => (letter_tests e he).1
  have hpoint : startsWith (· == 46) exp = false := by
    simpa using startsWith_mark hexp (x := []) rfl fun e he => (letter_tests e he).2
  have hafter : startsWith isDigit (frac ++ exp) = false := startsWith_dot hfrac hdigit (by decide)
  rw [numberRest, skipMinus_number hminus hint, intRest_exact hint hafter, Option.bind_some,
    fracRest_exact hfrac hdigit hpoint, Option.bind_some, expRest_exact hexp]

end Exactness

section Locality
variable {r r' x : Bytes}

/-- What follows a text does not matter to a scanner that leaves some of it. -/
def Local (f : Bytes → Option Bytes) : Prop :=
  ∀ r r' x, f r = some r' → r' ≠ [] → f (r ++ x) = some (r' ++ x)

theorem digitsRest_local (first : UInt8 → Bool) : Local (digitsRest first) := by
  intro r r' x h hne
  unfold digitsRest at h ⊢
  cases hstart : startsWith first r with
  | false =>
    rw [hstart, if_neg Bool.false_ne_true] at h
    cases h
  | true =>
    obtain ⟨b, rest, rfl, -⟩ := exists_of_startsWith hstart
    rw [hstart, if_pos rfl] at h
    cases h
    have hsome : ((b :: rest).dropWhile isDigit).isEmpty = false :=
      List.isEmpty_eq_false_iff.mpr hne
    rw [startsWith_append (List.cons_ne_nil b rest), hstart, if_pos rfl, List.dropWhile_append,
      hsome, if_neg Bool.false_ne_true]

theorem tail_append (hr : r ≠ []) : (r ++ x).tail = r.tail ++ x := by
  cases r with
  | nil => exact absurd rfl hr
  | cons b r => rfl

theorem skipIf_append (test : UInt8 → Bool) (hr : r ≠ []) :
    skipIf test (r ++ x) = skipIf test r ++ x := by
  unfold skipIf
  rw [startsWith_append hr]
  split
  · exact tail_append hr
  · rfl

/-- A scanner that takes a front part of its text has nothing to leave of an empty one. -/
theorem ne_nil_of_takes {P : Bytes → Prop} {f : Bytes → Option Bytes}
    (hf : ∀ r r', f r = some r' → ∃ t, r = t ++ r' ∧ P t) (h : f r = some r') (hne : r' ≠ []) :
    r ≠ [] := by
  obtain ⟨t, rfl, -⟩ := hf r r' h
  exact List.append_ne_nil_of_right_ne_nil t hne

theorem intRest_local : Local intRest := by
  intro r r' x h hne
  have hr := ne_nil_of_takes (fun _ _ => intRest_takes) h hne
  unfold intRest at h ⊢
  rw [startsWith_append hr]
  cases hzero : startsWith (· == 48) r with
  | false =>
    rw [hzero, if_neg Bool.false_ne_true] at h
    rw [if_neg Bool.false_ne_true]
    exact digitsRest_local _ r r' x h hne
  | true =>
    rw [hzero, if_pos rfl] at h
    rw [if_pos rfl, tail_append hr]
    cases hdigit : startsWith isDigit r.tail with
    | true =>
      rw [hdigit, if_pos rfl] at h
      cases h
    | false =>
      rw [hdigit, if_neg Bool.false_ne_true] at h
      cases h
      rw [startsWith_append hne, hdigit, if_neg Bool.false_ne_true]

theorem fracRest_local : Local fracRest := by
  intro r r' x h hne
  have hr := ne_nil_of_takes (fun _ _ => fracRest_takes) h hne
  unfold fracRest at h ⊢
  rw [startsWith_append hr]
  cases hpoint : startsWith (· == 46) r with
  | false =>
    rw [hpoint, if_neg Bool.false_ne_true] at h
    cases h
    rfl
  | true =>
    rw [hpoint, if_pos rfl] at h
    rw [if_pos rfl, tail_append hr]
    exact digitsRest_local _ r.tail r' x h hne

theorem expRest_local : Local expRest := by
  intro r r' x h hne
  have hr := ne_nil_of_takes (fun _ _ => expRest_takes) h hne
  unfold expRest at h ⊢
  rw [startsWith_append hr]
  cases hmark : startsWith isMark r with
  | false =>
    rw [hmark, if_neg Bool.false_ne_true] at h
    cases h
    rfl
  | true =>
    rw [hmark, if_pos rfl] at h
    have htail : r.tail ≠ [] := by
      rintro hnil
      rw [hnil] at h
      cases h
    rw [if_pos rfl, tail_append hr, skipIf_append isSign htail]
    exact digitsRest_local _ _ r' x h hne

theorem numberRest_local : Local numberRest := by
  intro r r' x h hne
  have hr := ne_nil_of_takes (fun _ _ => numberRest_takes) h hne
  obtain ⟨r₁, h₁, h⟩ := Option.bind_eq_some_iff.mp h
  obtain ⟨r₂, h₂, h₃⟩ := Option.bind_eq_some_iff.mp h
  have hne₂ := ne_nil_of_takes (fun _ _ => expRest_takes) h₃ hne
  have hne₁ := ne_nil_of_takes (fun _ _ => fracRest_takes) h₂ hne₂
  rw [numberRest, skipIf_append _ hr, intRest_local _ _ x h₁ hne₁, Option.bind_some,
    fracRest_local _ _ x h₂ hne₂, Option.bind_some, expRest_local _ _ x h₃ hne]

/-- The longest number at the front of a text. -/
structure LongestNumber (r t : Bytes) : Prop where
  front : t <+: r
  number : Number t
  longest : ∀ u, u <+: r → Number u → u.length ≤ t.length

/-- The scanner finds the longest number, also among those that go on in what follows its text,
unless it takes all of that. -/
theorem longest_of_numberRest (h : numberRest r = some r') (x : Bytes) (hx : r' ≠ [] ∨ x = []) :
    ∃ t, r = t ++ r' ∧ LongestNumber (r ++ x) t := by
  obtain ⟨t, rfl, ht⟩ := numberRest_takes h
  refine ⟨t, rfl, ⟨r' ++ x, by rw [List.append_assoc]⟩, ht, ?_⟩
  rintro u ⟨w, hw⟩ hu
  have hmore : numberRest (u ++ w) = some (r' ++ x) := by
    rw [hw]
    rcases hx with hne | rfl
    · exact numberRest_local _ _ x h hne
    · rw [List.append_nil, List.append_nil]
      exact h
  have hlength := numberRest_longest hu hmore
  have htotal := congrArg List.length hw
  simp only [List.length_append] at hlength htotal
  omega

end Locality

section Floats
variable {r : Bytes}

theorem skipSign_takes (r : Bytes) :
    ∃ sign, r = sign ++ skipIf isSign r ∧ (sign = [] ∨ sign = [45] ∨ sign = [43]) := by
  cases hsign : startsWith isSign r with
  | true =>
    obtain ⟨b, rest, rfl, hb⟩ := exists_of_startsWith hsign
    refine ⟨[b], ?_, by simpa [isSign] using hb⟩
    rw [skipIf_cons hb]
    rfl
  | false =>
    rw [skipIf_other hsign]
    exact ⟨[], rfl, Or.inl rfl⟩

theorem mantissaRest_takes (r : Bytes) :
    ∃ int frac, r = int ++ (frac ++ (mantissaRest r).2) ∧ (∀ b ∈ int, Digit b) ∧
      (frac = [] ∨ ∃ ds, frac = 46 :: ds ∧ ∀ b ∈ ds, Digit b) ∧
      (0 < (mantissaRest r).1 → int ≠ [] ∨ ∃ d ds, frac = 46 :: d :: ds) := by
  have hint : ∀ b ∈ r.takeWhile isDigit, Digit b :=
    fun b hb => isDigit_iff.mp (List.mem_takeWhile_imp hb)
  have hsplit : r = r.takeWhile isDigit ++ r.dropWhile isDigit :=
    List.takeWhile_append_dropWhile.symm
  unfold mantissaRest
  dsimp only
  cases hpoint : startsWith (· == 46) (r.dropWhile isDigit) with
  | false =>
    refine ⟨r.takeWhile isDigit, [], hsplit, hint, Or.inl rfl, fun hpos => Or.inl ?_⟩
    exact List.length_pos_iff.mp hpos
  | true =>
    obtain ⟨b, rest, hrest, hb⟩ := exists_of_startsWith hpoint
    cases eq_of_beq hb
    rw [hrest, if_pos rfl, List.tail_cons]
    refine ⟨r.takeWhile isDigit, 46 :: rest.takeWhile isDigit, ?_, hint,
      Or.inr ⟨_, rfl, fun c hc => isDigit_iff.mp (List.mem_takeWhile_imp hc)⟩, fun hpos => ?_⟩
    · rw [List.cons_append, List.takeWhile_append_dropWhile, ← hrest]
      exact hsplit
    · cases hint : r.takeWhile isDigit with
      | cons c cs => exact Or.inl (List.cons_ne_nil c cs)
      | nil =>
        rw [hint, List.length_nil, Nat.zero_add] at hpos
        obtain ⟨d, ds, hds⟩ := List.exists_cons_of_length_pos hpos
        exact Or.inr ⟨d, ds, by rw [hds]⟩

theorem mantissaRest_exact {int frac w : Bytes} (hint : ∀ b ∈ int, Digit b)
    (hfrac : frac = [] ∨ ∃ ds, frac = 46 :: ds ∧ ∀ b ∈ ds, Digit b)
    (hsome : int ≠ [] ∨ ∃ d ds, frac = 46 :: d :: ds) (hdigit : startsWith isDigit w = false)
    (hpoint : startsWith (· == 46) w = false) :
    0 < (mantissaRest (int ++ (frac ++ w))).1 ∧ (mantissaRest (int ++ (frac ++ w))).2 = w := by
  have hafter : startsWith isDigit (frac ++ w) = false := by
    rcases hfrac with rfl | ⟨ds, rfl, -⟩
    · exact hdigit
    · rfl
  have htake : (int ++ (frac ++ w)).takeWhile isDigit = int :=
    takeWhile_exact (fun b hb => isDigit_iff.mpr (hint b hb)) hafter
  have hdrop : (int ++ (frac ++ w)).dropWhile isDigit = frac ++ w := by
    rw [dropWhile_digits (fun b hb => isDigit_iff.mpr (hint b hb)), dropWhile_here hafter]
  unfold mantissaRest
  dsimp only
  rw [htake, hdrop]
  rcases hfrac with rfl | ⟨ds, rfl, hds⟩
  · rw [List.nil_append, hpoint, if_neg Bool.false_ne_true]
    rcases hsome with hne | ⟨d, ds, hcons⟩
    · exact ⟨List.length_pos_iff.mpr hne, rfl⟩
    · cases hcons
  · have hdot : startsWith (· == 46) (46 :: ds ++ w) = true := rfl
    have htail : (46 :: ds ++ w).tail = ds ++ w := rfl
    have hdigits : ∀ b ∈ ds, isDigit b = true := fun b hb => isDigit_iff.mpr (hds b hb)
    rw [hdot, if_pos rfl, htail, takeWhile_exact hdigits hdigit, dropWhile_digits hdigits,
      dropWhile_here hdigit]
    refine ⟨?_, rfl⟩
    rcases hsome with hne | ⟨d, rest, hcons⟩
    · have hpos := List.length_pos_iff.mpr hne
      change 0 < int.length + ds.length
      omega
    · cases hcons
      change 0 < int.length + (rest.length + 1)
      omega

/-- `_validate_float` takes the documented grammar. -/
theorem floatText_iff : FloatText r ↔ floatRest r = some [] := by
  constructor
  · rintro ⟨sign, int, frac, exp, rfl, hsign, hint, hfrac, hsome, hexp⟩
    have hdigit : startsWith isDigit exp = false := by
      simpa using startsWith_mark hexp (x := []) rfl fun e he => (letter_tests e he).1
    have hpoint : startsWith (· == 46) exp = false := by
      simpa using startsWith_mark hexp (x := []) rfl fun e he => (letter_tests e he).2
    have hskip : skipIf isSign (sign ++ (int ++ (frac ++ exp))) = int ++ (frac ++ exp) := by
      have hhead : startsWith isSign (int ++ (frac ++ exp)) = false := by
        cases int with
        | cons b int => exact isSign_digit b (hint b List.mem_cons_self)
        | nil =>
          rcases hsome with hne | ⟨d, ds, rfl⟩
          · exact absurd rfl hne
          · rfl
      rcases hsign with rfl | rfl | rfl
      · exact skipIf_other hhead
      · exact skipIf_cons rfl
      · exact skipIf_cons rfl
    obtain ⟨hpos, hrest⟩ := mantissaRest_exact hint hfrac hsome hdigit hpoint
    rw [floatRest, hskip, if_neg (by omega), hrest, expRest_exact hexp]
  · intro h
    obtain ⟨sign, hr, hsign⟩ := skipSign_takes r
    obtain ⟨int, frac, hmantissa, hint, hfrac, hsome⟩ := mantissaRest_takes (skipIf isSign r)
    unfold floatRest at h
    dsimp only at h
    by_cases hzero : (mantissaRest (skipIf isSign r)).1 = 0
    · rw [if_pos hzero] at h
      cases h
    · rw [if_neg hzero] at h
      obtain ⟨exp, hexp, hpart⟩ := expRest_takes h
      rw [List.append_nil] at hexp
      refine ⟨sign, int, frac, exp, ?_, hsign, hint, hfrac, hsome (Nat.pos_of_ne_zero hzero), hpart⟩
      rw [← hexp, ← hmantissa]
      exact hr

end Floats

end NewClLang.NumberLanguages
