import NewClLang.JsonScanning

set_option autoImplicit false

/-!
# Numbers

The number scanner takes the numbers of the JSON grammar. Each of them is a text that
`strconv.parse_f64` accepts by its own documented grammar.
-/
namespace NewClLang.JsonNumbers
open WrappedIntegers ExceptOutcomes JsonGrammar JsonModule JsonTrees JsonScanning

/-- The documented grammar of `strconv.parse_f64`: an optional sign, an integer part and a fraction
    part with at least one digit, and an optional exponent. -/
def FloatText (t : Bytes) : Prop :=
  ∃ sign int frac exp, t = sign ++ (int ++ (frac ++ exp)) ∧
    (sign = [] ∨ sign = [45] ∨ sign = [43]) ∧ (∀ b ∈ int, Digit b) ∧
    (frac = [] ∨ ∃ ds, frac = 46 :: ds ∧ ∀ b ∈ ds, Digit b) ∧
    (int ≠ [] ∨ ∃ d ds, frac = 46 :: d :: ds) ∧ ExpPart exp

/-- `parse_f64` accepts exactly its documented grammar. -/
def ReadsFloats {F : Type} (fl : Floats F) : Prop :=
  ∀ t, (∃ x, fl.parseF64 t = some x) ↔ FloatText t

theorem IntPart.digits {t : Bytes} (h : IntPart t) : Digits t := by
  rcases h with rfl | ⟨b, rest, rfl, hb, hrest⟩
  · refine ⟨List.cons_ne_nil _ _, ?_⟩
    intro b hb
    cases List.mem_singleton.mp hb
    decide
  · refine ⟨List.cons_ne_nil _ _, ?_⟩
    intro c hc
    rcases List.mem_cons.mp hc with rfl | hc
    · exact hb.digit
    · exact hrest c hc

theorem number_floatText {t : Bytes} (h : Number t) : FloatText t := by
  obtain ⟨minus, int, frac, exp, rfl, hminus, hint, hfrac, hexp⟩ := h
  refine ⟨minus, int, frac, exp, rfl, ?_, (IntPart.digits hint).2, ?_,
    Or.inl (IntPart.digits hint).1, hexp⟩
  · rcases hminus with rfl | rfl
    · exact Or.inl rfl
    · exact Or.inr (Or.inl rfl)
  · rcases hfrac with rfl | ⟨ds, rfl, hds⟩
    · exact Or.inl rfl
    · exact Or.inr ⟨ds, rfl, hds.2⟩

theorem ReadsFloats.number {F : Type} {fl : Floats F} (hfl : ReadsFloats fl) {t : Bytes}
    (h : Number t) : ∃ x, fl.parseF64 t = some x := (hfl t).mpr (number_floatText h)

section Parts
variable {s r : Bytes} {i : ℕ}

theorem At.next {t : Bytes} {i' : ℕ} (h : At s i (t ++ r)) (h' : At s i' r) :
    i' = i + t.length := by
  have hlength := h.length
  have hlength' := h'.length
  rw [List.length_append] at hlength
  omega

theorem numberDigits_takes (hs : Measured s) (h : At s i r) :
    Ends IsErr (fun i' => ∃ t rest, r = t ++ rest ∧ Digits t ∧ At s i' rest)
      (numberDigits s i) := by
  rw [numberDigits, bind_ok (isAt_eq hs h)]
  cases hstart : startsWith isDigit r with
  | false => exact failed_ends
  | true =>
    obtain ⟨t, rest, rfl, ht, hrest, heq, hat⟩ := skipDigits_takes hs h
    have hne : t ≠ [] := by
      rintro rfl
      rw [List.nil_append, hrest] at hstart
      cases hstart
    rw [if_pos rfl, heq]
    exact .ok ⟨t, rest, rfl, ⟨hne, ht⟩, hat⟩

theorem numberDigits_exact (hs : Measured s) {t : Bytes} (h : At s i (t ++ r)) (ht : Digits t)
    (hr : startsWith isDigit r = false) : numberDigits s i = .ok (i + t.length) := by
  have hstart : startsWith isDigit (t ++ r) = true := by
    obtain ⟨hne, hdigits⟩ := ht
    cases t with
    | nil => exact absurd rfl hne
    | cons b rest => exact isDigit_iff.mpr (hdigits b List.mem_cons_self)
  rw [numberDigits, bind_ok (isAt_eq hs h), hstart, if_pos rfl, skipDigits_exact hs h ht.2 hr]

theorem numberInt_takes (hs : Measured s) (h : At s i r) :
    Ends IsErr (fun i' => ∃ t rest, r = t ++ rest ∧ IntPart t ∧ At s i' rest)
      (numberInt s i) := by
  rcases consume_cases (b := 48) hs h with ⟨rest, rfl, hat, heq⟩ | ⟨_, heq⟩
  · rw [numberInt, bind_ok heq]
    dsimp only
    rw [if_pos rfl, bind_ok (isAt_eq hs hat)]
    cases startsWith isDigit rest with
    | true => exact failed_ends
    | false => exact .ok ⟨[48], rest, rfl, Or.inl rfl, hat⟩
  · rw [numberInt, bind_ok heq]
    dsimp only
    rw [if_neg Bool.false_ne_true, bind_ok (isAt_eq hs h)]
    cases hstart : startsWith isDigit1_9 r with
    | false => exact failed_ends
    | true =>
      cases r with
      | nil => cases hstart
      | cons b rest =>
        have hb : Digit1_9 b := isDigit1_9_iff.mp hstart
        obtain ⟨t, after, ht, hdigits, hafter, hskip, hat⟩ := skipDigits_takes hs h
        rw [if_pos rfl, hskip]
        cases t with
        | nil =>
          have hdigit : startsWith isDigit (b :: rest) = true := isDigit_iff.mpr hb.digit
          rw [ht, List.nil_append, hafter] at hdigit
          cases hdigit
        | cons c t =>
          cases ht
          refine .ok ⟨b :: t, after, rfl, Or.inr ⟨b, t, rfl, hb, ?_⟩, hat⟩
          intro c hc
          exact hdigits c (List.mem_cons_of_mem b hc)

theorem numberInt_exact (hs : Measured s) {t : Bytes} (h : At s i (t ++ r)) (ht : IntPart t)
    (hr : startsWith isDigit r = false) : numberInt s i = .ok (i + t.length) := by
  rcases ht with rfl | ⟨b, rest, rfl, hb, hrest⟩
  · have hat : At s (i + 1) r := h.tail
    rw [numberInt, bind_ok (consume_here hs h)]
    dsimp only
    rw [if_pos rfl, bind_ok (isAt_eq hs hat), hr]
    rfl
  · have hzero : startsWith (fun c => c == 48) (b :: rest ++ r) = false := by
      rw [List.cons_append, startsWith, beq_eq_false_iff_ne]
      rintro rfl
      exact absurd hb (by decide)
    have hstart : startsWith isDigit1_9 (b :: rest ++ r) = true := isDigit1_9_iff.mpr hb
    have hdigits : ∀ c ∈ b :: rest, Digit c := by
      intro c hc
      rcases List.mem_cons.mp hc with rfl | hc
      · exact hb.digit
      · exact hrest c hc
    rw [numberInt, bind_ok (consume_other hs h hzero)]
    dsimp only
    rw [if_neg Bool.false_ne_true, bind_ok (isAt_eq hs h), hstart, if_pos rfl,
      skipDigits_exact hs h hdigits hr]

theorem numberFrac_takes (hs : Measured s) (h : At s i r) :
    Ends IsErr (fun i' => ∃ t rest, r = t ++ rest ∧ FracPart t ∧ At s i' rest)
      (numberFrac s i) := by
  rcases consume_cases (b := 46) hs h with ⟨rest, rfl, hat, heq⟩ | ⟨_, heq⟩
  · rw [numberFrac, bind_ok heq]
    dsimp only
    rw [if_pos rfl]
    refine (numberDigits_takes hs hat).mono ?_
    rintro i' ⟨t, rest', rfl, ht, hat'⟩
    exact ⟨46 :: t, rest', rfl, Or.inr ⟨t, rfl, ht⟩, hat'⟩
  · rw [numberFrac, bind_ok heq]
    exact .ok ⟨[], r, rfl, Or.inl rfl, h⟩

theorem numberFrac_exact (hs : Measured s) {t : Bytes} (h : At s i (t ++ r)) (ht : FracPart t)
    (hr : startsWith isDigit r = false) (hpoint : startsWith (fun c => c == 46) r = false) :
    numberFrac s i = .ok (i + t.length) := by
  rcases ht with rfl | ⟨ds, rfl, hds⟩
  · rw [numberFrac, bind_ok (consume_other hs h hpoint)]
    rfl
  · rw [numberFrac, bind_ok (consume_here hs h)]
    dsimp only
    rw [if_pos rfl, numberDigits_exact hs h.tail hds hr, List.length_cons]
    congr 1
    omega

theorem numberExp_takes (hs : Measured s) (h : At s i r) :
    Ends IsErr (fun i' => ∃ t rest, r = t ++ rest ∧ ExpPart t ∧ At s i' rest)
      (numberExp s i) := by
  rw [numberExp, bind_ok (isAt_eq hs h)]
  cases r with
  | nil => exact .ok ⟨[], [], rfl, Or.inl rfl, h⟩
  | cons e rest =>
    cases he : (e == 101 || e == 69) with
    | false =>
      have hstart : startsWith (fun b => b == 101 || b == 69) (e :: rest) = false := he
      rw [hstart]
      exact .ok ⟨[], e :: rest, rfl, Or.inl rfl, h⟩
    | true =>
      have hstart : startsWith (fun b => b == 101 || b == 69) (e :: rest) = true := he
      have hmark : e = 101 ∨ e = 69 := by simpa using he
      rw [hstart, if_pos rfl, bind_ok (isAt_eq hs h.tail)]
      cases hsign : startsWith (fun b => b == 45 || b == 43) rest with
      | false =>
        refine (numberDigits_takes hs h.tail).mono ?_
        rintro i' ⟨t, rest', rfl, ht, hat'⟩
        exact ⟨e :: t, rest', rfl, Or.inr ⟨e, [], t, rfl, hmark, Or.inl rfl, ht⟩, hat'⟩
      | true =>
        cases rest with
        | nil => cases hsign
        | cons c rest =>
          have hc : [c] = [] ∨ [c] = [45] ∨ [c] = [43] := by simpa [startsWith] using hsign
          refine (numberDigits_takes hs h.tail.tail).mono ?_
          rintro i' ⟨t, rest', rfl, ht, hat'⟩
          exact ⟨e :: c :: t, rest', rfl, Or.inr ⟨e, [c], t, rfl, hmark, hc, ht⟩, hat'⟩

theorem numberExp_exact (hs : Measured s) {t : Bytes} (h : At s i (t ++ r)) (ht : ExpPart t)
    (hr : startsWith isDigit r = false)
    (hmark : startsWith (fun b => b == 101 || b == 69) r = false) :
    numberExp s i = .ok (i + t.length) := by
  rcases ht with rfl | ⟨e, sign, ds, rfl, he, hsign, hds⟩
  · rw [List.nil_append] at h
    rw [numberExp, bind_ok (isAt_eq hs h), hmark]
    rfl
  · have hstart : startsWith (fun b => b == 101 || b == 69) (e :: (sign ++ ds) ++ r) = true := by
      simpa [startsWith] using he
    have htail : At s (i + 1) (sign ++ (ds ++ r)) := by simpa using h.tail
    rw [numberExp, bind_ok (isAt_eq hs h), hstart, if_pos rfl, bind_ok (isAt_eq hs htail)]
    rcases hsign with rfl | hsign
    · -- a digit is no sign
      have hdigit : startsWith (fun b => b == 45 || b == 43) ([] ++ (ds ++ r)) = false := by
        obtain ⟨hne, hdigits⟩ := hds
        cases ds with
        | nil => exact absurd rfl hne
        | cons d ds =>
          have hd := hdigits d List.mem_cons_self
          rw [List.nil_append, List.cons_append, startsWith, Bool.or_eq_false_iff]
          constructor
          · rw [beq_eq_false_iff_ne]
            rintro rfl
            exact absurd hd (by decide)
          · rw [beq_eq_false_iff_ne]
            rintro rfl
            exact absurd hd (by decide)
      have hdigits : At s (i + 1) (ds ++ r) := htail
      rw [hdigit, if_neg Bool.false_ne_true, numberDigits_exact hs hdigits hds hr]
      simp only [List.nil_append, List.length_cons]
      congr 1
      omega
    · obtain ⟨c, rfl, hc⟩ : ∃ c, sign = [c] ∧ (c == 45 || c == 43) = true := by
        rcases hsign with rfl | rfl
        · exact ⟨45, rfl, rfl⟩
        · exact ⟨43, rfl, rfl⟩
      have hsigned : startsWith (fun b => b == 45 || b == 43) ([c] ++ (ds ++ r)) = true := hc
      have hdigits : At s (i + 1 + 1) (ds ++ r) := htail.tail
      rw [hsigned, if_pos rfl, numberDigits_exact hs hdigits hds hr]
      simp only [List.cons_append, List.nil_append, List.length_cons]
      congr 1
      omega

theorem Follow.stops (hr : Follow r) {test : UInt8 → Bool}
    (htest : ∀ b, Space b ∨ b = 44 ∨ b = 93 ∨ b = 125 → test b = false) :
    startsWith test r = false := by
  cases r with
  | nil => rfl
  | cons b rest => exact htest b (hr b rest rfl)

/-- A test that fails on the seven bytes a value can be followed by. -/
theorem fails_after {test : UInt8 → Bool}
    (h : ∀ b ∈ ([32, 9, 10, 13, 44, 93, 125] : Bytes), test b = false) (b : UInt8)
    (hb : Space b ∨ b = 44 ∨ b = 93 ∨ b = 125) : test b = false := by
  apply h
  rcases hb with (rfl | rfl | rfl | rfl) | rfl | rfl | rfl <;> decide

end Parts

section Numbers
variable {F : Type} {fl : Floats F} {s r : Bytes} {i : ℕ}

theorem parseNumber_takes (hs : Measured s) (h : At s i r) :
    Ends IsErr (fun out => ∃ t rest, r = t ++ rest ∧ Number t ∧ fl.parseF64 t = some out.1 ∧
      At s out.2 rest) (parseNumber s fl i) := by
  -- the sign
  obtain ⟨minus, rest, signed, rfl, hminus, heq, hat⟩ : ∃ minus rest signed, r = minus ++ rest ∧
      (minus = [] ∨ minus = [45]) ∧ consume s 45 i = .ok (signed, i + minus.length) ∧
      At s (i + minus.length) rest := by
    rcases consume_cases (b := 45) hs h with ⟨rest, rfl, hat, heq⟩ | ⟨_, heq⟩
    · exact ⟨[45], rest, true, rfl, Or.inr rfl, heq, hat⟩
    · exact ⟨[], r, false, rfl, Or.inl rfl, heq, h⟩
  rw [parseNumber, bind_ok heq]
  dsimp only
  by_cases hend : signed = true ∧ ((i + minus.length : ℕ) : ℤ) ≥ len s
  · rw [if_pos hend]
    exact failed_ends
  rw [if_neg hend]
  refine (numberInt_takes hs hat).bind ?_
  rintro i₁ ⟨int, rest₁, rfl, hint, hat₁⟩
  refine (numberFrac_takes hs hat₁).bind ?_
  rintro i₂ ⟨frac, rest₂, rfl, hfrac, hat₂⟩
  refine (numberExp_takes hs hat₂).bind ?_
  rintro i₃ ⟨exp, rest₃, rfl, hexp, hat₃⟩
  have htext : minus ++ (int ++ (frac ++ (exp ++ rest₃))) =
      minus ++ (int ++ (frac ++ exp)) ++ rest₃ := by simp
  rw [htext] at h
  rw [At.next h hat₃, h.slice]
  rw [At.next h hat₃] at hat₃
  cases hx : fl.parseF64 (minus ++ (int ++ (frac ++ exp))) with
  | none => exact .error ⟨_, rfl⟩
  | some x =>
    exact .ok ⟨_, rest₃, htext, ⟨minus, int, frac, exp, rfl, hminus, hint, hfrac, hexp⟩, hx, hat₃⟩

theorem parseNumber_exact (hs : Measured s) {t : Bytes} {x : F} (h : At s i (t ++ r))
    (ht : Number t) (hx : fl.parseF64 t = some x) (hr : Follow r) :
    parseNumber s fl i = .ok (x, i + t.length) := by
  have hslice := h.slice
  obtain ⟨minus, int, frac, exp, rfl, hminus, hint, hfrac, hexp⟩ := ht
  have hdigit : startsWith isDigit r = false := Follow.stops hr (fails_after (by simp [isDigit]))
  have hpoint : startsWith (fun c => c == 46) r = false := Follow.stops hr (fails_after (by simp))
  have hmark : startsWith (fun b => b == 101 || b == 69) r = false :=
    Follow.stops hr (fails_after (by simp))
  have hexp_digit : startsWith isDigit (exp ++ r) = false := by
    rcases hexp with rfl | ⟨e, sign, ds, rfl, rfl | rfl, _⟩
    · exact hdigit
    · rfl
    · rfl
  have hexp_point : startsWith (fun c => c == 46) (exp ++ r) = false := by
    rcases hexp with rfl | ⟨e, sign, ds, rfl, rfl | rfl, _⟩
    · exact hpoint
    · rfl
    · rfl
  have hfrac_digit : startsWith isDigit (frac ++ (exp ++ r)) = false := by
    rcases hfrac with rfl | ⟨ds, rfl, _⟩
    · exact hexp_digit
    · rfl
  have hat : At s i (minus ++ (int ++ (frac ++ (exp ++ r)))) := by simpa using h
  have hint_more : int ++ (frac ++ (exp ++ r)) ≠ [] :=
    List.append_ne_nil_of_left_ne_nil (IntPart.digits hint).1 _
  have hsign : ∃ signed, consume s 45 i = .ok (signed, i + minus.length) := by
    rcases hminus with rfl | rfl
    · -- a digit is no minus
      refine ⟨false, consume_other hs hat ?_⟩
      rcases hint with rfl | ⟨b, rest, rfl, hb, _⟩
      · rfl
      · rw [List.nil_append, List.cons_append, startsWith, beq_eq_false_iff_ne]
        rintro rfl
        exact absurd hb (by decide)
    · exact ⟨true, consume_here hs hat⟩
  obtain ⟨signed, hsign⟩ := hsign
  have hroom : ¬ (signed = true ∧ ((i + minus.length : ℕ) : ℤ) ≥ len s) := by
    rintro ⟨_, hend⟩
    exact absurd ((hat.append.lt_len hs).mpr hint_more) (Int.not_lt.mpr hend)
  rw [parseNumber, bind_ok hsign]
  dsimp only
  rw [if_neg hroom, bind_ok (numberInt_exact hs hat.append hint hfrac_digit),
    bind_ok (numberFrac_exact hs hat.append.append hfrac hexp_digit hexp_point),
    bind_ok (numberExp_exact hs hat.append.append.append hexp hdigit hmark)]
  have hend : i + minus.length + int.length + frac.length + exp.length =
      i + (minus ++ (int ++ (frac ++ exp))).length := by
    simp only [List.length_append]
    omega
  rw [hend, hslice, hx]

end Numbers

end NewClLang.JsonNumbers
