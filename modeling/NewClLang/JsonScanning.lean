import Mathlib.Data.List.TakeWhile
import NewClLang.ExceptOutcomes
import NewClLang.JsonTrees

set_option autoImplicit false

/-!
# What the scanning functions of the parser take

Each is described by the text left at the cursor: what it takes off the front of it when it
succeeds, and that it takes a well-formed piece exactly where one stands.
-/
namespace NewClLang.JsonScanning
open WrappedIntegers ExceptOutcomes JsonGrammar JsonModule JsonTrees

/-- The cursor `i` stands before the text `r`. -/
structure At (s : Bytes) (i : ℕ) (r : Bytes) : Prop where
  inside : i ≤ s.length
  rest : s.drop i = r

/-- `len` reads the whole length. -/
def Measured {α : Type} (l : List α) : Prop := l.length < 2147483648

def IsErr (e : Stop) : Prop := ∃ message, e = .err message

def startsWith (test : UInt8 → Bool) : Bytes → Bool
  | [] => false
  | b :: _ => test b

section Positions
variable {s r t : Bytes} {i : ℕ}

theorem At.length (h : At s i r) : i + r.length = s.length := by
  have hrest := congrArg List.length h.rest
  have hinside := h.inside
  rw [List.length_drop] at hrest
  omega

theorem At.append (h : At s i (t ++ r)) : At s (i + t.length) r := by
  have hlength := h.length
  rw [List.length_append] at hlength
  refine ⟨by omega, ?_⟩
  rw [← List.drop_drop, h.rest, List.drop_left]

theorem At.tail {b : UInt8} (h : At s i (b :: r)) : At s (i + 1) r := h.append (t := [b])

theorem At.head {b : UInt8} (h : At s i (b :: r)) : s[i]? = some b := by
  rw [← List.head?_drop, h.rest]
  rfl

theorem At.slice (h : At s i (t ++ r)) : strSlice s i (i + t.length) = t := by
  rw [strSlice, h.rest, Nat.add_sub_cancel_left, List.take_left]

theorem at_zero (s : Bytes) : At s 0 s := ⟨Nat.zero_le _, List.drop_zero⟩

theorem measured_nil {α : Type} : Measured ([] : List α) := by simp [Measured]

theorem Measured.len {α : Type} {l : List α} (hl : Measured l) : len l = l.length :=
  wrap32_of_fits ⟨by omega, by
    unfold Measured at hl
    omega⟩

theorem Measured.counted {α : Type} {l : List α} (hl : Measured l) : counted l = l := by
  rw [JsonModule.counted, hl.len, Int.toNat_natCast, List.take_length]

theorem At.lt_len (hs : Measured s) (h : At s i r) : (i : ℤ) < len s ↔ r ≠ [] := by
  have hlength := h.length
  rw [hs.len, ← List.length_pos_iff]
  omega

/-- What `len` reads is no more than the length. -/
theorem At.ne_nil (h : At s i r) (hi : (i : ℤ) < len s) : r ≠ [] := by
  have hlength := h.length
  have hread : len s ≤ s.length := wrap32_le (Int.natCast_nonneg _)
  rw [← List.length_pos_iff]
  omega

theorem byteAt_head {b : UInt8} (h : At s i (b :: r)) : byteAt s i = .ok b := by
  rw [byteAt, h.head]

theorem byteAt_end (h : At s i []) : byteAt s i = .ok 0 := by
  have hlength := h.length
  rw [byteAt, List.getElem?_eq_none (by simp at hlength; omega)]
  exact if_pos (by simpa using hlength)

theorem failed_ends {α : Type} {Q : α → Prop} : Ends IsErr Q failed := .error ⟨_, rfl⟩

end Positions

section Tests
variable {s r : Bytes} {i : ℕ} {test : UInt8 → Bool}

theorem isAt_eq (hs : Measured s) (h : At s i r) : isAt s test i = .ok (startsWith test r) := by
  have hlt := h.lt_len hs
  unfold isAt
  cases r with
  | nil =>
    rw [if_neg (fun hi => hlt.mp hi rfl)]
    rfl
  | cons b rest =>
    rw [if_pos (hlt.mpr (List.cons_ne_nil b rest)), bind_ok (byteAt_head h)]
    rfl

theorem consume_here {b : UInt8} (hs : Measured s) (h : At s i (b :: r)) :
    consume s b i = .ok (true, i + 1) := by
  have hstart : startsWith (fun c => c == b) (b :: r) = true := beq_self_eq_true b
  rw [consume, bind_ok (isAt_eq hs h), hstart]
  rfl

theorem consume_other {b : UInt8} (hs : Measured s) (h : At s i r)
    (hb : startsWith (fun c => c == b) r = false) : consume s b i = .ok (false, i) := by
  rw [consume, bind_ok (isAt_eq hs h), hb]
  rfl

theorem startsWith_byte {b : UInt8} (h : startsWith (fun c => c == b) r = true) :
    ∃ rest, r = b :: rest := by
  cases r with
  | nil => cases h
  | cons c rest => exact ⟨rest, by rw [eq_of_beq h]⟩

/-- `consume` takes the byte where it stands and does nothing elsewhere. -/
theorem consume_cases {b : UInt8} (hs : Measured s) (h : At s i r) :
    (∃ rest, r = b :: rest ∧ At s (i + 1) rest ∧ consume s b i = .ok (true, i + 1)) ∨
      (startsWith (fun c => c == b) r = false ∧ consume s b i = .ok (false, i)) := by
  cases hstart : startsWith (fun c => c == b) r with
  | true =>
    obtain ⟨rest, rfl⟩ := startsWith_byte hstart
    exact Or.inl ⟨rest, rfl, h.tail, consume_here hs h⟩
  | false => exact Or.inr ⟨rfl, consume_other hs h hstart⟩

theorem skipLoop_eq (hs : Measured s) {turns : ℕ} (h : At s i r) (hturns : r.length ≤ turns) :
    skipLoop s test turns i = .ok (i + (r.takeWhile test).length) := by
  induction turns generalizing i r with
  | zero =>
    cases List.length_eq_zero_iff.mp (Nat.le_zero.mp hturns)
    rfl
  | succ turns ih =>
    rw [skipLoop, bind_ok (isAt_eq hs h)]
    cases r with
    | nil => rfl
    | cons b rest =>
      cases hb : test b with
      | false =>
        rw [List.takeWhile_cons_of_neg (by rw [hb]; exact Bool.false_ne_true)]
        simp [startsWith, hb]
      | true =>
        rw [List.length_cons] at hturns
        have hstart : startsWith test (b :: rest) = true := hb
        rw [hstart, if_pos rfl, ih h.tail (by omega), List.takeWhile_cons_of_pos hb,
          List.length_cons]
        congr 1
        omega

/-- The loop takes the longest front part of bytes that pass. -/
theorem skipLoop_takes (hs : Measured s) {turns : ℕ} (h : At s i r) (hturns : r.length ≤ turns) :
    ∃ t rest, r = t ++ rest ∧ (∀ b ∈ t, test b = true) ∧ startsWith test rest = false ∧
      skipLoop s test turns i = .ok (i + t.length) ∧ At s (i + t.length) rest := by
  have hsplit : r.takeWhile test ++ r.dropWhile test = r := List.takeWhile_append_dropWhile
  have hat : At s i (r.takeWhile test ++ r.dropWhile test) := by
    rw [hsplit]
    exact h
  refine ⟨_, _, hsplit.symm, fun b hb => List.mem_takeWhile_imp hb, ?_, skipLoop_eq hs h hturns,
    hat.append⟩
  cases hdrop : r.dropWhile test with
  | nil => rfl
  | cons b rest =>
    have hhead := List.head?_dropWhile_not test r
    rw [hdrop] at hhead
    simpa [startsWith] using hhead

theorem takeWhile_exact {t : Bytes} (ht : ∀ b ∈ t, test b = true)
    (hr : startsWith test r = false) : (t ++ r).takeWhile test = t := by
  rw [List.takeWhile_append_of_pos ht]
  cases r with
  | nil => simp
  | cons b rest =>
    rw [List.takeWhile_cons_of_neg (by
      intro hb
      rw [startsWith, hb] at hr
      cases hr), List.append_nil]

theorem skipLoop_exact (hs : Measured s) {turns : ℕ} {t : Bytes} (h : At s i (t ++ r))
    (hturns : (t ++ r).length ≤ turns) (ht : ∀ b ∈ t, test b = true)
    (hr : startsWith test r = false) : skipLoop s test turns i = .ok (i + t.length) := by
  rw [skipLoop_eq hs h hturns, takeWhile_exact ht hr]

theorem turns_left (hs : Measured s) (h : At s i r) : r.length ≤ (len s).toNat - i := by
  have hlength := h.length
  rw [hs.len]
  omega

theorem isSpace_iff {b : UInt8} : isSpace b = true ↔ Space b := by
  simp [isSpace, Space, or_assoc]

theorem isDigit_iff {b : UInt8} : isDigit b = true ↔ Digit b := by
  simp [isDigit, Digit]

theorem isDigit1_9_iff {b : UInt8} : isDigit1_9 b = true ↔ Digit1_9 b := by
  simp [isDigit1_9, Digit1_9]

theorem skipWs_takes (hs : Measured s) (h : At s i r) :
    ∃ w rest, r = w ++ rest ∧ Ws w ∧ startsWith isSpace rest = false ∧
      skipWs s i = .ok (i + w.length) ∧ At s (i + w.length) rest := by
  obtain ⟨w, rest, hr, hw, hrest, heq, hat⟩ := skipLoop_takes hs h (turns_left hs h)
  exact ⟨w, rest, hr, fun b hb => isSpace_iff.mp (hw b hb), hrest, heq, hat⟩

theorem skipWs_exact (hs : Measured s) {w : Bytes} (h : At s i (w ++ r)) (hw : Ws w)
    (hr : startsWith isSpace r = false) : skipWs s i = .ok (i + w.length) :=
  skipLoop_exact hs h (turns_left hs h) (fun b hb => isSpace_iff.mpr (hw b hb)) hr

theorem skipDigits_takes (hs : Measured s) (h : At s i r) :
    ∃ t rest, r = t ++ rest ∧ (∀ b ∈ t, Digit b) ∧ startsWith isDigit rest = false ∧
      skipDigits s i = .ok (i + t.length) ∧ At s (i + t.length) rest := by
  obtain ⟨t, rest, hr, ht, hrest, heq, hat⟩ := skipLoop_takes hs h (turns_left hs h)
  exact ⟨t, rest, hr, fun b hb => isDigit_iff.mp (ht b hb), hrest, heq, hat⟩

theorem skipDigits_exact (hs : Measured s) {t : Bytes} (h : At s i (t ++ r)) (ht : ∀ b ∈ t, Digit b)
    (hr : startsWith isDigit r = false) : skipDigits s i = .ok (i + t.length) :=
  skipLoop_exact hs h (turns_left hs h) (fun b hb => isDigit_iff.mpr (ht b hb)) hr

end Tests

section Literals
variable {s r : Bytes} {i : ℕ}

theorem expectLoop_exact (hs : Measured s) {lit : Bytes} (h : At s i (lit ++ r)) :
    expectLoop s lit i = .ok (i + lit.length) := by
  induction lit generalizing i with
  | nil => rfl
  | cons c lit ih =>
    have hstart : startsWith (fun b => b == c) (c :: (lit ++ r)) = true := beq_self_eq_true c
    rw [expectLoop, bind_ok (isAt_eq hs h), List.cons_append, hstart, if_pos rfl, ih h.tail,
      List.length_cons]
    congr 1
    omega

theorem expectLoop_takes (hs : Measured s) (lit : Bytes) (h : At s i r) :
    Ends IsErr (fun i' => ∃ rest, r = lit ++ rest ∧ At s i' rest) (expectLoop s lit i) := by
  induction lit generalizing i r with
  | nil => exact .ok ⟨r, rfl, h⟩
  | cons c lit ih =>
    rw [expectLoop, bind_ok (isAt_eq hs h)]
    cases hstart : startsWith (fun b => b == c) r with
    | false => exact failed_ends
    | true =>
      obtain ⟨rest, rfl⟩ := startsWith_byte hstart
      refine (ih h.tail).mono ?_
      rintro i' ⟨rest', rfl, hat⟩
      exact ⟨rest', rfl, hat⟩

end Literals

section Strings
variable {s r : Bytes} {i : ℕ}

theorem hexLoop_step {b : UInt8} {d turns value : ℕ} (h : At s i (b :: r))
    (hd : hexValue b = .ok d) :
    hexLoop s (turns + 1) value i = hexLoop s turns (value * 16 + d) (i + 1) := by
  rw [hexLoop, bind_ok (byteAt_head h), bind_ok hd]

/-- Behind the text stands a NUL, which is no digit. -/
theorem hexLoop_ends {Q : ℕ × ℕ → Prop} {turns value : ℕ} (h : At s i r)
    (hnext : ∀ b rest d, r = b :: rest → hexValue b = .ok d → At s (i + 1) rest →
      Ends IsErr Q (hexLoop s turns (value * 16 + d) (i + 1))) :
    Ends IsErr Q (hexLoop s (turns + 1) value i) := by
  cases r with
  | nil =>
    have hnul : hexValue 0 = failed := rfl
    rw [hexLoop, bind_ok (byteAt_end h), hnul]
    exact failed_ends
  | cons b rest =>
    cases hd : hexValue b with
    | ok d =>
      rw [hexLoop_step h hd]
      exact hnext b rest d rfl hd h.tail
    | error e =>
      rw [hexLoop, bind_ok (byteAt_head h), bind_error hd]
      have hfailed : hexValue b = failed := by
        revert hd
        unfold hexValue
        split_ifs <;> simp [failed]
      rw [hfailed] at hd
      cases hd
      exact failed_ends

theorem parseHex4_takes (h : At s i r) :
    Ends IsErr (fun out => ∃ t rest, r = t ++ rest ∧ EscapeText (117 :: t) (strRune out.1) ∧
      At s out.2 rest) (parseHex4 s i) := by
  unfold parseHex4
  by_cases hshort : wrap32 (i + 4) > len s
  · rw [if_pos hshort]
    exact failed_ends
  · rw [if_neg hshort]
    refine hexLoop_ends h ?_
    rintro a rest₁ va rfl ha h₁
    refine hexLoop_ends h₁ ?_
    rintro b rest₂ vb rfl hb h₂
    refine hexLoop_ends h₂ ?_
    rintro c rest₃ vc rfl hc h₃
    refine hexLoop_ends h₃ ?_
    rintro d rest vd rfl hd h₄
    exact .ok ⟨[a, b, c, d], rest, rfl, .unicode ha hb hc hd, h₄⟩

theorem parseHex4_exact (hs : Measured s) {a b c d : UInt8} {va vb vc vd : ℕ}
    (h : At s i (a :: b :: c :: d :: r)) (ha : hexValue a = .ok va) (hb : hexValue b = .ok vb)
    (hc : hexValue c = .ok vc) (hd : hexValue d = .ok vd) :
    parseHex4 s i = .ok ((((0 * 16 + va) * 16 + vb) * 16 + vc) * 16 + vd, i + 4) := by
  have hlength := h.length
  simp only [List.length_cons] at hlength
  have hmeasured : s.length < 2147483648 := hs
  have hfits : wrap32 (i + 4) = i + 4 := wrap32_of_fits ⟨by omega, by omega⟩
  have hroom : ¬ wrap32 (i + 4) > len s := by
    rw [hfits, hs.len]
    omega
  rw [parseHex4, if_neg hroom, hexLoop_step h ha, hexLoop_step h.tail hb,
    hexLoop_step h.tail.tail hc, hexLoop_step h.tail.tail.tail hd]
  rfl

theorem parseEscape_takes {e : UInt8} (h : At s i r) :
    Ends IsErr (fun out => ∃ t rest, r = t ++ rest ∧ EscapeText (e :: t) out.1 ∧ At s out.2 rest)
      (parseEscape s e i) := by
  unfold parseEscape
  by_cases h₁ : e = 34
  · rw [if_pos h₁, h₁]
    exact .ok ⟨[], r, rfl, .quote, h⟩
  rw [if_neg h₁]
  by_cases h₂ : e = 92
  · rw [if_pos h₂, h₂]
    exact .ok ⟨[], r, rfl, .backslash, h⟩
  rw [if_neg h₂]
  by_cases h₃ : e = 47
  · rw [if_pos h₃, h₃]
    exact .ok ⟨[], r, rfl, .slash, h⟩
  rw [if_neg h₃]
  by_cases h₄ : e = 98
  · rw [if_pos h₄, h₄]
    exact .ok ⟨[], r, rfl, .backspace, h⟩
  rw [if_neg h₄]
  by_cases h₅ : e = 102
  · rw [if_pos h₅, h₅]
    exact .ok ⟨[], r, rfl, .formFeed, h⟩
  rw [if_neg h₅]
  by_cases h₆ : e = 110
  · rw [if_pos h₆, h₆]
    exact .ok ⟨[], r, rfl, .newline, h⟩
  rw [if_neg h₆]
  by_cases h₇ : e = 114
  · rw [if_pos h₇, h₇]
    exact .ok ⟨[], r, rfl, .carriageReturn, h⟩
  rw [if_neg h₇]
  by_cases h₈ : e = 116
  · rw [if_pos h₈, h₈]
    exact .ok ⟨[], r, rfl, .tab, h⟩
  rw [if_neg h₈]
  by_cases h₉ : e = 117
  · rw [if_pos h₉, h₉]
    refine (parseHex4_takes h).bind ?_
    intro out hout
    exact .ok hout
  · rw [if_neg h₉]
    exact failed_ends

theorem parseEscape_exact (hs : Measured s) {e : UInt8} {t piece : Bytes} (h : At s i (t ++ r))
    (he : EscapeText (e :: t) piece) : parseEscape s e i = .ok (piece, i + t.length) := by
  cases he with
  | quote | backslash | slash | backspace | formFeed | newline | carriageReturn | tab => rfl
  | unicode ha hb hc hd =>
    have hvalue := parseHex4_exact hs h ha hb hc hd
    change (parseHex4 s i >>= _) = _
    rw [bind_ok hvalue]
    rfl

/-- The turns that are left reach to the length that `len` reads. -/
theorem stringLoop_takes {turns : ℕ} {out : Bytes} (h : At s i r) (hpos : 0 < turns)
    (hturns : len s < turns + i) :
    Ends IsErr (fun got => ∃ t text rest, r = t ++ 34 :: rest ∧ CharsText t text ∧
      got.1 = out ++ text ∧ At s got.2 rest) (stringLoop s turns out i) := by
  induction turns generalizing i r out with
  | zero => omega
  | succ turns ih =>
    unfold stringLoop
    by_cases hi : (i : ℤ) < len s
    swap
    · rw [if_neg hi]
      exact failed_ends
    obtain ⟨b, rest, rfl⟩ := List.exists_cons_of_ne_nil (h.ne_nil hi)
    have hrest := h.tail
    rw [if_pos hi, bind_ok (byteAt_head h)]
    by_cases hquote : b = 34
    · rw [if_pos hquote, hquote]
      exact .ok ⟨[], [], rest, rfl, .nil, (List.append_nil out).symm, hrest⟩
    rw [if_neg hquote]
    by_cases hback : b = 92
    · rw [if_pos hback, hback]
      by_cases hend : ((i + 1 : ℕ) : ℤ) ≥ len s
      · rw [if_pos hend]
        exact failed_ends
      obtain ⟨e, after, rfl⟩ := List.exists_cons_of_ne_nil (hrest.ne_nil (Int.not_le.mp hend))
      rw [if_neg hend, bind_ok (byteAt_head hrest)]
      refine (parseEscape_takes hrest.tail).bind ?_
      rintro ⟨piece, i'⟩ ⟨t, after', rfl, hpiece, hat⟩
      have hmoved := hat.length
      have hlength := hrest.tail.length
      rw [List.length_append] at hlength
      refine (ih hat (by omega) (by omega)).mono ?_
      rintro ⟨got, i''⟩ ⟨t', text, rest', rfl, htext, hgot, hat'⟩
      refine ⟨92 :: ((e :: t) ++ t'), piece ++ text, rest', ?_, .escaped hpiece htext, ?_, hat'⟩
      · simp
      · rw [← List.append_assoc]
        exact hgot
    rw [if_neg hback]
    by_cases hcontrol : b < 32
    · rw [if_pos hcontrol]
      exact failed_ends
    · have hslice : strSlice s i (i + 1) = [b] := h.slice (t := [b])
      rw [if_neg hcontrol, hslice]
      refine (ih hrest (by omega) (by omega)).mono ?_
      rintro ⟨got, i'⟩ ⟨t, text, rest', rfl, htext, hgot, hat⟩
      refine ⟨b :: t, b :: text, rest', rfl,
        .unescaped (UInt8.not_lt.mp hcontrol) hquote hback htext, ?_, hat⟩
      rw [hgot, List.append_assoc]
      rfl

theorem stringLoop_exact (hs : Measured s) {t text : Bytes} (ht : CharsText t text) {turns : ℕ}
    {out : Bytes} (h : At s i (t ++ 34 :: r)) (hturns : t.length < turns) :
    stringLoop s turns out i = .ok (out ++ text, i + t.length + 1) := by
  induction ht generalizing i turns out with
  | nil =>
    obtain ⟨turns, rfl⟩ := Nat.exists_eq_succ_of_ne_zero (Nat.ne_zero_of_lt hturns)
    rw [stringLoop, if_pos ((h.lt_len hs).mpr (List.cons_ne_nil _ _)), bind_ok (byteAt_head h),
      if_pos rfl, List.append_nil]
    rfl
  | @unescaped b t text hb hquote hback _ ih =>
    obtain ⟨turns, rfl⟩ := Nat.exists_eq_succ_of_ne_zero (Nat.ne_zero_of_lt hturns)
    have hslice : strSlice s i (i + 1) = [b] := h.slice (t := [b])
    rw [List.length_cons] at hturns
    rw [stringLoop, if_pos ((h.lt_len hs).mpr (List.cons_ne_nil _ _)), bind_ok (byteAt_head h),
      if_neg hquote, if_neg hback, if_neg (UInt8.not_lt.mpr hb), hslice,
      ih h.tail (by omega), List.append_assoc, List.length_cons]
    congr 2
    omega
  | @escaped e piece t text he _ ih =>
    obtain ⟨turns, rfl⟩ := Nat.exists_eq_succ_of_ne_zero (Nat.ne_zero_of_lt hturns)
    obtain ⟨c, e', rfl⟩ : ∃ c e', e = c :: e' := by
      cases he <;> exact ⟨_, _, rfl⟩
    have hafter : At s (i + 1) (c :: (e' ++ (t ++ 34 :: r))) := by simpa using h.tail
    have hmore := (hafter.lt_len hs).mpr (List.cons_ne_nil _ _)
    have hescape := parseEscape_exact hs hafter.tail he
    rw [List.length_cons, List.length_append, List.length_cons] at hturns
    have hshort : t.length < turns := by omega
    have hnext := @ih _ turns (out ++ piece) hafter.tail.append hshort
    rw [stringLoop, if_pos ((h.lt_len hs).mpr (List.cons_ne_nil _ _)), bind_ok (byteAt_head h),
      if_neg (by decide), if_pos rfl, if_neg (Int.not_le.mpr hmore), bind_ok (byteAt_head hafter)]
    change (parseEscape s c (i + 1 + 1) >>= _) = _
    rw [bind_ok hescape]
    change stringLoop s turns (out ++ piece) _ = _
    rw [hnext, List.append_assoc]
    simp only [List.length_cons, List.length_append]
    congr 2
    omega

theorem parseString_takes (h : At s i r) :
    Ends IsErr (fun got => ∃ t rest, r = 34 :: (t ++ 34 :: rest) ∧ CharsText t got.1 ∧
      At s got.2 rest) (parseString s i) := by
  unfold parseString consume isAt
  by_cases hi : (i : ℤ) < len s
  swap
  · rw [if_neg hi]
    exact failed_ends
  obtain ⟨b, rest, rfl⟩ := List.exists_cons_of_ne_nil (h.ne_nil hi)
  rw [if_pos hi, bind_ok (byteAt_head h)]
  by_cases hquote : b = 34
  · subst hquote
    have hturns : len s < ((len s).toNat - (i + 1) + 1 : ℕ) + (i + 1 : ℕ) := by omega
    refine (stringLoop_takes h.tail (Nat.succ_pos _) hturns).mono ?_
    rintro ⟨got, i'⟩ ⟨t, text, rest', rfl, htext, hgot, hat'⟩
    cases hgot
    exact ⟨t, rest', rfl, htext, hat'⟩
  · have hother : (b == 34) = false := beq_false_of_ne hquote
    change Ends IsErr _ (if (b == 34) = true then _ else failed)
    rw [hother]
    exact failed_ends

theorem parseString_exact (hs : Measured s) {t text : Bytes} (ht : CharsText t text)
    (h : At s i (34 :: (t ++ 34 :: r))) : parseString s i = .ok (text, i + 1 + t.length + 1) := by
  have hturns := turns_left hs h.tail
  rw [List.length_append] at hturns
  rw [parseString, bind_ok (consume_here hs h)]
  dsimp only
  rw [if_pos rfl, stringLoop_exact hs ht h.tail (by omega), List.nil_append]

end Strings

end NewClLang.JsonScanning
