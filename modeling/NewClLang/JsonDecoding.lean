import Mathlib.Data.List.Nodup
import NewClLang.JsonScanning
import NewClLang.RuneEncoding

set_option autoImplicit false

/-!
# Decoding of string literals

What `_parse_string` makes of a literal beside what the literal denotes. An escape is turned to
bytes by itself, so that two which stand for one character are not put together.
-/
namespace NewClLang.JsonDecoding
open WrappedIntegers ExceptOutcomes JsonGrammar JsonModule JsonTrees JsonScanning RuneEncoding

section Denotation

/-- The characters that may follow a backslash by themselves, and what they stand for. -/
def shortEscapes : List (UInt8 × UInt8) :=
  [(34, 34), (92, 92), (47, 47), (98, 8), (102, 12), (110, 10), (114, 13), (116, 9)]

def hexNumber (b : UInt8) : ℕ :=
  if b ≤ 57 then b.toNat - 48 else if b ≤ 70 then b.toNat - 55 else b.toNat - 87

/-- The code unit of four hexadecimal digits. -/
def codeUnit (a b c d : UInt8) : ℕ :=
  ((hexNumber a * 16 + hexNumber b) * 16 + hexNumber c) * 16 + hexNumber d

structure IsUnit (a b c d : UInt8) (u : ℕ) : Prop where
  first : HexDigit a
  second : HexDigit b
  third : HexDigit c
  fourth : HexDigit d
  value : codeUnit a b c d = u

/-- The characters between the quotes of a literal, and the bytes they denote. -/
inductive Denotes : Bytes → Bytes → Prop where
  | nil : Denotes [] []
  | unescaped {b : UInt8} {t s : Bytes} (h : 32 ≤ b) (hquote : b ≠ 34) (hback : b ≠ 92)
      (ht : Denotes t s) : Denotes (b :: t) (b :: s)
  | short {e c : UInt8} {t s : Bytes} (h : (e, c) ∈ shortEscapes) (ht : Denotes t s) :
      Denotes (92 :: e :: t) (c :: s)
  | unit {a b c d : UInt8} {u : Char} {t s : Bytes} (h : IsUnit a b c d u.val.toNat)
      (ht : Denotes t s) :
      Denotes (92 :: 117 :: a :: b :: c :: d :: t) (String.utf8EncodeChar u ++ s)
  /-- A high surrogate followed by a low one. -/
  | pair {a b c d a' b' c' d' : UInt8} {high low : ℕ} {u : Char} {t s : Bytes} (hhigh : high < 1024)
      (hlow : low < 1024) (h : IsUnit a b c d (0xD800 + high))
      (h' : IsUnit a' b' c' d' (0xDC00 + low)) (hu : u.val.toNat = 0x10000 + high * 1024 + low)
      (ht : Denotes t s) :
      Denotes (92 :: 117 :: a :: b :: c :: d :: 92 :: 117 :: a' :: b' :: c' :: d' :: t)
        (String.utf8EncodeChar u ++ s)

/-- The code units that are written as escapes. -/
def escapedUnits : Bytes → List ℕ
  | 92 :: 117 :: a :: b :: c :: d :: t => codeUnit a b c d :: escapedUnits t
  | 92 :: _ :: t => escapedUnits t
  | _ :: t => escapedUnits t
  | [] => []

/-- What stands between the quotes of the literal that begins at `i` and ends before `j`. -/
def literal (s : Bytes) (i j : ℕ) : Bytes := strSlice s (i + 1) (j - 1)

theorem escapedUnits_unescaped {b : UInt8} (t : Bytes) (h : b ≠ 92) :
    escapedUnits (b :: t) = escapedUnits t := by
  rw [escapedUnits.eq_def]
  split <;> simp_all

theorem escapedUnits_short {e : UInt8} (t : Bytes) (h : e ≠ 117) :
    escapedUnits (92 :: e :: t) = escapedUnits t := by
  rw [escapedUnits.eq_2]
  rintro a b c d t' rfl
  exact absurd rfl h

theorem escapedUnits_unit (a b c d : UInt8) (t : Bytes) :
    escapedUnits (92 :: 117 :: a :: b :: c :: d :: t) = codeUnit a b c d :: escapedUnits t := by
  rw [escapedUnits]

end Denotation

section Texts

theorem hexValue_eq {b : UInt8} {v : ℕ} (h : hexValue b = .ok v) :
    HexDigit b ∧ hexNumber b = v := by
  refine ⟨hexValue_ok h, ?_⟩
  unfold hexValue at h
  unfold hexNumber
  by_cases h₁ : 48 ≤ b ∧ b ≤ 57
  · rw [if_pos h₁] at h
    rw [if_pos h₁.2]
    exact Except.ok.inj h
  rw [if_neg h₁] at h
  by_cases h₂ : 65 ≤ b ∧ b ≤ 70
  · have habove : ¬ b ≤ 57 := by
      rw [UInt8.not_le]
      exact UInt8.lt_of_lt_of_le (by decide) h₂.1
    rw [if_pos h₂] at h
    rw [if_neg habove, if_pos h₂.2]
    exact Except.ok.inj h
  rw [if_neg h₂] at h
  by_cases h₃ : 97 ≤ b ∧ b ≤ 102
  · have habove : ¬ b ≤ 57 := by
      rw [UInt8.not_le]
      exact UInt8.lt_of_lt_of_le (by decide) h₃.1
    have habove' : ¬ b ≤ 70 := by
      rw [UInt8.not_le]
      exact UInt8.lt_of_lt_of_le (by decide) h₃.1
    rw [if_pos h₃] at h
    rw [if_neg habove, if_neg habove']
    exact Except.ok.inj h
  · rw [if_neg h₃] at h
    cases h

/-- A code unit that is no character by itself. -/
def SurrogateUnit (u : ℕ) : Prop := 0xD800 ≤ u ∧ u ≤ 0xDFFF

/-- No escape of the text is for a surrogate. -/
def PlainUnits (t : Bytes) : Prop := ∀ u ∈ escapedUnits t, ¬ SurrogateUnit u

/-- An escape is one of the short ones, or has the digits of a code unit. -/
theorem escapeText_forms {e piece : Bytes} (h : EscapeText e piece) :
    (∃ b c, e = [b] ∧ piece = [c] ∧ (b, c) ∈ shortEscapes) ∨
      ∃ a b c d u, e = [117, a, b, c, d] ∧ IsUnit a b c d u ∧ piece = strRune u := by
  cases h with
  | quote => exact Or.inl ⟨34, 34, rfl, rfl, by decide⟩
  | backslash => exact Or.inl ⟨92, 92, rfl, rfl, by decide⟩
  | slash => exact Or.inl ⟨47, 47, rfl, rfl, by decide⟩
  | backspace => exact Or.inl ⟨98, 8, rfl, rfl, by decide⟩
  | formFeed => exact Or.inl ⟨102, 12, rfl, rfl, by decide⟩
  | newline => exact Or.inl ⟨110, 10, rfl, rfl, by decide⟩
  | carriageReturn => exact Or.inl ⟨114, 13, rfl, rfl, by decide⟩
  | tab => exact Or.inl ⟨116, 9, rfl, rfl, by decide⟩
  | @unicode a b c d va vb vc vd ha hb hc hd =>
    obtain ⟨ha, hva⟩ := hexValue_eq ha
    obtain ⟨hb, hvb⟩ := hexValue_eq hb
    obtain ⟨hc, hvc⟩ := hexValue_eq hc
    obtain ⟨hd, hvd⟩ := hexValue_eq hd
    refine Or.inr ⟨a, b, c, d, _, rfl, ⟨ha, hb, hc, hd, ?_⟩, rfl⟩
    rw [codeUnit, hva, hvb, hvc, hvd, Nat.zero_mul, Nat.zero_add]

/-- A short escape stands for one byte. -/
theorem shortEscapes_unique {e c c' : UInt8} (h : (e, c) ∈ shortEscapes)
    (h' : (e, c') ∈ shortEscapes) : c = c' := by
  have hkeys : (shortEscapes.map Prod.fst).Nodup := by decide
  have hpair := List.inj_on_of_nodup_map hkeys h h' rfl
  exact congrArg Prod.snd hpair

theorem short_ne_unit {e c : UInt8} (h : (e, c) ∈ shortEscapes) : e ≠ 117 := by
  rintro rfl
  simp [shortEscapes] at h

theorem hexNumber_lt {x : UInt8} (h : HexDigit x) : hexNumber x < 16 := by
  unfold HexDigit Digit at h
  unfold hexNumber
  simp only [UInt8.le_iff_toNat_le, UInt8.reduceToNat] at h ⊢
  split_ifs <;> omega

theorem codeUnit_lt {a b c d : UInt8} {u : ℕ} (h : IsUnit a b c d u) : u < 65536 := by
  have ha := hexNumber_lt h.first
  have hb := hexNumber_lt h.second
  have hc := hexNumber_lt h.third
  have hd := hexNumber_lt h.fourth
  have hvalue := h.value
  unfold codeUnit at hvalue
  omega

/-- A code unit that is no surrogate is a character. -/
theorem unit_char {u : ℕ} (hlt : u < 65536) (h : ¬ SurrogateUnit u) :
    ∃ c : Char, c.val.toNat = u := by
  unfold SurrogateUnit at h
  have hvalid : u.isValidChar := by
    unfold Nat.isValidChar
    omega
  have hsize : u < UInt32.size := Nat.lt_trans hlt (by decide)
  refine ⟨⟨UInt32.ofNatLT u hsize, ?_⟩, UInt32.toNat_ofNatLT⟩
  rw [UInt32.isValidChar, UInt32.toNat_ofNatLT]
  exact hvalid

end Texts

section Literals

/-- The bytes of a surrogate begin no character's. -/
theorem surrogate_ne_pair {u : ℕ} {c : Char} {s s' : Bytes} (hu : SurrogateUnit u)
    (hc : 0x10000 ≤ c.val.toNat) :
    strRune u ++ s ≠ String.utf8EncodeChar c ++ s' := by
  have hvalid := c.valid
  simp only [UInt32.isValidChar, Nat.isValidChar] at hvalid
  obtain ⟨hlow, hhigh⟩ := hu
  rw [← strRune_scalar]
  generalize c.val.toNat = n at hc hvalid
  intro heq
  rw [strRune, if_neg (by omega), if_neg (by omega), if_neg (by omega), if_pos (by omega), strRune,
    if_neg (by omega), if_neg (by omega), if_neg (by omega), if_pos (by omega)] at heq
  obtain ⟨hfirst, hrest⟩ := List.cons.inj heq
  have hsecond := (List.cons.inj hrest).1
  have hlead := congrArg UInt8.toNat hfirst
  have htail := congrArg UInt8.toNat hsecond
  rw [UInt8.toNat_ofNat', UInt8.toNat_ofNat'] at hlead htail
  omega

theorem denotes_unescaped {b : UInt8} {t s : Bytes} (h : 32 ≤ b) (hquote : b ≠ 34)
    (hback : b ≠ 92) : Denotes (b :: t) (b :: s) ↔ Denotes t s := by
  constructor
  · intro hd
    generalize hx : b :: s = x at hd
    cases hd with
    | unescaped _ _ _ ht =>
      cases hx
      exact ht
    | short _ _ => exact absurd rfl hback
    | unit _ _ => exact absurd rfl hback
    | pair _ _ _ _ _ _ => exact absurd rfl hback
  · exact .unescaped h hquote hback

theorem denotes_short {e c : UInt8} {t s : Bytes} (h : (e, c) ∈ shortEscapes) :
    Denotes (92 :: e :: t) (c :: s) ↔ Denotes t s := by
  constructor
  · intro hd
    generalize hx : c :: s = x at hd
    cases hd with
    | unescaped _ _ hback _ => exact absurd rfl hback
    | short _ ht =>
      cases hx
      exact ht
    | unit _ _ => exact absurd rfl (short_ne_unit h)
    | pair _ _ _ _ _ _ => exact absurd rfl (short_ne_unit h)
  · exact .short h

/-- An escape for a character is read by itself. -/
theorem denotes_unit {a b c d : UInt8} {u : ℕ} {t s : Bytes} (h : IsUnit a b c d u)
    (hu : ¬ SurrogateUnit u) :
    Denotes (92 :: 117 :: a :: b :: c :: d :: t) (strRune u ++ s) ↔ Denotes t s := by
  obtain ⟨char, rfl⟩ := unit_char (codeUnit_lt h) hu
  rw [strRune_scalar]
  constructor
  · intro hd
    generalize hx : String.utf8EncodeChar char ++ s = x at hd
    cases hd with
    | unescaped _ _ hback _ => exact absurd rfl hback
    | short hmem _ => exact absurd rfl (short_ne_unit hmem)
    | @unit _ _ _ _ char' _ _ h' ht =>
      have hsame : char = char' := by
        rw [← Char.val_inj, ← UInt32.toNat_inj]
        exact h.value.symm.trans h'.value
      rw [hsame, List.append_cancel_left_eq] at hx
      rw [hx]
      exact ht
    | @pair _ _ _ _ _ _ _ _ high _ _ _ _ hhigh _ h' _ _ _ =>
      have hvalue := h.value.symm.trans h'.value
      refine absurd ⟨?_, ?_⟩ hu <;> omega
  · exact .unit h

/-- One for a surrogate leaves bytes that nothing denotes. -/
theorem not_denotes_surrogate {a b c d : UInt8} {u : ℕ} {t s : Bytes} (h : IsUnit a b c d u)
    (hu : SurrogateUnit u) : ¬ Denotes (92 :: 117 :: a :: b :: c :: d :: t) (strRune u ++ s) := by
  intro hd
  generalize hx : strRune u ++ s = x at hd
  cases hd with
  | unescaped _ _ hback _ => exact absurd rfl hback
  | short hmem _ => exact absurd rfl (short_ne_unit hmem)
  | @unit _ _ _ _ char _ _ h' _ =>
    have hvalid := char.valid
    have hvalue := h.value.symm.trans h'.value
    simp only [UInt32.isValidChar, Nat.isValidChar] at hvalid
    unfold SurrogateUnit at hu
    omega
  | pair _ _ _ _ hchar _ => exact surrogate_ne_pair hu (by omega) hx

theorem plainUnits_unit {a b c d : UInt8} {u : ℕ} {t : Bytes} (h : IsUnit a b c d u) :
    PlainUnits (92 :: 117 :: a :: b :: c :: d :: t) ↔ ¬ SurrogateUnit u ∧ PlainUnits t := by
  rw [PlainUnits, escapedUnits_unit, h.value, List.forall_mem_cons]
  rfl

/-- What the loop puts out is what the text denotes if and only if no escape is for a
    surrogate. -/
theorem denotes_iff {t s : Bytes} (h : CharsText t s) : Denotes t s ↔ PlainUnits t := by
  induction h with
  | nil => exact ⟨fun _ u hu => absurd hu List.not_mem_nil, fun _ => .nil⟩
  | @unescaped b t s hb hquote hback _ ih =>
    rw [denotes_unescaped hb hquote hback, ih, PlainUnits, PlainUnits,
      escapedUnits_unescaped t hback]
  | @escaped e piece t s he _ ih =>
    rcases escapeText_forms he with ⟨b, c, rfl, rfl, hmem⟩ | ⟨a, b, c, d, u, rfl, hunit, rfl⟩
    · change Denotes (92 :: b :: t) (c :: s) ↔ PlainUnits (92 :: b :: t)
      rw [denotes_short hmem, ih, PlainUnits, PlainUnits,
        escapedUnits_short t (short_ne_unit hmem)]
    · change Denotes (92 :: 117 :: a :: b :: c :: d :: t) (strRune u ++ s) ↔
        PlainUnits (92 :: 117 :: a :: b :: c :: d :: t)
      rw [plainUnits_unit hunit]
      by_cases hu : SurrogateUnit u
      · exact ⟨fun hd => absurd hd (not_denotes_surrogate hunit hu), fun hp => absurd hu hp.1⟩
      · rw [denotes_unit hunit hu, ih]
        exact ⟨fun hp => ⟨hu, hp⟩, fun hp => hp.2⟩

/-- Only at a cursor inside the text is a literal accepted. -/
theorem parseString_inside {s out : Bytes} {i j : ℕ} (h : parseString s i = .ok (out, j)) :
    i ≤ s.length := by
  by_contra hbeyond
  have hread : len s ≤ s.length := wrap32_le (Int.natCast_nonneg _)
  have hend : ¬ (i : ℤ) < len s := by omega
  rw [parseString, consume, isAt, if_neg hend] at h
  cases h

theorem literal_eq {s t rest : Bytes} {i j : ℕ} (h : At s i (34 :: (t ++ 34 :: rest)))
    (hj : At s j rest) : literal s i j = t := by
  have hbegin := h.length
  have hend := hj.length
  rw [List.length_cons, List.length_append, List.length_cons] at hbegin
  have hj' : j - 1 = i + 1 + t.length := by omega
  rw [literal, hj']
  exact h.tail.slice

theorem parseString_charsText {s out : Bytes} {i j : ℕ} (h : parseString s i = .ok (out, j)) :
    CharsText (literal s i j) out := by
  have hat : At s i (s.drop i) := ⟨parseString_inside h, rfl⟩
  obtain ⟨t, rest, hrest, htext, hat'⟩ := (parseString_takes hat).result h
  rw [hrest] at hat
  rw [literal_eq hat hat']
  exact htext

/-- An accepted literal is decoded to what it denotes if and only if no escape in it is for a
    surrogate. -/
theorem parseString_denotes_iff {s out : Bytes} {i j : ℕ} (h : parseString s i = .ok (out, j)) :
    Denotes (literal s i j) out ↔ PlainUnits (literal s i j) :=
  denotes_iff (parseString_charsText h)

theorem parseString_denotes_newline :
    Denotes (literal [34, 92, 110, 34] 0 4) [10] ↔ PlainUnits (literal [34, 92, 110, 34] 0 4) :=
  parseString_denotes_iff rfl

/-- `"\ud83d\ude00"` -/
def pairLiteral : Bytes :=
  [34, 92, 117, 100, 56, 51, 100, 92, 117, 100, 101, 48, 48, 34]

theorem pair_not_decoded :
    ∃ out j, parseString pairLiteral 0 = .ok (out, j) ∧ ¬ Denotes (literal pairLiteral 0 j) out ∧
      Denotes (literal pairLiteral 0 j) (String.utf8EncodeChar (Char.ofNat 0x1F600)) := by
  have hread : parseString pairLiteral 0 = .ok (strRune 0xD83D ++ strRune 0xDE00, 14) := rfl
  refine ⟨_, _, hread, ?_, ?_⟩
  · rw [denotes_iff (parseString_charsText hread)]
    exact fun h => h 0xD83D (by decide) ⟨by decide, by decide⟩
  · have hhigh : IsUnit 100 56 51 100 (0xD800 + 0x3D) :=
      ⟨by decide, by decide, by decide, by decide, rfl⟩
    have hlow : IsUnit 100 101 48 48 (0xDC00 + 0x200) :=
      ⟨by decide, by decide, by decide, by decide, rfl⟩
    have hpair := Denotes.pair (u := Char.ofNat 0x1F600) (by decide) (by decide) hhigh hlow
      (by decide) .nil
    rwa [List.append_nil] at hpair

end Literals

end NewClLang.JsonDecoding
