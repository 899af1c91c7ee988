import NewClLang.Lexer

set_option autoImplicit false

/-!
# Quoted strings

The literals that stand for a string, and what the lexer makes of them.
-/
namespace NewClLang.StringQuoting
open ExceptOutcomes PythonText Lexer
open TypeSyntax (isSpace)

section Quoting

/-- The value of a hexadecimal digit of ASCII. -/
def hexValue (c : Char) : Option ℕ :=
  if c.isDigit = true then some (c.toNat - 48)
  else if 'a' ≤ c ∧ c ≤ 'f' then some (c.toNat - 87)
  else if 'A' ≤ c ∧ c ≤ 'F' then some (c.toNat - 55)
  else none

/-- Hexadecimal digits of the code point, in either case, with any zeros in front. -/
structure HexOf (digits : List Char) (c : Char) : Prop where
  nonempty : digits ≠ []
  hex : ∀ d ∈ digits, (hexValue d).isSome = true
  value : positional 16 (digits.filterMap hexValue) = c.toNat

/-- The characters that do not stand for themselves. -/
def special : List Char := ['\\', '"', '\n', '\t', '\r', '\x7b', '\x7d']

/-- What may be written for a character. -/
inductive Spells : Char → List Char → Prop where
  | backslash : Spells '\\' ['\\', '\\']
  | quote : Spells '"' ['\\', '"']
  | newline : Spells '\n' ['\\', 'n']
  | tab : Spells '\t' ['\\', 't']
  | carriage : Spells '\r' ['\\', 'r']
  | opening : Spells '\x7b' ['\x7b', '\x7b']
  | closing : Spells '\x7d' ['\x7d', '\x7d']
  | literal {c : Char} (h : c ∉ special) : Spells c [c]
  | code {c : Char} {digits : List Char} (h : HexOf digits c) :
    Spells c (['\\', 'u', '\x7b'] ++ digits ++ ['\x7d'])

/-- A spelling of each character, one after the other. -/
inductive SpellsAll : List Char → List Char → Prop where
  | nil : SpellsAll [] []
  | cons {c : Char} {s text rest : List Char} (h : Spells c text) (hrest : SpellsAll s rest) :
    SpellsAll (c :: s) (text ++ rest)

/-- A string literal for the string. -/
def Quotes (s text : List Char) : Prop := ∃ body, SpellsAll s body ∧ text = '"' :: body ++ ['"']

theorem spelling (c : Char) : ∃ text, Spells c text := by
  by_cases h : c ∈ special
  · simp only [special, List.mem_cons, List.not_mem_nil, or_false] at h
    rcases h with rfl | rfl | rfl | rfl | rfl | rfl | rfl
    · exact ⟨_, .backslash⟩
    · exact ⟨_, .quote⟩
    · exact ⟨_, .newline⟩
    · exact ⟨_, .tab⟩
    · exact ⟨_, .carriage⟩
    · exact ⟨_, .opening⟩
    · exact ⟨_, .closing⟩
  · exact ⟨[c], .literal h⟩

theorem spelling_all (s : List Char) : ∃ body, SpellsAll s body := by
  induction s with
  | nil => exact ⟨[], .nil⟩
  | cons c s ih =>
    obtain ⟨text, htext⟩ := spelling c
    obtain ⟨body, hbody⟩ := ih
    exact ⟨text ++ body, .cons htext hbody⟩

end Quoting

section Codes
variable {py : Interpreter} {source rest digits : List Char} {c : Char} {i : ℕ}

theorem hex_range {d : Char} (h : (hexValue d).isSome = true) :
    (48 ≤ d.toNat ∧ d.toNat ≤ 57) ∨ (97 ≤ d.toNat ∧ d.toNat ≤ 102) ∨
      (65 ≤ d.toNat ∧ d.toNat ≤ 70) := by
  unfold hexValue at h
  split at h
  · exact Or.inl (digit_range ‹_›)
  · split at h
    · rename_i hrange
      exact Or.inr (Or.inl hrange)
    · split at h
      · rename_i hrange
        exact Or.inr (Or.inr hrange)
      · cases h

theorem digitValue_hex {d : Char} (h : (hexValue d).isSome = true) :
    digitValue py 16 d = hexValue d := by
  have hrange := hex_range h
  unfold digitValue hexValue
  rw [py.decimal_ascii d (by omega)]
  by_cases hdigit : d.isDigit = true
  · have hten := digit_range hdigit
    simp only [if_pos hdigit, Option.filter_some]
    rw [if_pos]
    simp only [decide_eq_true_eq]
    omega
  · have hdecimal : ¬(48 ≤ d.toNat ∧ d.toNat ≤ 57) := fun h => hdigit (Char.isDigit_iff_toNat.mpr h)
    simp only [if_neg hdigit]
    by_cases hlower : 'a' ≤ d ∧ d ≤ 'f'
    · have hz : 'a' ≤ d ∧ d ≤ 'z' := ⟨hlower.1, Nat.le_trans hlower.2 (by decide : 102 ≤ 122)⟩
      have hle : d.toNat ≤ 102 := hlower.2
      simp only [if_pos hlower, if_pos hz, Option.filter_some]
      rw [if_pos]
      simp only [decide_eq_true_eq]
      omega
    · have hupper : 65 ≤ d.toNat ∧ d.toNat ≤ 70 := by
        rcases hrange with hrange | hrange | hrange
        · exact absurd hrange hdecimal
        · exact absurd hrange hlower
        · exact hrange
      have hnot : ¬('a' ≤ d ∧ d ≤ 'z') := fun h => by
        have hle : 97 ≤ d.toNat := h.1
        omega
      have hf : 'A' ≤ d ∧ d ≤ 'F' := hupper
      have hz : 'A' ≤ d ∧ d ≤ 'Z' := ⟨hf.1, Nat.le_trans hf.2 (by decide : 70 ≤ 90)⟩
      simp only [if_neg hlower, if_neg hnot, if_pos hf, if_pos hz, Option.filter_some]
      rw [if_pos]
      simp only [decide_eq_true_eq]
      omega

theorem hex_ne {d e : Char} (h : (hexValue d).isSome = true) (he : hexValue e = none) : d ≠ e := by
  rintro rfl
  rw [he] at h
  cases h

theorem hex_space {d : Char} (h : (hexValue d).isSome = true) : intSpace d = false := by
  have hrange := hex_range h
  have hblank : d ≠ ' ' := hex_ne h (by decide)
  have hspace : isSpace d = false := by
    simp only [isSpace, List.contains_eq_mem, List.mem_cons, List.not_mem_nil, or_false, hblank,
      decide_false, Bool.false_or, Bool.or_eq_false_iff, Bool.and_eq_false_iff,
      decide_eq_false_iff_not]
    omega
  rw [intSpace, hspace, Bool.false_and]

theorem afterPrefix_hex (h : ∀ d ∈ digits, (hexValue d).isSome = true) :
    afterPrefix py digits = digits := by
  unfold afterPrefix
  split
  · rename_i zero x rest
    have hx : (hexValue x).isSome = true := h x (List.mem_cons_of_mem _ List.mem_cons_self)
    rw [if_neg]
    rintro ⟨-, hlower | hupper⟩
    · exact hex_ne hx (by decide) hlower
    · exact hex_ne hx (by decide) hupper
  · rfl

theorem pythonInt_hex (h : HexOf digits c) : pythonInt py digits 16 = .ok (c.toNat : ℤ) := by
  have hspace : ∀ d ∈ digits, intSpace d = false := fun d hd => hex_space (h.hex d hd)
  have hother {e : Char} (he : hexValue e = none) : e ∉ digits :=
    fun hmem => hex_ne (h.hex e hmem) he rfl
  have hplus : digits.head? ≠ some '+' := fun h => hother (by decide) (List.mem_of_head? h)
  have hminus : digits.head? ≠ some '-' := fun h => hother (by decide) (List.mem_of_head? h)
  have hall : digits.all (fun d => (digitValue py 16 d).isSome) = true :=
    List.all_eq_true.mpr fun d hd => by rw [digitValue_hex (h.hex d hd), h.hex d hd]
  have hvalues : digits.filterMap (digitValue py 16) = digits.filterMap hexValue :=
    List.filterMap_congr fun d hd => digitValue_hex (h.hex d hd)
  simp only [pythonInt, signed_strip hspace hplus hminus]
  rw [if_pos trivial, afterPrefix_hex h.hex, digitsOf_eq h.nonempty (hother (by decide)),
    if_pos hall, hvalues]
  simp only [h.value]
  rw [if_neg fun hten => absurd hten.1 (by decide), if_neg Bool.false_ne_true]

theorem chr_toNat (c : Char) : chr (c.toNat : ℤ) = .ok c := by
  have hvalid := c.valid
  have hlt : c.toNat < 0x110000 := by
    rcases hvalid with h | ⟨-, h⟩
    · exact Nat.lt_trans h (by decide)
    · exact h
  rw [chr, if_pos (by omega), Int.toNat_natCast, Char.ofNat_toNat]

theorem not_surrogate (c : Char) :
    ¬(0x10FFFF < (c.toNat : ℤ) ∨ (0xD800 ≤ (c.toNat : ℤ) ∧ (c.toNat : ℤ) ≤ 0xDFFF)) := by
  rcases c.valid with h | ⟨hlow, hhigh⟩
  · have hlt : c.toNat < 0xD800 := h
    omega
  · have hlt : 0xDFFF < c.toNat := hlow
    have hle : c.toNat < 0x110000 := hhigh
    omega

theorem decodeUnicode_code (h : HexOf digits c)
    (htext : source.drop (i + 3) = digits ++ '\x7d' :: rest) :
    decodeUnicode py source i = .ok ([c], i + 3 + digits.length + 1) := by
  have hbrace : ∀ d ∈ digits, (d != '\x7d') = true := fun d hd =>
    bne_iff_ne.mpr (hex_ne (h.hex d hd) (by decide))
  have htake : (source.drop (i + 3)).takeWhile (· != '\x7d') = digits := by
    rw [htext, List.takeWhile_append_of_pos hbrace, List.takeWhile_cons_of_neg (by decide),
      List.append_nil]
  have hlt : i + 3 + digits.length < source.length := by
    have hlength := congrArg List.length htext
    rw [List.length_drop, List.length_append, List.length_cons] at hlength
    omega
  have hstop : scanWhile (· != '\x7d') source (i + 3) = i + 3 + digits.length := by
    rw [scanWhile, htake]
  have hslice := slice_scanWhile (· != '\x7d') source (i + 3)
  rw [htake, hstop] at hslice
  simp only [decodeUnicode, hstop, hslice]
  rw [if_neg (by omega), if_neg h.nonempty, pythonInt_hex h]
  simp only
  rw [if_neg (not_surrogate c), chr_toNat]
  rfl

end Codes

section Literals
variable {py : Interpreter} {source rest s text body : List Char} {c : Char} {start i fuel : ℕ}
variable {chars : List Char} {parts : List Part}

theorem decodeEscape_simple {quote ec : Char} (hec : simpleEscape quote ec = some c)
    (htext : source.drop i = '\\' :: ec :: rest) :
    decodeEscape py source i quote = .ok ([c], i + 2) := by
  have hnext := drop_next htext
  have hlt := lt_of_drop hnext
  rw [decodeEscape, if_neg (by omega), bind_ok (charAt_cons hnext), hec]

theorem decodeEscape_code {digits : List Char} (h : HexOf digits c)
    (htext : source.drop i = '\\' :: 'u' :: '\x7b' :: (digits ++ '\x7d' :: rest)) :
    decodeEscape py source i '"' = .ok ([c], i + 3 + digits.length + 1) := by
  have hnext := drop_next htext
  have hafter := drop_next hnext
  have hlt := lt_of_drop hnext
  have hnone : simpleEscape '"' 'u' = none := by decide
  rw [decodeEscape, if_neg (by omega), bind_ok (charAt_cons hnext), hnone]
  simp only
  rw [bind_ok (nextIs_eq source (i + 2) '\x7b'), hafter]
  exact (if_pos (by simp)).trans (decodeUnicode_code h (drop_next hafter))

/-- A turn of the loop at a backslash. -/
theorem stringLoop_escape {value : List Char} {j : ℕ} (htext : source.drop i = '\\' :: rest)
    (h : decodeEscape py source i '"' = .ok (value, j)) :
    stringLoop py source start (fuel + 1) i chars parts false =
      stringLoop py source start fuel j (chars ++ value) parts false := by
  have hlt := lt_of_drop htext
  rw [stringLoop, if_neg (by omega), bind_ok (charAt_cons htext), if_neg (by decide), if_pos rfl,
    bind_ok h]

theorem stringLoop_literal (hc : c ∉ special) (htext : source.drop i = c :: rest) :
    stringLoop py source start (fuel + 1) i chars parts false =
      stringLoop py source start fuel (i + 1) (chars ++ [c]) parts false := by
  have hlt := lt_of_drop htext
  simp only [special, List.mem_cons, List.not_mem_nil, or_false, not_or] at hc
  rw [stringLoop, if_neg (by omega), bind_ok (charAt_cons htext), if_neg hc.2.1, if_neg hc.1,
    if_neg hc.2.2.2.2.2.1, if_neg hc.2.2.2.2.2.2]

/-- A turn of the loop at a doubled brace. -/
theorem stringLoop_brace (hc : c = '\x7b' ∨ c = '\x7d') (htext : source.drop i = c :: c :: rest) :
    stringLoop py source start (fuel + 1) i chars parts false =
      stringLoop py source start fuel (i + 2) (chars ++ [c]) parts false := by
  have hlt := lt_of_drop htext
  have hnext := drop_next htext
  rw [stringLoop, if_neg (by omega), bind_ok (charAt_cons htext)]
  rcases hc with rfl | rfl
  · rw [if_neg (by decide), if_neg (by decide), if_pos rfl, bind_ok (nextIs_eq source _ _), hnext]
    exact if_pos (by simp)
  · rw [if_neg (by decide), if_neg (by decide), if_neg (by decide), if_pos rfl,
      bind_ok (nextIs_eq source _ _), hnext]
    exact if_pos (by simp)

/-- The loop takes a spelling for its character. -/
theorem stringLoop_spelled (h : Spells c text) (htext : source.drop i = text ++ rest) :
    stringLoop py source start (fuel + 1) i chars parts false =
      stringLoop py source start fuel (i + text.length) (chars ++ [c]) parts false := by
  cases h with
  | backslash => exact stringLoop_escape htext (decodeEscape_simple (by decide) htext)
  | quote => exact stringLoop_escape htext (decodeEscape_simple (by decide) htext)
  | newline => exact stringLoop_escape htext (decodeEscape_simple (by decide) htext)
  | tab => exact stringLoop_escape htext (decodeEscape_simple (by decide) htext)
  | carriage => exact stringLoop_escape htext (decodeEscape_simple (by decide) htext)
  | opening => exact stringLoop_brace (Or.inl rfl) htext
  | closing => exact stringLoop_brace (Or.inr rfl) htext
  | literal hc => exact stringLoop_literal hc htext
  | @code _ digits h =>
    have hsplit : source.drop i = '\\' :: 'u' :: '\x7b' :: (digits ++ '\x7d' :: rest) := by
      rw [htext]
      simp
    have hlength : i + (['\\', 'u', '\x7b'] ++ digits ++ ['\x7d']).length =
        i + 3 + digits.length + 1 := by
      simp only [List.length_append, List.length_cons, List.length_nil]
      omega
    rw [hlength]
    exact stringLoop_escape hsplit (decodeEscape_code h hsplit)

theorem stringLoop_quoted (h : SpellsAll s body) (htext : source.drop i = body ++ '"' :: rest)
    (hfuel : s.length < fuel) :
    stringLoop py source start fuel i chars parts false =
      .ok (.plain (chars ++ s), i + body.length + 1) := by
  induction h generalizing i chars fuel with
  | nil =>
    obtain ⟨fuel, rfl⟩ := Nat.exists_eq_succ_of_ne_zero (Nat.ne_of_gt hfuel)
    have hlt := lt_of_drop htext
    rw [stringLoop, if_neg (by omega), bind_ok (charAt_cons htext), if_pos rfl, List.append_nil]
    rfl
  | @cons c s text body hspells hrest ih =>
    obtain ⟨fuel, rfl⟩ := Nat.exists_eq_succ_of_ne_zero (Nat.ne_of_gt (Nat.zero_lt_of_lt hfuel))
    rw [List.append_assoc] at htext
    have hlater : source.drop (i + text.length) = body ++ '"' :: rest := by
      rw [← List.drop_drop, htext, List.drop_left]
    rw [List.length_cons] at hfuel
    rw [stringLoop_spelled hspells htext, ih hlater (by omega), List.append_assoc,
      List.singleton_append, List.length_append, Nat.add_assoc i]

theorem Spells.nonempty (h : Spells c text) : 0 < text.length := by
  cases h <;> simp

theorem SpellsAll.length_le (h : SpellsAll s body) : s.length ≤ body.length := by
  induction h with
  | nil => exact Nat.le_refl 0
  | cons hspells _ ih =>
    have hpos := hspells.nonempty
    rw [List.length_cons, List.length_append]
    omega

theorem scanString_quoted (h : SpellsAll s body) :
    scanString py ('"' :: body ++ ['"']) 0 = .ok (.plain s, body.length + 2) := by
  have hlength : ('"' :: body ++ ['"']).length = body.length + 2 := by simp
  have hle := h.length_le
  have hloop : stringLoop py ('"' :: body ++ ['"']) 0 (body.length + 2) 1 [] [] false =
      .ok (.plain ([] ++ s), 1 + body.length + 1) := stringLoop_quoted h rfl (by omega)
  rw [scanString, hlength, Nat.sub_zero, Nat.zero_add, hloop, List.nil_append, Nat.add_comm 1]

/-- There is a literal for every string, and each literal for a string is one token with it. -/
theorem quoted_lexed (py : Interpreter) (s : List Char) :
    (∃ text, Quotes s text) ∧ ∀ text, Quotes s text →
      lex py text =
        .ok [⟨.string, .string (.plain s), text.length⟩, ⟨.eof, .text [], text.length⟩] := by
  constructor
  · obtain ⟨body, hbody⟩ := spelling_all s
    exact ⟨_, body, hbody, rfl⟩
  · rintro text ⟨body, hbody, rfl⟩
    have hlength : ('"' :: body ++ ['"']).length = body.length + 2 := by simp
    have hdigit : py.isdigit '"' = false := py.digit_ascii '"' (by decide)
    have hstep : lexStep py ('"' :: body ++ ['"']) 0 =
        .ok (some ⟨.string, .string (.plain s), body.length + 2⟩, body.length + 2) := by
      rw [lexStep, bind_ok (charAt_cons rfl), if_neg (by decide), if_neg (by decide), hdigit,
        if_neg Bool.false_ne_true, if_pos rfl, scanString_quoted hbody]
      rfl
    have hend : lexLoop py ('"' :: body ++ ['"']) (body.length + 2) (body.length + 2) =
        .ok ([], body.length + 2) := by
      rw [lexLoop, if_neg (by omega)]
    have hloop : lexLoop py ('"' :: body ++ ['"']) (body.length + 3) 0 =
        .ok ([⟨.string, .string (.plain s), body.length + 2⟩], body.length + 2) := by
      rw [lexLoop, if_pos (by omega), bind_ok hstep]
      simp only
      rw [bind_ok hend]
      rfl
    rw [lex, hlength, bind_ok hloop]
    rfl

/-- `"{{\na\u{E9}"`. -/
theorem quoted_lexed_mixed :
    lex ascii
        ['"', '\x7b', '\x7b', '\\', 'n', 'a', '\\', 'u', '\x7b', 'E', '9', '\x7d', '"'] =
      .ok [⟨.string, .string (.plain ['\x7b', '\n', 'a', 'é']), 13⟩, ⟨.eof, .text [], 13⟩] := by
  have hhex : ∀ d ∈ ['E', '9'], (hexValue d).isSome = true :=
    List.forall_mem_cons.mpr ⟨rfl, List.forall_mem_singleton.mpr rfl⟩
  have hcode : HexOf ['E', '9'] 'é' := ⟨List.cons_ne_nil _ _, hhex, rfl⟩
  have hletter : Spells 'a' ['a'] := .literal (by decide)
  have hbody := SpellsAll.cons .opening (.cons .newline (.cons hletter (.cons (.code hcode) .nil)))
  exact (quoted_lexed ascii ['\x7b', '\n', 'a', 'é']).2 _ ⟨_, hbody, rfl⟩

end Literals

end NewClLang.StringQuoting
