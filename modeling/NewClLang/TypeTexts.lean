import NewClLang.TypeSyntax

set_option autoImplicit false

/-!
# Printed types

The text of a type ends with the ` err` of the fallible function types on its way: a function type
ends with its result, and `*`, `[]` and `[N]` stand in front. The text before these is the body.
-/
namespace NewClLang.TypeTexts
open NestedTexts TypeRefs ModuleSyntax PrintedTypes TypeSyntax

section Definitions

/-- The function types on the way to the end of the text. -/
def spine : TypeRef → ℕ
  | .named _ => 0
  | .pointer inner _ => spine inner
  | .slice elem => spine elem
  | .array _ elem => spine elem
  | .function _ ret _ => spine ret + 1
  | .generic _ _ => 0

/-- The fallible ones among them. -/
def trailing : TypeRef → ℕ
  | .named _ => 0
  | .pointer inner _ => trailing inner
  | .slice elem => trailing elem
  | .array _ elem => trailing elem
  | .function _ ret fallible => trailing ret + if fallible then 1 else 0
  | .generic _ _ => 0

def text (r : TypeRef) : List Char := (formatTypeRef r).toList

def commas (ts : List (List Char)) : List Char := [','].intercalate ts

def stars (nullable : Bool) : List Char := if nullable then ['?', '*'] else ['*']

/-- The text without the ` err` at its end. -/
def body : TypeRef → List Char
  | .named name => name.toList
  | .pointer inner nullable => stars nullable ++ body inner
  | .slice elem => '[' :: ']' :: body elem
  | .array length elem => '[' :: (Nat.toDigits 10 length ++ ']' :: body elem)
  | .function params ret _ =>
    'f' :: 'n' :: '(' :: (commas (params.map text) ++ ')' :: '-' :: '>' :: body ret)
  | .generic base args => text base ++ '[' :: (commas (args.map text) ++ [']'])

def errs : ℕ → List Char
  | 0 => []
  | k + 1 => errs k ++ [' ', 'e', 'r', 'r']

mutual

/-- The type with `k` of the function types on its way fallible, from the outside. -/
def assign : ℕ → TypeRef → TypeRef
  | _, .named name => .named name
  | k, .pointer inner nullable => .pointer (assign k inner) nullable
  | k, .slice elem => .slice (assign k elem)
  | k, .array length elem => .array length (assign k elem)
  | k, .function params ret _ => .function (rereadAll params) (assign (k - 1) ret) (decide (0 < k))
  | _, .generic base args => .generic base (rereadAll args)

def rereadAll : List TypeRef → List TypeRef
  | [] => []
  | t :: ts => assign (trailing t) t :: rereadAll ts

end

/-- What is read back from the text of the type. -/
def reread (r : TypeRef) : TypeRef := assign (trailing r) r

theorem rereadAll_eq (ts : List TypeRef) : rereadAll ts = ts.map reread := by
  induction ts with
  | nil => rfl
  | cons t ts ih => rw [rereadAll, ih, List.map_cons, reread]

theorem formatTypeRefs_eq (ts : List TypeRef) : formatTypeRefs ts = ts.map formatTypeRef := by
  induction ts with
  | nil => rfl
  | cons t ts ih => rw [formatTypeRefs, ih, List.map_cons]

theorem commas_text (ts : List TypeRef) :
    (",".intercalate (formatTypeRefs ts)).toList = commas (ts.map text) := by
  rw [String.toList_intercalate, formatTypeRefs_eq, List.map_map]
  rfl

theorem text_eq (r : TypeRef) : text r = body r ++ errs (trailing r) := by
  cases r with
  | named name => simp [text, formatTypeRef, body, trailing, errs]
  | pointer inner nullable =>
    have ih := text_eq inner
    rw [text] at ih ⊢
    cases nullable <;> simp [formatTypeRef, body, trailing, stars, ih]
  | slice elem =>
    have ih := text_eq elem
    rw [text] at ih ⊢
    simp [formatTypeRef, body, trailing, ih]
  | array length elem =>
    have ih := text_eq elem
    rw [text] at ih ⊢
    simp [formatTypeRef, body, trailing, ih]
  | function params ret fallible =>
    have ih := text_eq ret
    have hcommas := commas_text params
    rw [text] at ih ⊢
    cases fallible with
    | true => simp [formatTypeRef, body, trailing, ih, hcommas, errs]
    | false => simp [formatTypeRef, body, trailing, ih, hcommas]
  | generic base args =>
    have hcommas := commas_text args
    simp [text, formatTypeRef, body, trailing, errs, hcommas]

theorem trailing_le (r : TypeRef) : trailing r ≤ spine r := by
  cases r with
  | named name => exact Nat.le_refl 0
  | pointer inner nullable => exact trailing_le inner
  | slice elem => exact trailing_le elem
  | array length elem => exact trailing_le elem
  | function params ret fallible =>
    have ih := trailing_le ret
    cases fallible <;> simp [trailing, spine] <;> omega
  | generic base args => exact Nat.le_refl 0

end Definitions

section Names

/-- What `_parse_type` and `parse_type_ref` accept as a name. -/
def IsTypeName (name : String) : Prop :=
  name.toList ≠ [] ∧ ∀ c ∈ name.toList, isWordChar c = true ∨ c = '.'

def areTypeNames (names : List String) : Bool :=
  names.all fun name => !name.toList.isEmpty && name.toList.all fun c => isWordChar c || c == '.'

theorem typeNames_of_test {names : List String} (h : areTypeNames names = true) :
    ∀ name ∈ names, IsTypeName name := by
  intro name hname
  have htest := List.all_eq_true.mp h name hname
  rw [Bool.and_eq_true, Bool.not_eq_true', List.isEmpty_eq_false_iff] at htest
  refine ⟨htest.1, fun c hc => ?_⟩
  have hchar := List.all_eq_true.mp htest.2 c hc
  rwa [Bool.or_eq_true, beq_iff_eq] at hchar

/-- The names are those of identifiers, and only names take arguments. -/
inductive WellNamed : TypeRef → Prop where
  | named {name : String} (h : IsTypeName name) : WellNamed (.named name)
  | pointer {inner : TypeRef} {nullable : Bool} (h : WellNamed inner) :
      WellNamed (.pointer inner nullable)
  | slice {elem : TypeRef} (h : WellNamed elem) : WellNamed (.slice elem)
  | array {length : ℕ} {elem : TypeRef} (h : WellNamed elem) : WellNamed (.array length elem)
  | function {params : List TypeRef} {ret : TypeRef} {fallible : Bool}
      (hparams : ∀ p ∈ params, WellNamed p) (hret : WellNamed ret) :
      WellNamed (.function params ret fallible)
  | generic {name : String} {args : List TypeRef} (h : IsTypeName name)
      (hargs : ∀ a ∈ args, WellNamed a) : WellNamed (.generic (.named name) args)

end Names

section Shapes

/-- The pairs of brackets of a printed type. -/
def brackets : List (Char × Char) := [('[', ']'), ('(', ')')]

/-- What holds of every printed type: its brackets match, no comma stands outside of them, and no
    white space is at its ends. -/
structure Printed (t : List Char) : Prop where
  nested : Nested brackets ',' false t
  first : ∃ c rest, t = c :: rest ∧ isSpace c = false
  last : ∃ front c, t = front ++ [c] ∧ isSpace c = false

theorem strip_eq {t : List Char} (hfirst : ∃ c rest, t = c :: rest ∧ isSpace c = false)
    (hlast : ∃ front c, t = front ++ [c] ∧ isSpace c = false) : strip t = t := by
  obtain ⟨c, rest, rfl, hc⟩ := hfirst
  obtain ⟨front, d, hd, hspace⟩ := hlast
  have hdrop : (c :: rest).dropWhile isSpace = c :: rest :=
    List.dropWhile_cons_of_neg (by rw [hc]; exact Bool.false_ne_true)
  rw [strip, hdrop, hd]
  exact List.rdropWhile_concat_neg _ _ _ (by rw [hspace]; exact Bool.false_ne_true)

theorem Printed.strip {t : List Char} (h : Printed t) : strip t = t := strip_eq h.first h.last

theorem wordChar_ne {c : Char} (h : isWordChar c = true ∨ c = '.') :
    isSpace c = false ∧ c ∉ ['*', '?', '[', ']', '(', ')', ',', '-', '>', ' '] := by
  rcases h with h | rfl
  · rw [isWordChar, Bool.and_eq_true, isNameChar] at h
    obtain ⟨hmark, hspace⟩ := h
    refine ⟨by simpa using hspace, ?_⟩
    intro hmem
    simp only [List.mem_cons, List.not_mem_nil, or_false] at hmem
    rcases hmem with rfl | rfl | rfl | rfl | rfl | rfl | rfl | rfl | rfl | rfl <;>
      exact absurd hmark (by decide)
  · decide

theorem IsTypeName.nested {name : String} (h : IsTypeName name) :
    Nested brackets ',' false name.toList := by
  refine nested_plain ?_
  intro c hc
  have hne := (wordChar_ne (h.2 c hc)).2
  simp only [List.mem_cons, List.not_mem_nil, or_false, not_or] at hne
  obtain ⟨-, -, ho, hc, hp, hq, hcomma, -⟩ := hne
  simp [brackets, ho, hc, hp, hq, hcomma]

theorem IsTypeName.printed {name : String} (h : IsTypeName name) : Printed name.toList := by
  refine ⟨h.nested, ?_, ?_⟩
  · obtain ⟨c, rest, heq⟩ := List.exists_cons_of_ne_nil h.1
    have hc : c ∈ name.toList := by rw [heq]; exact List.mem_cons_self
    exact ⟨c, rest, heq, (wordChar_ne (h.2 c hc)).1⟩
  · have heq := List.dropLast_append_getLast h.1
    have hc := List.getLast_mem h.1
    exact ⟨_, _, heq.symm, (wordChar_ne (h.2 _ hc)).1⟩

theorem Printed.errs {t : List Char} (h : Printed t) (k : ℕ) : Printed (t ++ errs k) := by
  induction k with
  | zero =>
    rw [TypeTexts.errs, List.append_nil]
    exact h
  | succ k ih =>
    rw [TypeTexts.errs, ← List.append_assoc]
    obtain ⟨c, rest, heq, hc⟩ := ih.first
    have herr : Nested brackets ',' false [' ', 'e', 'r', 'r'] := nested_plain (by simp [brackets])
    refine ⟨ih.nested.append herr, ⟨c, rest ++ [' ', 'e', 'r', 'r'], ?_, hc⟩,
      ⟨t ++ TypeTexts.errs k ++ [' ', 'e', 'r'], 'r', by simp, by decide⟩⟩
    rw [heq, List.cons_append]

/-- Marks in front. -/
theorem Printed.front {t : List Char} (h : Printed t) {s : List Char} {c : Char}
    (hs : Nested brackets ',' false (c :: s)) (hc : isSpace c = false) : Printed (c :: (s ++ t)) := by
  refine ⟨?_, ⟨c, s ++ t, rfl, hc⟩, ?_⟩
  · rw [← List.cons_append]
    exact hs.append h.nested
  · obtain ⟨front, d, heq, hd⟩ := h.last
    exact ⟨c :: (s ++ front), d, by rw [heq]; simp, hd⟩

theorem nested_commas {ts : List TypeRef} (h : ∀ t ∈ ts, Printed (text t)) :
    Nested brackets ',' true (commas (ts.map text)) := by
  refine nested_join (by decide) ?_
  intro t ht
  obtain ⟨r, hr, rfl⟩ := List.mem_map.mp ht
  exact (h r hr).nested.weaken

theorem nested_digits (n : ℕ) : Nested brackets ',' true (Nat.toDigits 10 n) := by
  refine nested_plain ?_
  intro c hc
  have hdigit := Nat.isDigit_of_mem_toDigits (by decide) (by decide) hc
  refine ⟨?_, ?_⟩
  · rintro rfl
    exact absurd hdigit (by decide)
  · intro p hp
    simp only [brackets, List.mem_cons, List.not_mem_nil, or_false] at hp
    rcases hp with rfl | rfl <;> refine ⟨?_, ?_⟩ <;> rintro rfl <;> exact absurd hdigit (by decide)

theorem WellNamed.body_printed {r : TypeRef} (h : WellNamed r) : Printed (body r) := by
  induction h with
  | named h => exact h.printed
  | @pointer inner nullable _ ih =>
    cases nullable with
    | true => exact ih.front (s := ['*']) (nested_plain (by simp [brackets])) (by decide)
    | false => exact ih.front (s := []) (nested_plain (by simp [brackets])) (by decide)
  | slice _ ih =>
    exact ih.front (s := [']']) (.enclosed (s := []) List.mem_cons_self .nil .nil) (by decide)
  | @array length elem _ ih =>
    have hnested : Nested brackets ',' false ('[' :: (Nat.toDigits 10 length ++ [']'])) :=
      .enclosed List.mem_cons_self (nested_digits length) .nil
    have hfront := ih.front hnested (by decide)
    rw [List.append_assoc] at hfront
    exact hfront
  | @function params ret fallible _ _ ihp ihr =>
    have hparams : Nested brackets ',' true (commas (params.map text)) :=
      nested_commas (fun p hp => text_eq p ▸ (ihp p hp).errs _)
    have hnested : Nested brackets ',' false
        ('f' :: 'n' :: '(' :: (commas (params.map text) ++ ')' :: ['-', '>'])) :=
      .plain (by decide) (by decide) (.plain (by decide) (by decide)
        (.enclosed (List.mem_cons_of_mem _ List.mem_cons_self) hparams
          (nested_plain (by simp [brackets]))))
    have hfront := ihr.front hnested (by decide)
    simpa [body] using hfront
  | @generic name args h _ ih =>
    have hargs : Nested brackets ',' true (commas (args.map text)) :=
      nested_commas (fun a ha => text_eq a ▸ (ih a ha).errs _)
    have hname := h.printed
    obtain ⟨c, rest, heq, hc⟩ := hname.first
    refine ⟨?_, ?_, ?_⟩
    · exact hname.nested.append (.enclosed List.mem_cons_self hargs .nil)
    · refine ⟨c, rest ++ '[' :: (commas (args.map text) ++ [']']), ?_, hc⟩
      change name.toList ++ _ = _
      rw [heq, List.cons_append]
    · exact ⟨name.toList ++ '[' :: commas (args.map text), ']', by simp [body, text, formatTypeRef],
        by decide⟩

theorem WellNamed.printed {r : TypeRef} (h : WellNamed r) : Printed (text r) := by
  rw [text_eq]
  exact h.body_printed.errs _

/-- No ` err` is left at the end of the body. -/
theorem not_suffix_append {s t : List Char} {c : Char} (hc : c ∉ [' ', 'e', 'r', 'r'])
    (ht : ¬ [' ', 'e', 'r', 'r'] <:+ t) : ¬ [' ', 'e', 'r', 'r'] <:+ s ++ c :: t := by
  intro hsuffix
  rcases List.suffix_or_suffix_of_suffix hsuffix (List.suffix_append s (c :: t)) with hin | hout
  · rcases List.suffix_cons_iff.mp hin with heq | hin
    · exact hc (heq ▸ List.mem_cons_self)
    · exact ht hin
  · exact hc (hout.subset List.mem_cons_self)

theorem WellNamed.body_not_err {r : TypeRef} (h : WellNamed r) :
    ¬ [' ', 'e', 'r', 'r'] <:+ body r := by
  induction h with
  | named h =>
    intro hsuffix
    have hspace := hsuffix.subset List.mem_cons_self
    exact absurd (wordChar_ne (h.2 ' ' hspace)).1 (by decide)
  | @pointer inner nullable _ ih =>
    cases nullable with
    | true => exact not_suffix_append (s := ['?']) (by decide) ih
    | false => exact not_suffix_append (s := []) (by decide) ih
  | slice _ ih => exact not_suffix_append (s := ['[']) (by decide) ih
  | @array length elem _ ih =>
    exact not_suffix_append (s := '[' :: Nat.toDigits 10 length) (by decide) ih
  | @function params ret fallible _ _ _ ih =>
    have happend := not_suffix_append
      (s := 'f' :: 'n' :: '(' :: (commas (params.map text) ++ [')', '-'])) (c := '>') (by decide) ih
    simpa [body] using happend
  | @generic name args h _ _ =>
    have happend := not_suffix_append (s := name.toList ++ '[' :: commas (args.map text))
      (c := ']') (t := []) (by decide) (by decide)
    simpa [body, text, formatTypeRef] using happend

end Shapes

end NewClLang.TypeTexts
