import NewClLang.ExceptOutcomes
import NewClLang.TypeSyntax

set_option autoImplicit false

/-!
# Characters and numbers in Python

What `str`, `int` and `chr` do with the text of a program. A text is the list of its characters.
-/
namespace NewClLang.PythonText
open ExceptOutcomes
open TypeSyntax (isSpace)

section Interpreters

/-- What differs between versions of Python: the Unicode tables behind the predicates of `str`, and
`sys.get_int_max_str_digits()`, which is 0 where there is no limit. -/
structure Interpreter where
  isdigit : Char → Bool
  isalpha : Char → Bool
  isnumeric : Char → Bool
  decimal : Char → Option ℕ
  maxStrDigits : ℕ
  digit_ascii : ∀ c, c.toNat < 128 → isdigit c = c.isDigit
  alpha_ascii : ∀ c, c.toNat < 128 → isalpha c = c.isAlpha
  decimal_ascii : ∀ c, c.toNat < 128 → decimal c = if c.isDigit then some (c.toNat - 48) else none
  decimal_digit : ∀ c d, decimal c = some d → isdigit c = true ∧ d < 10
  digit_space : ∀ c, isdigit c = true → isSpace c = false

variable (py : Interpreter)

def Interpreter.isalnum (c : Char) : Bool :=
  py.isalpha c || (py.decimal c).isSome || py.isdigit c || py.isnumeric c

inductive Raised where
  | syntaxError (message : String)
  | valueError
  | indexError
  | unfinished

theorem digit_range {c : Char} (h : c.isDigit = true) : 48 ≤ c.toNat ∧ c.toNat ≤ 57 :=
  Char.isDigit_iff_toNat.mp h

theorem digit_not_space {c : Char} (h : c.isDigit = true) : isSpace c = false := by
  have hrange := digit_range h
  have hblank : c ≠ ' ' := by
    rintro rfl
    exact absurd hrange.1 (by decide)
  simp only [isSpace, List.contains_eq_mem, List.mem_cons, List.not_mem_nil, or_false, hblank,
    decide_false, Bool.false_or, Bool.or_eq_false_iff, Bool.and_eq_false_iff,
    decide_eq_false_iff_not]
  omega

theorem digit_value {c : Char} {d : ℕ} (h : c.isDigit = true) (hd : c.toNat - 48 = d) : d < 10 := by
  have hrange := digit_range h
  omega

/-- A table in which only ASCII characters are letters and digits. -/
def ascii : Interpreter where
  isdigit := Char.isDigit
  isalpha := Char.isAlpha
  isnumeric := Char.isDigit
  decimal c := if c.isDigit then some (c.toNat - 48) else none
  maxStrDigits := 4300
  digit_ascii _ _ := rfl
  alpha_ascii _ _ := rfl
  decimal_ascii _ _ := rfl
  decimal_digit c d h := by
    by_cases hdigit : c.isDigit = true
    · rw [if_pos hdigit] at h
      exact ⟨hdigit, digit_value hdigit (Option.some.inj h)⟩
    · rw [if_neg hdigit] at h
      cases h
  digit_space _ := digit_not_space

end Interpreters

section Texts

/-- `source[i]`. -/
def charAt (source : List Char) (i : ℕ) : Except Raised Char :=
  match source[i]? with
  | some c => .ok c
  | none => .error .indexError

/-- `i < len(source) and source[i] == c`. -/
def nextIs (source : List Char) (i : ℕ) (c : Char) : Except Raised Bool :=
  if i < source.length then (charAt source i).map (· == c) else .ok false

/-- `source[start:stop]`. -/
def slice (source : List Char) (start stop : ℕ) : List Char := (source.take stop).drop start

/-- Where `while i < len(source) and p(source[i]): i += 1` ends. -/
def scanWhile (p : Char → Bool) (source : List Char) (i : ℕ) : ℕ :=
  i + ((source.drop i).takeWhile p).length

variable {source rest : List Char} {c : Char} {i : ℕ}

theorem lt_of_drop (h : source.drop i = c :: rest) : i < source.length := by
  rcases Nat.lt_or_ge i source.length with hlt | hge
  · exact hlt
  · rw [List.drop_eq_nil_iff.mpr hge] at h
    cases h

theorem drop_next (h : source.drop i = c :: rest) : source.drop (i + 1) = rest := by
  rw [← List.drop_drop, h]
  rfl

theorem charAt_cons (h : source.drop i = c :: rest) : charAt source i = .ok c := by
  have hget : source[i]? = some c := by rw [← List.head?_drop, h, List.head?_cons]
  rw [charAt, hget]

theorem nextIs_eq (source : List Char) (i : ℕ) (c : Char) :
    nextIs source i c = .ok ((source.drop i).head? == some c) := by
  unfold nextIs
  cases htext : source.drop i with
  | nil =>
    rw [if_neg (Nat.not_lt.mpr (List.drop_eq_nil_iff.mp htext))]
    rfl
  | cons d rest =>
    rw [if_pos (lt_of_drop htext), charAt_cons htext]
    rfl

theorem slice_eq (source : List Char) (i j : ℕ) : slice source i j = (source.drop i).take (j - i) :=
  List.drop_take

theorem le_scanWhile (p : Char → Bool) (source : List Char) (i : ℕ) : i ≤ scanWhile p source i :=
  Nat.le_add_right i _

theorem lt_scanWhile {p : Char → Bool} (h : source.drop i = c :: rest) (hc : p c = true) :
    i < scanWhile p source i := by
  rw [scanWhile, h, List.takeWhile_cons_of_pos hc, List.length_cons]
  omega

theorem scanWhile_le (p : Char → Bool) (h : i ≤ source.length) :
    scanWhile p source i ≤ source.length := by
  have htake := (List.takeWhile_prefix p (l := source.drop i)).length_le
  rw [List.length_drop] at htake
  rw [scanWhile]
  omega

theorem drop_scanWhile (p : Char → Bool) (source : List Char) (i : ℕ) :
    source.drop (scanWhile p source i) = (source.drop i).dropWhile p := by
  have hleft : ((source.drop i).takeWhile p ++ (source.drop i).dropWhile p).drop
      ((source.drop i).takeWhile p).length = (source.drop i).dropWhile p := List.drop_left
  rw [List.takeWhile_append_dropWhile] at hleft
  rw [scanWhile, ← List.drop_drop, hleft]

theorem slice_scanWhile (p : Char → Bool) (source : List Char) (i : ℕ) :
    slice source i (scanWhile p source i) = (source.drop i).takeWhile p := by
  have hleft : ((source.drop i).takeWhile p ++ (source.drop i).dropWhile p).take
      ((source.drop i).takeWhile p).length = (source.drop i).takeWhile p := List.take_left
  rw [List.takeWhile_append_dropWhile] at hleft
  rw [slice_eq, scanWhile, Nat.add_sub_cancel_left, hleft]

end Texts

section Numbers
variable (py : Interpreter)

/-- The white space that `int` skips around a number. -/
def intSpace (c : Char) : Bool := isSpace c && !(28 ≤ c.toNat && c.toNat ≤ 31)

def digitValue (base : ℕ) (c : Char) : Option ℕ :=
  let value :=
    match py.decimal c with
    | some d => some d
    | none =>
      if 'a' ≤ c ∧ c ≤ 'z' then some (c.toNat - 87)
      else if 'A' ≤ c ∧ c ≤ 'Z' then some (c.toNat - 55)
      else none
  value.filter (· < base)

/-- Digits, with single underscores between them. -/
def digitsOf (base : ℕ) : List Char → Option (List ℕ)
  | [] => none
  | [c] => (digitValue py base c).map ([·])
  | c :: '_' :: rest =>
    (digitValue py base c).bind fun d => (digitsOf base rest).map (d :: ·)
  | c :: next :: rest =>
    (digitValue py base c).bind fun d => (digitsOf base (next :: rest)).map (d :: ·)

/-- A number to the base 16 behind `0x`, and behind an underscore after that. -/
def afterPrefix : List Char → List Char
  | zero :: x :: rest =>
    if py.decimal zero = some 0 ∧ (x = 'x' ∨ x = 'X') then
      if rest.head? = some '_' then rest.tail else rest
    else zero :: x :: rest
  | text => text

def signed : List Char → Bool × List Char
  | '+' :: rest => (false, rest)
  | '-' :: rest => (true, rest)
  | text => (false, text)

def positional (base : ℕ) (digits : List ℕ) : ℕ :=
  digits.foldl (fun value d => value * base + d) 0

/-- `int(text, base)` for the bases 10 and 16. The limit on the count of the digits does not hold
for powers of two. -/
def pythonInt (text : List Char) (base : ℕ) : Except Raised ℤ :=
  let body := signed ((text.dropWhile intSpace).rdropWhile intSpace)
  match digitsOf py base (if base = 16 then afterPrefix py body.2 else body.2) with
  | none => .error .valueError
  | some digits =>
    if base = 10 ∧ 0 < py.maxStrDigits ∧ py.maxStrDigits < digits.length then .error .valueError
    else .ok (if body.1 then -(positional base digits : ℤ) else positional base digits)

/-- `chr`, but for surrogates. -/
def chr (cp : ℤ) : Except Raised Char :=
  if 0 ≤ cp ∧ cp ≤ 0x10FFFF then .ok (Char.ofNat cp.toNat) else .error .valueError

variable {py : Interpreter} {text : List Char} {base : ℕ} {c : Char}

theorem pythonInt_error {e : Raised} (h : pythonInt py text base = .error e) : e = .valueError := by
  simp only [pythonInt] at h
  split at h
  · cases h
    rfl
  · split at h
    · cases h
      rfl
    · cases h

/-- Without underscores, each character is a digit. -/
theorem digitsOf_eq (hne : text ≠ []) (hmark : '_' ∉ text) :
    digitsOf py base text =
      if text.all (fun c => (digitValue py base c).isSome) = true then
        some (text.filterMap (digitValue py base))
      else none := by
  fun_induction digitsOf py base text with
  | case1 => exact absurd rfl hne
  | case2 c => cases hd : digitValue py base c <;> simp [hd]
  | case3 c rest _ => simp at hmark
  | case4 c next rest _ ih =>
    have hrest := ih (List.cons_ne_nil _ _) fun hmem => hmark (List.mem_cons_of_mem c hmem)
    rw [hrest]
    generalize next :: rest = tail
    rw [List.all_cons, List.filterMap_cons]
    cases hd : digitValue py base c with
    | none => rfl
    | some d =>
      rw [Option.isSome_some, Bool.true_and, Option.bind_some]
      split <;> rfl

theorem digitValue_ten (c : Char) : digitValue py 10 c = py.decimal c := by
  unfold digitValue
  cases hd : py.decimal c with
  | some d =>
    have hlt := (py.decimal_digit c d hd).2
    simp [Option.filter, hlt]
  | none =>
    by_cases hlower : 'a' ≤ c ∧ c ≤ 'z'
    · have hle : 97 ≤ c.toNat := hlower.1
      simp only [if_pos hlower, Option.filter_some]
      rw [if_neg]
      simp only [decide_eq_true_eq]
      omega
    · by_cases hupper : 'A' ≤ c ∧ c ≤ 'Z'
      · have hle : 65 ≤ c.toNat := hupper.1
        simp only [if_neg hlower, if_pos hupper, Option.filter_some]
        rw [if_neg]
        simp only [decide_eq_true_eq]
        omega
      · simp only [if_neg hlower, if_neg hupper, Option.filter_none]

/-- The texts of digits that `int` converts. -/
def convertible (py : Interpreter) (digits : List Char) : Bool :=
  digits.all (fun c => (py.decimal c).isSome) &&
    (py.maxStrDigits == 0 || decide (digits.length ≤ py.maxStrDigits))

theorem dropWhile_none {p : Char → Bool} (h : ∀ c ∈ text, p c = false) :
    text.dropWhile p = text := by
  cases text with
  | nil => rfl
  | cons c rest => rw [List.dropWhile_cons_of_neg (by simp [h c List.mem_cons_self])]

theorem rdropWhile_none {p : Char → Bool} (h : ∀ c ∈ text, p c = false) :
    text.rdropWhile p = text := by
  rw [List.rdropWhile, dropWhile_none (fun c hc => h c (List.mem_reverse.mp hc)),
    List.reverse_reverse]

/-- A text that starts with neither white space nor a sign. -/
theorem signed_strip (hspace : ∀ c ∈ text, intSpace c = false) (hplus : text.head? ≠ some '+')
    (hminus : text.head? ≠ some '-') :
    signed ((text.dropWhile intSpace).rdropWhile intSpace) = (false, text) := by
  rw [dropWhile_none hspace, rdropWhile_none hspace]
  unfold signed
  split
  · exact absurd rfl hplus
  · exact absurd rfl hminus
  · rfl

theorem pythonInt_digits (py : Interpreter) (hne : text ≠ [])
    (hdigits : ∀ c ∈ text, py.isdigit c = true) :
    pythonInt py text 10 =
      if convertible py text = true then .ok (positional 10 (text.filterMap py.decimal))
      else .error .valueError := by
  have hspace : ∀ c ∈ text, intSpace c = false := fun c hc => by
    rw [intSpace, py.digit_space c (hdigits c hc), Bool.false_and]
  have hother {c : Char} (hascii : c.toNat < 128) (hc : c.isDigit = false) : c ∉ text := by
    intro hmem
    have hdigit := hdigits c hmem
    rw [py.digit_ascii c hascii, hc] at hdigit
    cases hdigit
  have hplus : text.head? ≠ some '+' := fun h =>
    hother (by decide) (by decide) (List.mem_of_head? h)
  have hminus : text.head? ≠ some '-' := fun h =>
    hother (by decide) (by decide) (List.mem_of_head? h)
  have hvalue : digitValue py 10 = py.decimal := funext digitValue_ten
  simp only [pythonInt, signed_strip hspace hplus hminus]
  rw [if_neg (by decide), digitsOf_eq hne (hother (by decide) (by decide)), hvalue]
  by_cases hall : text.all (fun c => (py.decimal c).isSome) = true
  · have hlength : (text.filterMap py.decimal).length = text.length := by
      rw [List.length_filterMap_eq_countP, List.countP_eq_length]
      exact List.all_eq_true.mp hall
    have hconvertible : convertible py text = true ↔
        ¬(0 < py.maxStrDigits ∧ py.maxStrDigits < text.length) := by
      simp only [convertible, hall, Bool.true_and, Bool.or_eq_true, beq_iff_eq, decide_eq_true_eq]
      omega
    simp only [hall, if_true, true_and, hlength, hconvertible, ite_not, Bool.false_eq_true,
      if_false]
  · have hnot : convertible py text = false := by
      rw [convertible, Bool.eq_false_iff.mpr hall, Bool.false_and]
    rw [if_neg hall, hnot]
    rfl

end Numbers

end NewClLang.PythonText
