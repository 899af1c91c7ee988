import NewClLang.JsonLetters
import NewClLang.JsonRoundTrip

set_option autoImplicit false

/-!
# Where `stringify` gives JSON

`stringify` ends with a text that `parse` accepts for the values that unfold to a tree whose numbers
are finite and whose text is shorter than `2 ^ 31` bytes. An array that holds itself does not unfold,
and a number that is not finite is printed as a word that is not JSON.
-/
namespace NewClLang.JsonTotality
open JsonGrammar JsonModule JsonTrees JsonScanning JsonNumbers JsonBuilding JsonAcceptance
  JsonShapes JsonPrinting JsonApi JsonRoundTrip JsonLetters Reachability

section Words
variable {F : Type} {fl : Floats F} {N : F → Prop}

def infText : Bytes := [105, 110, 102]
def nanText : Bytes := [110, 97, 110]

/-- `strconv.format_f64` prints a finite number as JSON, and any other as `printf` does: `inf` or
    `nan`, after a minus or not, and with more behind it or not. -/
structure PrintsAll (fl : Floats F) (N : F → Prop) : Prop where
  number : ∀ x, N x → Number (fl.formatF64 x)
  word : ∀ x, ¬ N x → ∃ sign more, (sign = [] ∨ sign = [45]) ∧
    (fl.formatF64 x = sign ++ (infText ++ more) ∨ fl.formatF64 x = sign ++ (nanText ++ more))

theorem derives_compact (hfl : PrintsAll fl N) {m : Meaning F} (hm : Every (numberShape N) m)
    (hparts : parts m ≠ 0) : Derives m.production (compact fl m) := by
  induction hm with
  | null => exact .null
  | @bool b =>
    cases b with
    | true => exact .true
    | false => exact .false
  | number hx => exact .number (hfl.number _ hx)
  | @string s _ => exact .string (quoted_charsText s).chars
  | @array js _ _ ih =>
    cases js with
    | nil => exact .emptyArray Ws.nil
    | cons j js => exact .array (ih (Nat.succ_ne_zero _))
  | @object ms _ _ ih =>
    cases ms with
    | nil => exact .emptyObject Ws.nil
    | cons m ms => exact .object (ih (Nat.succ_ne_zero _))
  | noItems => exact absurd rfl hparts
  | @item j js _ _ ihj ihjs =>
    have hj := ihj Nat.one_ne_zero
    cases js with
    | nil =>
      have htext := Derives.lastElement Ws.nil hj Ws.nil
      rw [List.nil_append, List.append_nil] at htext
      exact htext
    | cons j' js =>
      rw [compact_elements j (List.cons_ne_nil j' js)]
      exact .element Ws.nil hj Ws.nil (ihjs (Nat.succ_ne_zero _))
  | noMembers => exact absurd rfl hparts
  | @member key j ms _ _ _ ihj ihms =>
    have hkey := (quoted_charsText key).chars
    have hj := ihj Nat.one_ne_zero
    cases ms with
    | nil =>
      have htext := Derives.lastMember Ws.nil hkey Ws.nil Ws.nil hj Ws.nil
      simpa [compact, renderMembers, joinComma, quoted_eq, Meaning.production] using htext
    | cons m ms =>
      have htext := Derives.member Ws.nil hkey Ws.nil Ws.nil hj Ws.nil (ihms (Nat.succ_ne_zero _))
      rw [compact_members key j (List.cons_ne_nil m ms)]
      simpa [compact, quoted_eq, Meaning.production] using htext

theorem passes_quoted (s : Bytes) : Passes (quoted s) := passes_string (quoted_charsText s).chars

/-- The scanner stops at the word for a number that is not finite. -/
theorem word_stops (last : UInt8) {sign : Bytes} (more : Bytes) (hsign : sign = [] ∨ sign = [45]) :
    scan (.outside last) (sign ++ (infText ++ more)) = none ∧
      scan (.outside last) (sign ++ (nanText ++ more)) = none := by
  rcases hsign with rfl | rfl
  · exact ⟨rfl, rfl⟩
  · exact ⟨rfl, rfl⟩

/-- A compact text that the scanner comes through prints finite numbers only. -/
theorem finite_of_scan (hfl : PrintsAll fl N) {w : Window} {na no : ℕ} {h : Heap F}
    {src : Source F} {m : Meaning F} (hu : Unfolds w na no h src m) {last : UInt8} {mode : Mode}
    (hscan : scan (.outside last) (compact fl m) = some mode) : Every (numberShape N) m := by
  induction hu generalizing last mode with
  | null => exact .null
  | bool => exact .bool
  | @number v _ =>
    refine .number ?_
    by_contra hx
    obtain ⟨sign, more, hsign, htext⟩ := hfl.word v.numValue hx
    obtain ⟨hinf, hnan⟩ := word_stops last more hsign
    change scan (.outside last) (fl.formatF64 v.numValue) = some mode at hscan
    rcases htext with htext | htext
    · rw [htext, hinf] at hscan
      cases hscan
    · rw [htext, hnan] at hscan
      cases hscan
  | string => exact .string trivial
  | @array v a items js _ _ _ _ _ ih =>
    change scan (.outside 91) (compact fl (.elements js) ++ [93]) = some mode at hscan
    obtain ⟨mid, hitems, _⟩ := scan_front hscan
    exact .array trivial (ih hitems)
  | @object v o entries js _ _ _ _ _ ih =>
    change scan (.outside 123) (compact fl (.members js) ++ [125]) = some mode at hscan
    obtain ⟨mid, hmembers, _⟩ := scan_front hscan
    exact .object trivial (ih hmembers)
  | noItems => exact .noItems
  | @item v j vs js _ _ ihv ihvs =>
    cases js with
    | nil => exact .item (ihv hscan) .noItems
    | cons j' js =>
      rw [compact_elements j (List.cons_ne_nil j' js)] at hscan
      obtain ⟨mid, hfirst, _⟩ := scan_front hscan
      have hj := ihv hfirst
      have hpasses : Passes (render fl j) := derives_passes (derives_compact hfl hj Nat.one_ne_zero)
      obtain ⟨last', hrest⟩ := hpasses.rest hscan
      change scan (.outside 44) (compact fl (.elements (j' :: js))) = some mode at hrest
      exact .item hj (ihvs hrest)
  | noEntries => exact .noMembers
  | @entry key v j es js _ _ ihv ihes =>
    cases js with
    | nil =>
      change scan (.outside last) (quoted _ ++ [58] ++ render fl j) = some mode at hscan
      rw [List.append_assoc] at hscan
      obtain ⟨last₁, hcolon⟩ := (passes_quoted _).rest hscan
      change scan (.outside 58) (compact fl (.value j)) = some mode at hcolon
      exact .member trivial (ihv hcolon) .noMembers
    | cons m ms =>
      rw [compact_members _ j (List.cons_ne_nil m ms), List.append_assoc, List.append_assoc] at hscan
      obtain ⟨last₁, hcolon⟩ := (passes_quoted _).rest hscan
      change scan (.outside 58) (render fl j ++ 44 :: compact fl (.members (m :: ms))) =
        some mode at hcolon
      obtain ⟨mid, hvalue, _⟩ := scan_front hcolon
      have hj := ihv hvalue
      have hpasses : Passes (render fl j) := derives_passes (derives_compact hfl hj Nat.one_ne_zero)
      obtain ⟨last₂, hrest⟩ := hpasses.rest hcolon
      change scan (.outside 44) (compact fl (.members (m :: ms))) = some mode at hrest
      exact .member trivial hj (ihes hrest)

end Words

section Totality
variable {F : Type} {fl : Floats F} {N : F → Prop}

/-- `stringify` ends, and `parse` accepts its text. -/
def Stringifies (fl : Floats F) (h : Heap F) (v : Value F) : Prop :=
  ∃ depth text, stringify fl h depth v = some text ∧ ∃ v' h', parse fl text h = .ok (v', h')

/-- What a client holds is printed as JSON where it unfolds to a tree with finite numbers and a text
    shorter than `2 ^ 31` bytes, and nowhere else. -/
theorem stringifies_iff_tree (hreads : ReadsFloats fl) (hprints : PrintsAll fl N) {c : Client F}
    (hc : Obtained fl c) {v : Value F} (hv : v ∈ c.values)
    (hlen : ∀ depth text, stringify fl c.heap depth v = some text → text.length < 4294967296) :
    Stringifies fl c.heap v ↔ ∃ j, Unfolds .counted 0 0 c.heap (.value v) (.value j) ∧
      Every (numberShape N) (.value j) ∧ (render fl j).length < 2147483648 := by
  obtain ⟨hs, hwell⟩ := obtained_good hc
  constructor
  · rintro ⟨depth, text, htext, v', h', hparse⟩
    obtain ⟨j, hj, hrender⟩ := unfolds_stringify hs (hwell v hv) htext
    by_cases hmeasured : text.length < 2147483648
    · have hpasses : Passes (compact fl (.value j)) := by
        change Passes (render fl j)
        rw [← hrender]
        exact isText_passes (isText_of_parse hmeasured hparse)
      obtain ⟨last, hscan⟩ := hpasses 0
      refine ⟨j, hj, finite_of_scan hprints hj hscan, ?_⟩
      rw [← hrender]
      exact hmeasured
    · rw [parse_long c.heap hmeasured (hlen depth text htext)] at hparse
      cases hparse
  · rintro ⟨j, hj, hfinite, hmeasured⟩
    obtain ⟨depth, htext⟩ := stringify_render fl hj
    have hvalue : Derives .value (render fl j) := derives_compact hprints hfinite Nat.one_ne_zero
    have hjson : IsText (render fl j) := ⟨[], _, [], by simp, Ws.nil, hvalue, Ws.nil⟩
    obtain ⟨v', h', hparse⟩ := parse_isText hreads c.heap hmeasured hjson
    exact ⟨depth, render fl j, htext, v', h', hparse⟩

theorem one_number : Number [49] :=
  ⟨[], [49], [], [], rfl, Or.inl rfl, Or.inr ⟨49, [], rfl, by decide, by simp⟩, Or.inl rfl,
    Or.inl rfl⟩

open Classical in
/-- Numbers that stand for their own text, and an infinite one. -/
noncomputable def wordFloats : Floats (Option {t : Bytes // Number t}) where
  zero := some ⟨[49], one_number⟩
  parseF64 := fun t =>
    if FloatText t then
      if ht : Number t then some (some ⟨t, ht⟩) else some none
    else
      none
  formatF64 := fun x =>
    match x with
    | some t => t.1
    | none => infText

theorem wordFloats_reads : ReadsFloats wordFloats := by
  intro t
  constructor
  · rintro ⟨x, hx⟩
    by_contra ht
    simp [wordFloats, ht] at hx
  · intro ht
    by_cases hnumber : Number t
    · exact ⟨some ⟨t, hnumber⟩, by simp [wordFloats, ht, hnumber]⟩
    · exact ⟨none, by simp [wordFloats, ht, hnumber]⟩

theorem wordFloats_prints : PrintsAll wordFloats (fun x => x ≠ none) where
  number := by
    intro x hx
    cases x with
    | none => exact absurd rfl hx
    | some t => exact t.2
  word := by
    intro x hx
    cases x with
    | none => exact ⟨[], [], Or.inl rfl, Or.inl rfl⟩
    | some t => exact absurd (Option.some_ne_none t) hx

theorem stringify_number {h : Heap F} {depth : ℕ} {x : F} {text : Bytes}
    (htext : stringify fl h depth (number x) = some text) : text = fl.formatF64 x := by
  cases depth with
  | zero => cases htext
  | succ depth =>
    have hformat : stringify fl h (depth + 1) (number x) = some (fl.formatF64 x) := rfl
    exact Option.some.inj (htext.symm.trans hformat)

theorem stringifies_one :
    Stringifies wordFloats ⟨[], []⟩ (number (some ⟨[49], one_number⟩)) ↔
      ∃ j, Unfolds .counted 0 0 ⟨[], []⟩ (.value (number (some ⟨[49], one_number⟩))) (.value j) ∧
        Every (numberShape (fun x => x ≠ none)) (.value j) ∧
        (render wordFloats j).length < 2147483648 := by
  have hone : Obtained wordFloats ⟨⟨[], []⟩, [number (some ⟨[49], one_number⟩)]⟩ :=
    (reachable_root (Set.mem_singleton _)).step (.number _)
  refine stringifies_iff_tree wordFloats_reads wordFloats_prints hone List.mem_cons_self ?_
  intro depth text htext
  rw [stringify_number htext]
  exact Nat.lt_trans Nat.one_lt_two (by decide)

/-- The array that was appended to itself. -/
def selfArray : Value (Option {t : Bytes // Number t}) :=
  ⟨4, false, some ⟨[49], one_number⟩, [], some 0, none⟩

theorem selfArray_obtained : Obtained wordFloats ⟨⟨[[selfArray]], []⟩, [selfArray]⟩ := by
  have hmade : Obtained wordFloats ⟨⟨[[]], []⟩, [selfArray]⟩ :=
    (reachable_root (Set.mem_singleton _)).step .array
  exact hmade.step (.arrayAppend List.mem_cons_self List.mem_cons_self rfl)

theorem selfArray_unprinted (depth : ℕ) :
    stringify wordFloats ⟨[[selfArray]], []⟩ depth selfArray = none := by
  induction depth with
  | zero => rfl
  | succ depth ih =>
    have hcounted : counted [selfArray] = [selfArray] := Measured.counted (by simp [Measured])
    have hitems : (counted [selfArray]).mapM (stringify wordFloats ⟨[[selfArray]], []⟩ depth) =
        none := by
      rw [hcounted, List.mapM_cons, ih]
      rfl
    have hkind : selfArray.kindValue = 4 := rfl
    have hptr : selfArray.arrValue = some 0 := rfl
    have hfound : ([[selfArray]] : List (List (Value _)))[0]? = some [selfArray] := rfl
    rw [stringify, if_neg (by decide), if_neg (by decide), if_neg (by decide), if_neg (by decide),
      if_pos hkind, hptr]
    dsimp only
    rw [bind_of_some hfound, hitems]
    rfl

/-- A client can append an array to itself, and `stringify` does not end on it. -/
theorem selfArray_not_stringified :
    Obtained wordFloats ⟨⟨[[selfArray]], []⟩, [selfArray]⟩ ∧
      ¬ Stringifies wordFloats ⟨[[selfArray]], []⟩ selfArray := by
  refine ⟨selfArray_obtained, ?_⟩
  rintro ⟨depth, text, htext, _⟩
  rw [selfArray_unprinted depth] at htext
  cases htext

end Totality

end NewClLang.JsonTotality
