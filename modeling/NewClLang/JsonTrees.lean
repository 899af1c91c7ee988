import NewClLang.JsonGrammar
import NewClLang.JsonModule

set_option autoImplicit false

/-!
# The trees behind json values

A value in a heap unfolds to a tree where no array or object contains itself. What the parser reads
a text as, and what a tree's compact text is.
-/
namespace NewClLang.JsonTrees
open JsonGrammar JsonModule

inductive Json (F : Type) where
  | null
  | bool (b : Bool)
  | number (x : F)
  | string (s : Bytes)
  | array (items : List (Json F))
  | object (members : List (Bytes × Json F))

section Reading
variable {F : Type}

/-- The entries of an object whose members were set one after the other. -/
def setAll {β : Type} (members : List (Bytes × β)) : List (Bytes × β) :=
  members.foldl (fun entries m => setEntry entries m.1 m.2) []

/-- An escape without its backslash, and the bytes it stands for. -/
inductive EscapeText : Bytes → Bytes → Prop where
  | quote : EscapeText [34] [34]
  | backslash : EscapeText [92] [92]
  | slash : EscapeText [47] [47]
  | backspace : EscapeText [98] (strRune 8)
  | formFeed : EscapeText [102] (strRune 12)
  | newline : EscapeText [110] [10]
  | carriageReturn : EscapeText [114] [13]
  | tab : EscapeText [116] [9]
  | unicode {a b c d : UInt8} {va vb vc vd : ℕ} (ha : hexValue a = .ok va)
      (hb : hexValue b = .ok vb) (hc : hexValue c = .ok vc) (hd : hexValue d = .ok vd) :
      EscapeText [117, a, b, c, d] (strRune ((((0 * 16 + va) * 16 + vb) * 16 + vc) * 16 + vd))

/-- The characters of a string literal and the bytes they stand for. -/
inductive CharsText : Bytes → Bytes → Prop where
  | nil : CharsText [] []
  | unescaped {b : UInt8} {t s : Bytes} (h : 32 ≤ b) (hquote : b ≠ 34) (hback : b ≠ 92)
      (ht : CharsText t s) : CharsText (b :: t) (b :: s)
  | escaped {e piece t s : Bytes} (h : EscapeText e piece) (ht : CharsText t s) :
      CharsText (92 :: (e ++ t)) (piece ++ s)

/-- What a text of the grammar's productions means. -/
inductive Meaning (F : Type) where
  | value (j : Json F)
  | elements (items : List (Json F))
  | members (members : List (Bytes × Json F))

def Meaning.production : Meaning F → Production
  | .value _ => .value
  | .elements _ => .elements
  | .members _ => .members

/-- The parser reads the text as the tree, or as the items or members of one. -/
inductive Reads (fl : Floats F) : Bytes → Meaning F → Prop where
  | null : Reads fl nullLit (.value .null)
  | true : Reads fl trueLit (.value (.bool true))
  | false : Reads fl falseLit (.value (.bool false))
  | number {t : Bytes} {x : F} (h : Number t) (hx : fl.parseF64 t = some x) :
      Reads fl t (.value (.number x))
  | string {t s : Bytes} (h : CharsText t s) : Reads fl (34 :: (t ++ [34])) (.value (.string s))
  | emptyArray {w : Bytes} (hw : Ws w) : Reads fl (91 :: (w ++ [93])) (.value (.array []))
  | array {t : Bytes} {items : List (Json F)} (h : Reads fl t (.elements items)) :
      Reads fl (91 :: (t ++ [93])) (.value (.array items))
  | emptyObject {w : Bytes} (hw : Ws w) : Reads fl (123 :: (w ++ [125])) (.value (.object []))
  | object {t : Bytes} {members : List (Bytes × Json F)} (h : Reads fl t (.members members)) :
      Reads fl (123 :: (t ++ [125])) (.value (.object (setAll members)))
  | lastElement {a t b : Bytes} {j : Json F} (ha : Ws a) (h : Reads fl t (.value j)) (hb : Ws b) :
      Reads fl (a ++ (t ++ b)) (.elements [j])
  | element {a t b rest : Bytes} {j : Json F} {items : List (Json F)} (ha : Ws a)
      (h : Reads fl t (.value j)) (hb : Ws b) (hrest : Reads fl rest (.elements items)) :
      Reads fl (a ++ (t ++ (b ++ 44 :: rest))) (.elements (j :: items))
  | lastMember {a k b c t d key : Bytes} {j : Json F} (ha : Ws a) (hk : CharsText k key)
      (hb : Ws b) (hc : Ws c) (h : Reads fl t (.value j)) (hd : Ws d) :
      Reads fl (a ++ (34 :: (k ++ 34 :: (b ++ 58 :: (c ++ (t ++ d)))))) (.members [(key, j)])
  | member {a k b c t d rest key : Bytes} {j : Json F} {members : List (Bytes × Json F)}
      (ha : Ws a) (hk : CharsText k key) (hb : Ws b) (hc : Ws c) (h : Reads fl t (.value j))
      (hd : Ws d) (hrest : Reads fl rest (.members members)) :
      Reads fl (a ++ (34 :: (k ++ 34 :: (b ++ 58 :: (c ++ (t ++ (d ++ 44 :: rest)))))))
        (.members ((key, j) :: members))

theorem hexValue_ok {b : UInt8} {v : ℕ} (h : hexValue b = .ok v) : HexDigit b := by
  unfold hexValue at h
  by_cases h₁ : 48 ≤ b ∧ b ≤ 57
  · exact Or.inl h₁
  · rw [if_neg h₁] at h
    by_cases h₂ : 65 ≤ b ∧ b ≤ 70
    · exact Or.inr (Or.inl h₂)
    · rw [if_neg h₂] at h
      by_cases h₃ : 97 ≤ b ∧ b ≤ 102
      · exact Or.inr (Or.inr h₃)
      · rw [if_neg h₃] at h
        cases h

theorem hexValue_total {b : UInt8} (h : HexDigit b) : ∃ v, hexValue b = .ok v := by
  unfold hexValue
  by_cases h₁ : 48 ≤ b ∧ b ≤ 57
  · exact ⟨_, if_pos h₁⟩
  · rw [if_neg h₁]
    by_cases h₂ : 65 ≤ b ∧ b ≤ 70
    · exact ⟨_, if_pos h₂⟩
    · rw [if_neg h₂]
      rcases h with h | h | h
      · exact absurd h h₁
      · exact absurd h h₂
      · exact ⟨_, if_pos h⟩

theorem EscapeText.escape {e piece : Bytes} (h : EscapeText e piece) : Escape e := by
  cases h with
  | quote => exact .short (by decide)
  | backslash => exact .short (by decide)
  | slash => exact .short (by decide)
  | backspace => exact .short (by decide)
  | formFeed => exact .short (by decide)
  | newline => exact .short (by decide)
  | carriageReturn => exact .short (by decide)
  | tab => exact .short (by decide)
  | unicode ha hb hc hd =>
    exact .unicode (hexValue_ok ha) (hexValue_ok hb) (hexValue_ok hc) (hexValue_ok hd)

theorem escapeText_total {e : Bytes} (h : Escape e) : ∃ piece, EscapeText e piece := by
  cases h with
  | short hb =>
    simp only [List.mem_cons, List.not_mem_nil, or_false] at hb
    rcases hb with rfl | rfl | rfl | rfl | rfl | rfl | rfl | rfl
    · exact ⟨_, .quote⟩
    · exact ⟨_, .backslash⟩
    · exact ⟨_, .slash⟩
    · exact ⟨_, .backspace⟩
    · exact ⟨_, .formFeed⟩
    · exact ⟨_, .newline⟩
    · exact ⟨_, .carriageReturn⟩
    · exact ⟨_, .tab⟩
  | unicode ha hb hc hd =>
    obtain ⟨va, ha⟩ := hexValue_total ha
    obtain ⟨vb, hb⟩ := hexValue_total hb
    obtain ⟨vc, hc⟩ := hexValue_total hc
    obtain ⟨vd, hd⟩ := hexValue_total hd
    exact ⟨_, .unicode ha hb hc hd⟩

theorem CharsText.chars {t s : Bytes} (h : CharsText t s) : Chars t := by
  induction h with
  | nil => exact .nil
  | unescaped hb hquote hback _ ih => exact .unescaped hb hquote hback ih
  | escaped he _ ih => exact .escaped he.escape ih

theorem charsText_total {t : Bytes} (h : Chars t) : ∃ s, CharsText t s := by
  induction h with
  | nil => exact ⟨_, .nil⟩
  | unescaped hb hquote hback _ ih =>
    obtain ⟨s, hs⟩ := ih
    exact ⟨_, .unescaped hb hquote hback hs⟩
  | escaped he _ ih =>
    obtain ⟨piece, hpiece⟩ := escapeText_total he
    obtain ⟨s, hs⟩ := ih
    exact ⟨_, .escaped hpiece hs⟩

theorem Reads.derives {fl : Floats F} {t : Bytes} {m : Meaning F} (h : Reads fl t m) :
    Derives m.production t := by
  induction h with
  | null => exact .null
  | true => exact .true
  | false => exact .false
  | number h _ => exact .number h
  | string h => exact .string h.chars
  | emptyArray hw => exact .emptyArray hw
  | array _ ih => exact .array ih
  | emptyObject hw => exact .emptyObject hw
  | object _ ih => exact .object ih
  | lastElement ha _ hb ih => exact .lastElement ha ih hb
  | element ha _ hb _ ih ihrest => exact .element ha ih hb ihrest
  | lastMember ha hk hb hc _ hd ih => exact .lastMember ha hk.chars hb hc ih hd
  | member ha hk hb hc _ hd _ ih ihrest => exact .member ha hk.chars hb hc ih hd ihrest

/-- Where every number of the grammar is read, so is every text. -/
theorem reads_total {fl : Floats F} (hnumber : ∀ t, Number t → ∃ x, fl.parseF64 t = some x)
    {p : Production} {t : Bytes} (h : Derives p t) :
    ∃ m : Meaning F, m.production = p ∧ Reads fl t m := by
  induction h with
  | null => exact ⟨_, rfl, .null⟩
  | true => exact ⟨_, rfl, .true⟩
  | false => exact ⟨_, rfl, .false⟩
  | number h =>
    obtain ⟨x, hx⟩ := hnumber _ h
    exact ⟨.value (.number x), rfl, .number h hx⟩
  | string h =>
    obtain ⟨s, hs⟩ := charsText_total h
    exact ⟨.value (.string s), rfl, .string hs⟩
  | emptyArray hw => exact ⟨.value (.array []), rfl, .emptyArray hw⟩
  | array _ ih =>
    obtain ⟨m, hm, hread⟩ := ih
    cases m with
    | value j => cases hm
    | elements items => exact ⟨.value (.array items), rfl, .array hread⟩
    | members ms => cases hm
  | emptyObject hw => exact ⟨.value (.object []), rfl, .emptyObject hw⟩
  | object _ ih =>
    obtain ⟨m, hm, hread⟩ := ih
    cases m with
    | value j => cases hm
    | elements items => cases hm
    | members ms => exact ⟨.value (.object (setAll ms)), rfl, .object hread⟩
  | lastElement ha _ hb ih =>
    obtain ⟨m, hm, hread⟩ := ih
    cases m with
    | value j => exact ⟨.elements [j], rfl, .lastElement ha hread hb⟩
    | elements items => cases hm
    | members ms => cases hm
  | element ha _ hb _ ih ihrest =>
    obtain ⟨m, hm, hread⟩ := ih
    obtain ⟨m', hm', hread'⟩ := ihrest
    cases m with
    | value j =>
      cases m' with
      | value j' => cases hm'
      | elements items => exact ⟨.elements (j :: items), rfl, .element ha hread hb hread'⟩
      | members ms => cases hm'
    | elements items => cases hm
    | members ms => cases hm
  | lastMember ha hk hb hc _ hd ih =>
    obtain ⟨key, hkey⟩ := charsText_total hk
    obtain ⟨m, hm, hread⟩ := ih
    cases m with
    | value j => exact ⟨.members [(key, j)], rfl, .lastMember ha hkey hb hc hread hd⟩
    | elements items => cases hm
    | members ms => cases hm
  | member ha hk hb hc _ hd _ ih ihrest =>
    obtain ⟨key, hkey⟩ := charsText_total hk
    obtain ⟨m, hm, hread⟩ := ih
    obtain ⟨m', hm', hread'⟩ := ihrest
    cases m with
    | value j =>
      cases m' with
      | value j' => cases hm'
      | elements items => cases hm'
      | members ms =>
        exact ⟨.members ((key, j) :: ms), rfl, .member ha hkey hb hc hread hd hread'⟩
    | elements items => cases hm
    | members ms => cases hm

end Reading

section Unfolding
variable {F : Type}

/-- The part of each list that is looked at. -/
structure Window where
  part : {α : Type} → List α → List α

def Window.full : Window := ⟨fun l => l⟩

/-- What loops over `0..len(l)` look at. -/
def Window.counted : Window := ⟨fun l => JsonModule.counted l⟩

/-- A value, the items of an array or the entries of an object. -/
inductive Source (F : Type) where
  | value (v : Value F)
  | items (vs : List (Value F))
  | entries (es : List (Bytes × Value F))

/-- The value unfolds to the tree, through arrays from index `na` and objects from index `no` on. -/
inductive Unfolds (w : Window) (na no : ℕ) (h : Heap F) : Source F → Meaning F → Prop where
  | null {v : Value F} (hkind : v.kindValue = 0) : Unfolds w na no h (.value v) (.value .null)
  | bool {v : Value F} (hkind : v.kindValue = 1) :
      Unfolds w na no h (.value v) (.value (.bool v.boolValue))
  | number {v : Value F} (hkind : v.kindValue = 2) :
      Unfolds w na no h (.value v) (.value (.number v.numValue))
  | string {v : Value F} (hkind : v.kindValue = 3) :
      Unfolds w na no h (.value v) (.value (.string (w.part v.strValue)))
  | array {v : Value F} {a : ℕ} {items : List (Value F)} {js : List (Json F)}
      (hkind : v.kindValue = 4) (hptr : v.arrValue = some a) (hna : na ≤ a)
      (hitems : h.arrays[a]? = some items)
      (hall : Unfolds w na no h (.items (w.part items)) (.elements js)) :
      Unfolds w na no h (.value v) (.value (.array js))
  | object {v : Value F} {o : ℕ} {entries : List (Bytes × Value F)} {js : List (Bytes × Json F)}
      (hkind : v.kindValue = 5) (hptr : v.objValue = some o) (hno : no ≤ o)
      (hentries : h.objects[o]? = some entries)
      (hall : Unfolds w na no h (.entries (w.part entries)) (.members js)) :
      Unfolds w na no h (.value v) (.value (.object js))
  | noItems : Unfolds w na no h (.items []) (.elements [])
  | item {v : Value F} {j : Json F} {vs : List (Value F)} {js : List (Json F)}
      (hv : Unfolds w na no h (.value v) (.value j))
      (hvs : Unfolds w na no h (.items vs) (.elements js)) :
      Unfolds w na no h (.items (v :: vs)) (.elements (j :: js))
  | noEntries : Unfolds w na no h (.entries []) (.members [])
  | entry {key : Bytes} {v : Value F} {j : Json F} {es : List (Bytes × Value F)}
      {js : List (Bytes × Json F)} (hv : Unfolds w na no h (.value v) (.value j))
      (hes : Unfolds w na no h (.entries es) (.members js)) :
      Unfolds w na no h (.entries ((key, v) :: es)) (.members ((w.part key, j) :: js))

/-- The arrays from `na` and the objects from `no` on are still what they were. -/
structure Keeps (na no : ℕ) (h h' : Heap F) : Prop where
  arrays : ∀ (a : ℕ) (items : List (Value F)), na ≤ a → h.arrays[a]? = some items →
    h'.arrays[a]? = some items
  objects : ∀ (o : ℕ) (entries : List (Bytes × Value F)), no ≤ o → h.objects[o]? = some entries →
    h'.objects[o]? = some entries

theorem Keeps.refl (na no : ℕ) (h : Heap F) : Keeps na no h h where
  arrays := fun _ _ _ hitems => hitems
  objects := fun _ _ _ hentries => hentries

theorem Keeps.trans {na no : ℕ} {h₁ h₂ h₃ : Heap F} (h : Keeps na no h₁ h₂)
    (h' : Keeps na no h₂ h₃) : Keeps na no h₁ h₃ where
  arrays := fun a items hna hitems => h'.arrays a items hna (h.arrays a items hna hitems)
  objects := fun o entries hno hentries =>
    h'.objects o entries hno (h.objects o entries hno hentries)

theorem Keeps.weaken {na no na' no' : ℕ} {h h' : Heap F} (hk : Keeps na no h h') (hna : na ≤ na')
    (hno : no ≤ no') : Keeps na' no' h h' where
  arrays := fun a items ha hitems => hk.arrays a items (le_trans hna ha) hitems
  objects := fun o entries ho hentries => hk.objects o entries (le_trans hno ho) hentries

theorem Unfolds.keep {w : Window} {na no : ℕ} {h h' : Heap F} {src : Source F} {m : Meaning F}
    (hu : Unfolds w na no h src m) (hk : Keeps na no h h') : Unfolds w na no h' src m := by
  induction hu with
  | null hkind => exact .null hkind
  | bool hkind => exact .bool hkind
  | number hkind => exact .number hkind
  | string hkind => exact .string hkind
  | array hkind hptr hna hitems _ ih => exact .array hkind hptr hna (hk.arrays _ _ hna hitems) ih
  | object hkind hptr hno hentries _ ih =>
    exact .object hkind hptr hno (hk.objects _ _ hno hentries) ih
  | noItems => exact .noItems
  | item _ _ ihv ihvs => exact .item ihv ihvs
  | noEntries => exact .noEntries
  | entry _ _ ihv ihes => exact .entry ihv ihes

theorem Unfolds.weaken {w : Window} {na no na' no' : ℕ} {h : Heap F} {src : Source F}
    {m : Meaning F} (hu : Unfolds w na no h src m) (hna : na' ≤ na) (hno : no' ≤ no) :
    Unfolds w na' no' h src m := by
  induction hu with
  | null hkind => exact .null hkind
  | bool hkind => exact .bool hkind
  | number hkind => exact .number hkind
  | string hkind => exact .string hkind
  | array hkind hptr ha hitems _ ih => exact .array hkind hptr (le_trans hna ha) hitems ih
  | object hkind hptr ho hentries _ ih => exact .object hkind hptr (le_trans hno ho) hentries ih
  | noItems => exact .noItems
  | item _ _ ihv ihvs => exact .item ihv ihvs
  | noEntries => exact .noEntries
  | entry _ _ ihv ihes => exact .entry ihv ihes

/-- A value unfolds to one tree at most. -/
theorem Unfolds.unique {w : Window} {na no : ℕ} {h : Heap F} {src : Source F} {m m' : Meaning F}
    (hu : Unfolds w na no h src m) (hu' : Unfolds w na no h src m') : m = m' := by
  induction hu generalizing m' with
  | null hkind => cases hu' <;> simp_all
  | bool hkind => cases hu' <;> simp_all
  | number hkind => cases hu' <;> simp_all
  | string hkind => cases hu' <;> simp_all
  | array hkind hptr _ hitems _ ih =>
    cases hu' with
    | null hkind' | bool hkind' | number hkind' | string hkind' | object hkind' =>
      rw [hkind] at hkind'
      exact absurd hkind' (by decide)
    | array _ hptr' _ hitems' hall' =>
      cases hptr.symm.trans hptr'
      cases hitems.symm.trans hitems'
      cases ih hall'
      rfl
  | object hkind hptr _ hentries _ ih =>
    cases hu' with
    | null hkind' | bool hkind' | number hkind' | string hkind' | array hkind' =>
      rw [hkind] at hkind'
      exact absurd hkind' (by decide)
    | object _ hptr' _ hentries' hall' =>
      cases hptr.symm.trans hptr'
      cases hentries.symm.trans hentries'
      cases ih hall'
      rfl
  | noItems =>
    cases hu'
    rfl
  | item _ _ ihv ihvs =>
    cases hu' with
    | item hv' hvs' =>
      cases ihv hv'
      cases ihvs hvs'
      rfl
  | noEntries =>
    cases hu'
    rfl
  | entry _ _ ihv ihes =>
    cases hu' with
    | entry hv' hes' =>
      cases ihv hv'
      cases ihes hes'
      rfl

end Unfolding

section Rendering
variable {F : Type} (fl : Floats F)

/-- A string literal with the escapes of `_quote`. -/
def quoted (s : Bytes) : Bytes := [34] ++ s.flatMap quoteByte ++ [34]

mutual

/-- The compact text of a tree. -/
def render : Json F → Bytes
  | .null => nullLit
  | .bool b => if b then trueLit else falseLit
  | .number x => fl.formatF64 x
  | .string s => quoted s
  | .array items => [91] ++ joinComma (renderAll items) ++ [93]
  | .object members => [123] ++ joinComma (renderMembers members) ++ [125]

def renderAll : List (Json F) → List Bytes
  | [] => []
  | j :: js => render j :: renderAll js

def renderMembers : List (Bytes × Json F) → List Bytes
  | [] => []
  | (key, j) :: js => (quoted key ++ [58] ++ render j) :: renderMembers js

end

end Rendering

end NewClLang.JsonTrees
