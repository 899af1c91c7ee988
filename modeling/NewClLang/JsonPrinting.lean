import Mathlib.Tactic.IntervalCases
import NewClLang.JsonShapes

set_option autoImplicit false

/-!
# What `stringify` prints

`stringify` prints the compact text of the tree that a value unfolds to through what `len` counts,
and ends exactly where there is such a tree. The compact text of a tree with finite numbers reads as
that tree again.
-/
namespace NewClLang.JsonPrinting
open JsonGrammar JsonModule JsonTrees JsonScanning JsonBuilding JsonShapes

section Printing
variable {F : Type} {fl : Floats F} {h : Heap F} {na no : ℕ}

/-- What `stringify` adds for an entry of an object. -/
def entryText (fl : Floats F) (h : Heap F) (depth : ℕ) (e : Bytes × Value F) : Option Bytes := do
  let text ← stringify fl h depth e.2
  some (quote e.1 ++ [58] ++ text)

def Prints (fl : Floats F) (h : Heap F) (depth : ℕ) : Source F → Meaning F → Prop
  | .value v, .value j => stringify fl h depth v = some (render fl j)
  | .items vs, .elements js => vs.mapM (stringify fl h depth) = some (renderAll fl js)
  | .entries es, .members ms => es.mapM (entryText fl h depth) = some (renderMembers fl ms)
  | _, _ => False

theorem kind_ne {k a b : ℤ} (hk : k = a) (hab : a ≠ b) : ¬ k = b := by
  rintro rfl
  exact hab hk.symm

theorem quote_quoted (s : Bytes) : quote s = quoted (counted s) := by
  unfold quote quoted
  rfl

theorem bind_of_some {α β : Type} {x : Option α} {a : α} {f : α → Option β} (hx : x = some a) :
    (x >>= f) = f a := by
  rw [hx]
  rfl

/-- A value that unfolds is printed by every depth from some depth on. -/
theorem stringify_unfolds (fl : Floats F) {src : Source F} {m : Meaning F}
    (hu : Unfolds .counted na no h src m) : ∃ d, ∀ depth, d ≤ depth → Prints fl h depth src m := by
  induction hu with
  | @null v hkind =>
    refine ⟨1, ?_⟩
    intro depth hd
    obtain ⟨depth, rfl⟩ := Nat.exists_eq_add_of_le' hd
    change stringify fl h (depth + 1) v = _
    rw [stringify, if_pos hkind]
    rfl
  | @bool v hkind =>
    refine ⟨1, ?_⟩
    intro depth hd
    obtain ⟨depth, rfl⟩ := Nat.exists_eq_add_of_le' hd
    change stringify fl h (depth + 1) v = _
    rw [stringify, if_neg (kind_ne hkind (by decide)), if_pos hkind]
    rfl
  | @number v hkind =>
    refine ⟨1, ?_⟩
    intro depth hd
    obtain ⟨depth, rfl⟩ := Nat.exists_eq_add_of_le' hd
    change stringify fl h (depth + 1) v = _
    rw [stringify, if_neg (kind_ne hkind (by decide)), if_neg (kind_ne hkind (by decide)),
      if_pos hkind]
    rfl
  | @string v hkind =>
    refine ⟨1, ?_⟩
    intro depth hd
    obtain ⟨depth, rfl⟩ := Nat.exists_eq_add_of_le' hd
    change stringify fl h (depth + 1) v = _
    rw [stringify, if_neg (kind_ne hkind (by decide)), if_neg (kind_ne hkind (by decide)),
      if_neg (kind_ne hkind (by decide)), if_pos hkind, quote_quoted, render, counted_part]
  | @array v a items js hkind hptr _ hitems _ ih =>
    obtain ⟨d, hd⟩ := ih
    refine ⟨d + 1, ?_⟩
    intro depth hdepth
    obtain ⟨depth, rfl⟩ := Nat.exists_eq_add_of_le' (Nat.le_trans (Nat.le_add_left 1 d) hdepth)
    have htexts := hd depth (by omega)
    rw [counted_part] at htexts
    change (counted items).mapM (stringify fl h depth) = some (renderAll fl js) at htexts
    change stringify fl h (depth + 1) v = _
    rw [stringify, if_neg (kind_ne hkind (by decide)), if_neg (kind_ne hkind (by decide)),
      if_neg (kind_ne hkind (by decide)), if_neg (kind_ne hkind (by decide)), if_pos hkind, hptr]
    dsimp only
    rw [bind_of_some hitems, bind_of_some htexts, render]
  | @object v o entries js hkind hptr _ hentries _ ih =>
    obtain ⟨d, hd⟩ := ih
    refine ⟨d + 1, ?_⟩
    intro depth hdepth
    obtain ⟨depth, rfl⟩ := Nat.exists_eq_add_of_le' (Nat.le_trans (Nat.le_add_left 1 d) hdepth)
    have htexts := hd depth (by omega)
    rw [counted_part] at htexts
    change (counted entries).mapM (entryText fl h depth) = some (renderMembers fl js) at htexts
    change stringify fl h (depth + 1) v = _
    rw [stringify, if_neg (kind_ne hkind (by decide)), if_neg (kind_ne hkind (by decide)),
      if_neg (kind_ne hkind (by decide)), if_neg (kind_ne hkind (by decide)),
      if_neg (kind_ne hkind (by decide)), if_pos hkind, hptr]
    dsimp only
    unfold entryText at htexts
    rw [bind_of_some hentries, bind_of_some htexts, render]
  | noItems => exact ⟨0, fun _ _ => rfl⟩
  | @item v j vs js _ _ ihv ihvs =>
    obtain ⟨d, hd⟩ := ihv
    obtain ⟨d', hd'⟩ := ihvs
    refine ⟨max d d', ?_⟩
    intro depth hdepth
    have hv : stringify fl h depth v = some (render fl j) := hd depth (by omega)
    have hvs : vs.mapM (stringify fl h depth) = some (renderAll fl js) := hd' depth (by omega)
    change (v :: vs).mapM (stringify fl h depth) = _
    rw [List.mapM_cons, hv, hvs]
    rfl
  | noEntries => exact ⟨0, fun _ _ => rfl⟩
  | @entry key v j es js _ _ ihv ihes =>
    obtain ⟨d, hd⟩ := ihv
    obtain ⟨d', hd'⟩ := ihes
    refine ⟨max d d', ?_⟩
    intro depth hdepth
    have hv : stringify fl h depth v = some (render fl j) := hd depth (by omega)
    have hes : es.mapM (entryText fl h depth) = some (renderMembers fl js) := hd' depth (by omega)
    change ((key, v) :: es).mapM (entryText fl h depth) = _
    rw [List.mapM_cons, hes, entryText, hv, quote_quoted, renderMembers, counted_part]
    rfl

theorem mapM_some {α β : Type} {f : α → Option β} {l : List α} {out : List β}
    (hl : l.mapM f = some out) : List.Forall₂ (fun a b => f a = some b) l out := by
  induction l generalizing out with
  | nil =>
    cases hl
    exact .nil
  | cons a l ih =>
    rw [List.mapM_cons] at hl
    obtain ⟨b, hb, hl⟩ := Option.bind_eq_some_iff.mp hl
    obtain ⟨rest, hrest, hl⟩ := Option.bind_eq_some_iff.mp hl
    cases hl
    exact .cons hb (ih hrest)

theorem unfolds_printed_items {depth : ℕ} {vs : List (Value F)} {texts : List Bytes}
    (hvs : ∀ v ∈ vs, ∀ text, stringify fl h depth v = some text →
      ∃ j, Unfolds .counted 0 0 h (.value v) (.value j) ∧ text = render fl j)
    (hall : List.Forall₂ (fun v text => stringify fl h depth v = some text) vs texts) :
    ∃ js, Unfolds .counted 0 0 h (.items vs) (.elements js) ∧ texts = renderAll fl js := by
  induction hall with
  | nil => exact ⟨[], .noItems, rfl⟩
  | cons hv _ ih =>
    obtain ⟨j, hj, rfl⟩ := hvs _ List.mem_cons_self _ hv
    obtain ⟨js, hjs, rfl⟩ := ih (fun v hv => hvs v (List.mem_cons_of_mem _ hv))
    exact ⟨j :: js, .item hj hjs, rfl⟩

theorem unfolds_printed_entries {depth : ℕ} {es : List (Bytes × Value F)} {texts : List Bytes}
    (hes : ∀ e ∈ es, ∀ text, stringify fl h depth e.2 = some text →
      ∃ j, Unfolds .counted 0 0 h (.value e.2) (.value j) ∧ text = render fl j)
    (hall : List.Forall₂ (fun e text => entryText fl h depth e = some text) es texts) :
    ∃ ms, Unfolds .counted 0 0 h (.entries es) (.members ms) ∧ texts = renderMembers fl ms := by
  induction hall with
  | nil => exact ⟨[], .noEntries, rfl⟩
  | @cons e text es texts he _ ih =>
    obtain ⟨key, v⟩ := e
    obtain ⟨t, ht, he⟩ := Option.bind_eq_some_iff.mp he
    cases he
    obtain ⟨j, hj, rfl⟩ := hes _ List.mem_cons_self _ ht
    obtain ⟨ms, hms, rfl⟩ := ih (fun e he => hes e (List.mem_cons_of_mem _ he))
    refine ⟨_, .entry hj hms, ?_⟩
    rw [renderMembers, counted_part, quote_quoted]

/-- Where `stringify` ends, the value unfolds and its tree is what was printed. -/
theorem unfolds_stringify (hs : Sound h) {depth : ℕ} {v : Value F} {text : Bytes}
    (hv : WellFormed v) (htext : stringify fl h depth v = some text) :
    ∃ j, Unfolds .counted 0 0 h (.value v) (.value j) ∧ text = render fl j := by
  induction depth generalizing v text with
  | zero => cases htext
  | succ depth ih =>
    rw [stringify] at htext
    rcases hv with hk | hk | hk | hk | ⟨hk, a, hptr⟩ | ⟨hk, o, hptr⟩
    · rw [if_pos hk] at htext
      cases htext
      exact ⟨.null, .null hk, rfl⟩
    · rw [if_neg (kind_ne hk (by decide)), if_pos hk] at htext
      cases htext
      exact ⟨.bool v.boolValue, .bool hk, rfl⟩
    · rw [if_neg (kind_ne hk (by decide)), if_neg (kind_ne hk (by decide)), if_pos hk] at htext
      cases htext
      exact ⟨.number v.numValue, .number hk, rfl⟩
    · rw [if_neg (kind_ne hk (by decide)), if_neg (kind_ne hk (by decide)),
        if_neg (kind_ne hk (by decide)), if_pos hk] at htext
      cases htext
      refine ⟨_, .string hk, ?_⟩
      rw [quote_quoted, render, counted_part]
    · rw [if_neg (kind_ne hk (by decide)), if_neg (kind_ne hk (by decide)),
        if_neg (kind_ne hk (by decide)), if_neg (kind_ne hk (by decide)), if_pos hk, hptr] at htext
      obtain ⟨items, hitems, htext⟩ := Option.bind_eq_some_iff.mp htext
      obtain ⟨texts, htexts, htext⟩ := Option.bind_eq_some_iff.mp htext
      cases htext
      have hwell : ∀ v ∈ counted items, WellFormed v := fun v hv =>
        hs.items items (List.mem_of_getElem? hitems) v (mem_counted hv)
      obtain ⟨js, hjs, rfl⟩ :=
        unfolds_printed_items (fun v hv text htext => ih (hwell v hv) htext) (mapM_some htexts)
      rw [← counted_part] at hjs
      exact ⟨.array js, .array hk hptr (Nat.zero_le a) hitems hjs, rfl⟩
    · rw [if_neg (kind_ne hk (by decide)), if_neg (kind_ne hk (by decide)),
        if_neg (kind_ne hk (by decide)), if_neg (kind_ne hk (by decide)),
        if_neg (kind_ne hk (by decide)), if_pos hk, hptr] at htext
      obtain ⟨entries, hentries, htext⟩ := Option.bind_eq_some_iff.mp htext
      obtain ⟨texts, htexts, htext⟩ := Option.bind_eq_some_iff.mp htext
      cases htext
      have hwell : ∀ e ∈ counted entries, WellFormed e.2 := fun e he =>
        hs.entries entries (List.mem_of_getElem? hentries) e (mem_counted he)
      obtain ⟨ms, hms, rfl⟩ :=
        unfolds_printed_entries (fun e he text htext => ih (hwell e he) htext) (mapM_some htexts)
      rw [← counted_part] at hms
      exact ⟨.object ms, .object hk hptr (Nat.zero_le o) hentries hms, rfl⟩

end Printing

section ReadingBack
variable {F : Type} {fl : Floats F} {N : F → Prop}

/-- `strconv.format_f64` prints a finite number as JSON, and `parse_f64` reads it back. -/
structure PrintsFinite (fl : Floats F) (N : F → Prop) : Prop where
  number : ∀ x, N x → Number (fl.formatF64 x)
  readsBack : ∀ x, N x → fl.parseF64 (fl.formatF64 x) = some x

theorem PrintsFinite.ne_nil (hfl : PrintsFinite fl N) (x : F) (hx : N x) :
    fl.formatF64 x ≠ [] := by
  obtain ⟨minus, int, frac, exp, htext, _, hint, _, _⟩ := hfl.number x hx
  rcases hint with rfl | ⟨b, rest, rfl, _⟩
  · simp [htext]
  · simp [htext]

theorem hexDigit_value {v : ℕ} (hv : v < 16) : ∃ c, hexDigit v = [c] ∧ hexValue c = .ok v := by
  interval_cases v <;> exact ⟨_, rfl, rfl⟩

theorem strRune_ascii {b : UInt8} (hb : b.toNat ≤ 0x7F) : strRune b.toNat = [b] := by
  rw [strRune, if_pos hb, UInt8.ofNat_toNat]

/-- What `_quote` writes for a byte stands for that byte. -/
theorem quoteByte_charsText (b : UInt8) {t s : Bytes} (ht : CharsText t s) :
    CharsText (quoteByte b ++ t) (b :: s) := by
  unfold quoteByte
  by_cases h₁ : b = 34
  · rw [if_pos h₁, h₁]
    exact .escaped .quote ht
  rw [if_neg h₁]
  by_cases h₂ : b = 92
  · rw [if_pos h₂, h₂]
    exact .escaped .backslash ht
  rw [if_neg h₂]
  by_cases h₃ : b = 8
  · rw [if_pos h₃, h₃]
    exact .escaped .backspace ht
  rw [if_neg h₃]
  by_cases h₄ : b = 9
  · rw [if_pos h₄, h₄]
    exact .escaped .tab ht
  rw [if_neg h₄]
  by_cases h₅ : b = 10
  · rw [if_pos h₅, h₅]
    exact .escaped .newline ht
  rw [if_neg h₅]
  by_cases h₆ : b = 12
  · rw [if_pos h₆, h₆]
    exact .escaped .formFeed ht
  rw [if_neg h₆]
  by_cases h₇ : b = 13
  · rw [if_pos h₇, h₇]
    exact .escaped .carriageReturn ht
  rw [if_neg h₇]
  by_cases h₈ : b < 32
  · -- a `\u00` escape with the two digits of the byte
    have hlt : b.toNat < 32 := UInt8.lt_iff_toNat_lt.mp h₈
    obtain ⟨c, hc, hcv⟩ := hexDigit_value (v := b.toNat / 16) (by omega)
    obtain ⟨d, hd, hdv⟩ := hexDigit_value (v := b.toNat % 16) (by omega)
    have hescape := EscapeText.unicode (a := 48) (b := 48) rfl rfl hcv hdv
    have hvalue : ((0 * 16 + 0) * 16 + 0) * 16 + b.toNat / 16 = b.toNat / 16 := by omega
    have hbyte : b.toNat / 16 * 16 + b.toNat % 16 = b.toNat := by omega
    have hpiece : strRune ((((0 * 16 + (48 - 48)) * 16 + (48 - 48)) * 16 + b.toNat / 16) * 16 +
        b.toNat % 16) = [b] := by
      rw [← strRune_ascii (by omega)]
      congr 1
      omega
    have hchars := CharsText.escaped hescape ht
    rw [if_pos h₈, hc, hd]
    change CharsText _ (strRune ((((0 * 16 + (48 - 48)) * 16 + (48 - 48)) * 16 + b.toNat / 16) * 16 +
        b.toNat % 16) ++ s) at hchars
    rw [hpiece] at hchars
    exact hchars
  · rw [if_neg h₈]
    exact .unescaped (UInt8.not_lt.mp h₈) h₁ h₂ ht

theorem quoted_charsText (s : Bytes) : CharsText (s.flatMap quoteByte) s := by
  induction s with
  | nil => exact .nil
  | cons b s ih => exact quoteByte_charsText b ih

/-- Members without a key given twice are set as they come. -/
theorem foldl_setEntry {β : Type} (es : List (Bytes × β)) {ms : List (Bytes × β)}
    (hmeasured : Measured (es ++ ms)) (hkeys : ((es ++ ms).map Prod.fst).Nodup) :
    ms.foldl (fun entries m => setEntry entries m.1 m.2) es = es ++ ms := by
  induction ms generalizing es with
  | nil => exact (List.append_nil es).symm
  | cons m ms ih =>
    have hes : Measured es := by
      unfold Measured at hmeasured ⊢
      rw [List.length_append] at hmeasured
      omega
    have habsent : ∀ e ∈ es, e.1 ≠ m.1 := by
      intro e he hkey
      rw [List.map_append, List.map_cons] at hkeys
      exact List.disjoint_of_nodup_append hkeys (List.mem_map_of_mem he)
        (hkey ▸ List.mem_cons_self)
    have hany : es.any (fun e => e.1 == m.1) = false := by
      rw [List.any_eq_false]
      intro e he
      exact fun h => habsent e he (eq_of_beq h)
    have hmap : es.map (fun e => if e.1 = m.1 then (m.1, m.2) else e) = es := by
      refine (List.map_congr_left ?_).trans (List.map_id es)
      intro e he
      exact if_neg (habsent e he)
    have hset : setEntry es m.1 m.2 = es ++ [m] := by
      unfold setEntry
      rw [hes.counted, hany, hmap]
      rfl
    have hassoc : es ++ [m] ++ ms = es ++ m :: ms := by simp
    rw [List.foldl_cons, hset, ih _ (by rw [hassoc]; exact hmeasured) (by rw [hassoc]; exact hkeys),
      hassoc]

def printableShape (N : F → Prop) : Shape F :=
  ((numberShape N).and (countedShape F)).and (keyShape F)

theorem quoted_eq (s : Bytes) : quoted s = 34 :: (s.flatMap quoteByte ++ [34]) := rfl

/-- The compact text of a tree reads as the tree. -/
theorem reads_compact (hfl : PrintsFinite fl N) {m : Meaning F} (hm : Every (printableShape N) m)
    (hparts : parts m ≠ 0) : Reads fl (compact fl m) m := by
  induction hm with
  | null => exact .null
  | @bool b =>
    cases b with
    | true => exact .true
    | false => exact .false
  | @number x hx => exact .number (hfl.number x hx.1.1) (hfl.readsBack x hx.1.1)
  | @string s _ => exact .string (quoted_charsText s)
  | @array js _ _ ih =>
    cases js with
    | nil => exact .emptyArray Ws.nil
    | cons j js => exact .array (ih (Nat.succ_ne_zero _))
  | @object ms hms _ ih =>
    obtain ⟨⟨_, hmeasured⟩, hkeys⟩ := hms
    cases ms with
    | nil => exact .emptyObject Ws.nil
    | cons m ms =>
      have hread := Reads.object (ih (Nat.succ_ne_zero _))
      have hset : setAll (m :: ms) = m :: ms := foldl_setEntry [] hmeasured hkeys
      rw [hset] at hread
      exact hread
  | noItems => exact absurd rfl hparts
  | @item j js _ _ ihj ihjs =>
    have hj := ihj Nat.one_ne_zero
    cases js with
    | nil =>
      have hread := Reads.lastElement Ws.nil hj Ws.nil
      rw [List.nil_append, List.append_nil] at hread
      exact hread
    | cons j' js =>
      rw [compact_elements j (List.cons_ne_nil j' js)]
      exact .element Ws.nil hj Ws.nil (ihjs (Nat.succ_ne_zero _))
  | noMembers => exact absurd rfl hparts
  | @member key j ms _ _ _ ihj ihms =>
    have hkey := quoted_charsText key
    have hj := ihj Nat.one_ne_zero
    cases ms with
    | nil =>
      have hread := Reads.lastMember Ws.nil hkey Ws.nil Ws.nil hj Ws.nil
      have htext : compact fl (.members [(key, j)]) = [] ++ (34 :: (key.flatMap quoteByte ++
          34 :: ([] ++ 58 :: ([] ++ (compact fl (.value j) ++ []))))) := by
        change quoted key ++ [58] ++ render fl j = _
        simp [quoted_eq, compact]
      rw [htext]
      exact hread
    | cons m ms =>
      have hread := Reads.member Ws.nil hkey Ws.nil Ws.nil hj Ws.nil (ihms (Nat.succ_ne_zero _))
      have htext : compact fl (.members ((key, j) :: m :: ms)) = [] ++ (34 :: (key.flatMap quoteByte ++
          34 :: ([] ++ 58 :: ([] ++ (compact fl (.value j) ++ ([] ++
            44 :: compact fl (.members (m :: ms)))))))) := by
        rw [compact_members key j (List.cons_ne_nil m ms)]
        simp [quoted_eq, compact]
      rw [htext]
      exact hread

end ReadingBack

section Sizes
variable {F : Type} {fl : Floats F}

theorem strRune_length (r : ℕ) : (strRune r).length ≤ 4 := by
  unfold strRune
  split_ifs <;> simp

theorem escapeText_length {e piece : Bytes} (h : EscapeText e piece) :
    piece.length ≤ e.length := by
  cases h with
  | quote | backslash | slash | backspace | formFeed | newline | carriageReturn | tab => decide
  | unicode => exact Nat.le_trans (strRune_length _) (Nat.le_add_left 4 1)

theorem charsText_length {t s : Bytes} (h : CharsText t s) : s.length ≤ t.length := by
  induction h with
  | nil => exact Nat.le_refl 0
  | unescaped _ _ _ _ ih => exact Nat.succ_le_succ ih
  | escaped he _ ih =>
    have hpiece := escapeText_length he
    rw [List.length_append, List.length_cons, List.length_append]
    omega

theorem setEntry_length {β : Type} (es : List (Bytes × β)) (key : Bytes) (item : β) :
    (setEntry es key item).length ≤ es.length + 1 := by
  have hcounted : (counted es).length ≤ es.length := List.length_take_le' _ _
  unfold setEntry
  dsimp only
  split
  · rw [List.length_map]
    omega
  · rw [List.length_append, List.length_map, List.length_singleton]
    omega

theorem every_members {P : Shape F} {ms : List (Bytes × Json F)} :
    Every P (.members ms) ↔ ∀ m ∈ ms, P.string m.1 ∧ Every P (.value m.2) := by
  induction ms with
  | nil => exact ⟨fun _ _ hm => absurd hm List.not_mem_nil, fun _ => .noMembers⟩
  | cons m ms ih =>
    constructor
    · intro h m' hm'
      cases h with
      | member hkey hj hms =>
        rcases List.mem_cons.mp hm' with rfl | hm'
        · exact ⟨hkey, hj⟩
        · exact ih.mp hms m' hm'
    · intro h
      obtain ⟨hkey, hj⟩ := h m List.mem_cons_self
      exact .member hkey hj (ih.mpr (fun m' hm' => h m' (List.mem_cons_of_mem m hm')))

theorem foldl_setEntry_counted (es : List (Bytes × Json F)) {ms : List (Bytes × Json F)}
    (hes : Every (countedShape F) (.members es)) (hms : Every (countedShape F) (.members ms)) :
    Every (countedShape F) (.members (ms.foldl (fun entries m => setEntry entries m.1 m.2) es)) ∧
      (ms.foldl (fun entries m => setEntry entries m.1 m.2) es).length ≤ es.length + ms.length := by
  induction ms generalizing es with
  | nil => exact ⟨hes, Nat.le_refl _⟩
  | cons m ms ih =>
    have hm := every_members.mp hms
    have hset : Every (countedShape F) (.members (setEntry es m.1 m.2)) := by
      refine every_members.mpr ?_
      intro e he
      rcases mem_setEntry he with rfl | he
      · exact hm m List.mem_cons_self
      · exact every_members.mp hes e he
    obtain ⟨hall, hlength⟩ :=
      ih _ hset (every_members.mpr (fun m' hm' => hm m' (List.mem_cons_of_mem m hm')))
    have hone := setEntry_length es m.1 m.2
    rw [List.foldl_cons, List.length_cons]
    exact ⟨hall, by omega⟩

/-- What is read from a text shorter than `2 ^ 31` bytes has no part that `len` cuts off. -/
theorem reads_counted {t : Bytes} {m : Meaning F} (h : Reads fl t m) (hlen : Measured t) :
    Every (countedShape F) m ∧ parts m ≤ t.length + 1 := by
  unfold Measured at hlen
  induction h with
  | null => exact ⟨.null, Nat.le_add_left 1 _⟩
  | true => exact ⟨.bool, Nat.le_add_left 1 _⟩
  | false => exact ⟨.bool, Nat.le_add_left 1 _⟩
  | number => exact ⟨.number trivial, Nat.le_add_left 1 _⟩
  | string hs =>
    have hs := charsText_length hs
    simp only [List.length_cons, List.length_append, List.length_nil] at hlen
    refine ⟨.string ?_, Nat.le_add_left 1 _⟩
    unfold countedShape Measured
    dsimp only
    omega
  | emptyArray => exact ⟨.array measured_nil .noItems, Nat.le_add_left 1 _⟩
  | array _ ih =>
    simp only [List.length_cons, List.length_append, List.length_nil] at hlen
    obtain ⟨hall, hparts⟩ := ih (by omega)
    refine ⟨.array ?_ hall, Nat.le_add_left 1 _⟩
    unfold countedShape Measured
    dsimp only [parts] at hparts ⊢
    omega
  | emptyObject => exact ⟨.object measured_nil .noMembers, Nat.le_add_left 1 _⟩
  | @object t ms _ ih =>
    simp only [List.length_cons, List.length_append, List.length_nil] at hlen
    obtain ⟨hall, hparts⟩ := ih (by omega)
    obtain ⟨hset, hlength⟩ := foldl_setEntry_counted [] .noMembers hall
    refine ⟨.object ?_ hset, Nat.le_add_left 1 _⟩
    unfold countedShape Measured setAll
    dsimp only [parts, List.length_nil] at hparts hlength ⊢
    omega
  | lastElement _ _ _ ih =>
    simp only [List.length_append] at hlen
    exact ⟨.item (ih (by omega)).1 .noItems, Nat.le_add_left 1 _⟩
  | element _ _ _ _ ih ihrest =>
    simp only [List.length_append, List.length_cons] at hlen ⊢
    obtain ⟨hall, hparts⟩ := ihrest (by omega)
    refine ⟨.item (ih (by omega)).1 hall, ?_⟩
    dsimp only [parts, List.length_cons] at hparts ⊢
    omega
  | lastMember _ hk _ _ _ _ ih =>
    have hkey := charsText_length hk
    simp only [List.length_append, List.length_cons] at hlen
    refine ⟨.member ?_ (ih (by omega)).1 .noMembers, Nat.le_add_left 1 _⟩
    unfold countedShape Measured
    dsimp only
    omega
  | member _ hk _ _ _ _ _ ih ihrest =>
    have hkey := charsText_length hk
    simp only [List.length_append, List.length_cons] at hlen ⊢
    obtain ⟨hall, hparts⟩ := ihrest (by omega)
    refine ⟨.member ?_ (ih (by omega)).1 hall, ?_⟩
    · unfold countedShape Measured
      dsimp only
      omega
    · dsimp only [parts, List.length_cons] at hparts ⊢
      omega

end Sizes

end NewClLang.JsonPrinting
