import NewClLang.JsonBuilding
import NewClLang.JsonScanning

set_option autoImplicit false

/-!
# What holds of every part of a tree

A condition for each kind of part: its numbers, its strings and keys, the items of an array and the
members of an object. The trees whose parts `len` counts in full, the ones with finite numbers, and
the ones without a key given twice.
-/
namespace NewClLang.JsonShapes
open JsonModule JsonTrees JsonScanning JsonBuilding

section Parts
variable {F : Type}

structure Shape (F : Type) where
  number : F → Prop
  string : Bytes → Prop
  array : List (Json F) → Prop
  object : List (Bytes × Json F) → Prop

inductive Every (P : Shape F) : Meaning F → Prop where
  | null : Every P (.value .null)
  | bool {b : Bool} : Every P (.value (.bool b))
  | number {x : F} (h : P.number x) : Every P (.value (.number x))
  | string {s : Bytes} (h : P.string s) : Every P (.value (.string s))
  | array {js : List (Json F)} (h : P.array js) (hall : Every P (.elements js)) :
      Every P (.value (.array js))
  | object {ms : List (Bytes × Json F)} (h : P.object ms) (hall : Every P (.members ms)) :
      Every P (.value (.object ms))
  | noItems : Every P (.elements [])
  | item {j : Json F} {js : List (Json F)} (hj : Every P (.value j))
      (hjs : Every P (.elements js)) : Every P (.elements (j :: js))
  | noMembers : Every P (.members [])
  | member {key : Bytes} {j : Json F} {ms : List (Bytes × Json F)} (hkey : P.string key)
      (hj : Every P (.value j)) (hms : Every P (.members ms)) : Every P (.members ((key, j) :: ms))

def Shape.and (P Q : Shape F) : Shape F where
  number := fun x => P.number x ∧ Q.number x
  string := fun s => P.string s ∧ Q.string s
  array := fun js => P.array js ∧ Q.array js
  object := fun ms => P.object ms ∧ Q.object ms

theorem Every.and {P Q : Shape F} {m : Meaning F} (hP : Every P m) (hQ : Every Q m) :
    Every (P.and Q) m := by
  induction hP with
  | null => exact .null
  | bool => exact .bool
  | number h =>
    cases hQ with
    | number h' => exact .number ⟨h, h'⟩
  | string h =>
    cases hQ with
    | string h' => exact .string ⟨h, h'⟩
  | array h _ ih =>
    cases hQ with
    | array h' hall => exact .array ⟨h, h'⟩ (ih hall)
  | object h _ ih =>
    cases hQ with
    | object h' hall => exact .object ⟨h, h'⟩ (ih hall)
  | noItems => exact .noItems
  | item _ _ ihj ihjs =>
    cases hQ with
    | item hj hjs => exact .item (ihj hj) (ihjs hjs)
  | noMembers => exact .noMembers
  | member hkey _ _ ihj ihms =>
    cases hQ with
    | member hkey' hj hms => exact .member ⟨hkey, hkey'⟩ (ihj hj) (ihms hms)

/-- `len` counts every string, array and object in full. -/
def countedShape (F : Type) : Shape F where
  number := fun _ => True
  string := Measured
  array := Measured
  object := Measured

def numberShape (N : F → Prop) : Shape F := ⟨N, fun _ => True, fun _ => True, fun _ => True⟩

/-- No object has a key twice. -/
def keyShape (F : Type) : Shape F :=
  ⟨fun _ => True, fun _ => True, fun _ => True, fun ms => (ms.map Prod.fst).Nodup⟩

theorem counted_part {α : Type} (l : List α) : Window.counted.part l = counted l := by
  dsimp only [Window.counted]

theorem Measured.part {α : Type} {l : List α} (hl : Measured l) : Window.counted.part l = l :=
  (counted_part l).trans hl.counted

/-- Where everything is counted, loops over `0..len(l)` look at everything. -/
theorem unfolds_counted {na no : ℕ} {h : Heap F} {src : Source F} {m : Meaning F}
    (hu : Unfolds .full na no h src m) (hm : Every (countedShape F) m) :
    Unfolds .counted na no h src m := by
  induction hu with
  | null hkind => exact .null hkind
  | bool hkind => exact .bool hkind
  | number hkind => exact .number hkind
  | @string v hkind =>
    cases hm with
    | string hs =>
      have hmeasured : Measured v.strValue := hs
      have hpart := Measured.part hmeasured
      have hu : Unfolds .counted na no h (.value v)
          (.value (.string (Window.counted.part v.strValue))) := .string hkind
      rw [hpart] at hu
      exact hu
  | @array v a items js hkind hptr hna hitems hall ih =>
    cases hm with
    | array hlen hjs =>
      have hitems_len : items.length = js.length := (unfolds_items.mp hall).length_eq
      have hmeasured : Measured items := Nat.lt_of_le_of_lt (Nat.le_of_eq hitems_len) hlen
      have hpart := Measured.part hmeasured
      refine .array hkind hptr hna hitems ?_
      rw [hpart]
      exact ih hjs
  | @object v o entries js hkind hptr hno hentries hall ih =>
    cases hm with
    | object hlen hms =>
      have hentries_len : entries.length = js.length := (unfolds_entries.mp hall).length_eq
      have hmeasured : Measured entries := Nat.lt_of_le_of_lt (Nat.le_of_eq hentries_len) hlen
      have hpart := Measured.part hmeasured
      refine .object hkind hptr hno hentries ?_
      rw [hpart]
      exact ih hms
  | noItems => exact .noItems
  | item _ _ ihv ihvs =>
    cases hm with
    | item hj hjs => exact .item (ihv hj) (ihvs hjs)
  | noEntries => exact .noEntries
  | @entry key v j es js _ _ ihv ihes =>
    cases hm with
    | member hkey hj hms =>
      have hmeasured : Measured key := hkey
      have hpart := Measured.part hmeasured
      have hu : Unfolds .counted na no h (.entries ((key, v) :: es))
          (.members ((Window.counted.part key, j) :: js)) := .entry (ihv hj) (ihes hms)
      rw [hpart] at hu
      exact hu

theorem keys_eq {β γ : Type} {es : List (Bytes × β)} {ms : List (Bytes × γ)}
    (h : List.Forall₂ (fun e m => m.1 = e.1) es ms) : ms.map Prod.fst = es.map Prod.fst := by
  induction h with
  | nil => rfl
  | cons hkey _ ih => rw [List.map_cons, List.map_cons, ih, hkey]

theorem unfolds_keys {na no : ℕ} {h : Heap F} {src : Source F} {m : Meaning F} (hs : Sound h)
    (hu : Unfolds .full na no h src m) : Every (keyShape F) m := by
  induction hu with
  | null => exact .null
  | bool => exact .bool
  | number => exact .number trivial
  | string => exact .string trivial
  | array _ _ _ _ _ ih => exact .array trivial ih
  | @object v o entries js _ _ _ hentries hall ih =>
    have hkeys := hs.keys entries (List.mem_of_getElem? hentries)
    have hsame : js.map Prod.fst = entries.map Prod.fst := by
      refine keys_eq ?_
      exact (unfolds_entries.mp hall).imp (fun e m h => h.1)
    refine .object ?_ ih
    change (js.map Prod.fst).Nodup
    rw [hsame]
    exact hkeys
  | noItems => exact .noItems
  | item _ _ ihv ihvs => exact .item ihv ihvs
  | noEntries => exact .noMembers
  | entry _ _ ihv ihes => exact .member trivial ihv ihes

end Parts

section Texts
variable {F : Type} {fl : Floats F}

/-- The compact text of a tree, of the items of an array or of the members of an object. -/
def compact (fl : Floats F) : Meaning F → Bytes
  | .value j => render fl j
  | .elements js => joinComma (renderAll fl js)
  | .members ms => joinComma (renderMembers fl ms)

theorem joinComma_cons (t : Bytes) {rest : List Bytes} (hrest : rest ≠ []) :
    joinComma (t :: rest) = t ++ 44 :: joinComma rest := by
  cases rest with
  | nil => exact absurd rfl hrest
  | cons u rest =>
    rw [joinComma, List.append_assoc]
    rfl

theorem compact_elements (j : Json F) {js : List (Json F)} (hjs : js ≠ []) :
    compact fl (.elements (j :: js)) = render fl j ++ 44 :: compact fl (.elements js) := by
  refine joinComma_cons _ ?_
  cases js with
  | nil => exact absurd rfl hjs
  | cons j' js => exact List.cons_ne_nil _ _

theorem compact_members (key : Bytes) (j : Json F) {ms : List (Bytes × Json F)} (hms : ms ≠ []) :
    compact fl (.members ((key, j) :: ms)) =
      quoted key ++ [58] ++ render fl j ++ 44 :: compact fl (.members ms) := by
  refine joinComma_cons _ ?_
  cases ms with
  | nil => exact absurd rfl hms
  | cons m ms => exact List.cons_ne_nil _ _

theorem quoteByte_length (b : UInt8) : 1 ≤ (quoteByte b).length := by
  unfold quoteByte
  split_ifs <;> simp

theorem quoted_length (s : Bytes) : s.length + 2 ≤ (quoted s).length := by
  have hbody : s.length ≤ (s.flatMap quoteByte).length := by
    induction s with
    | nil => simp
    | cons b s ih =>
      have hb := quoteByte_length b
      rw [List.flatMap_cons, List.length_append, List.length_cons]
      omega
  simp only [quoted, List.length_append, List.length_cons, List.length_nil]
  omega

/-- How many parts there are at the top, where a value is one. -/
def parts : Meaning F → ℕ
  | .value _ => 1
  | .elements js => js.length
  | .members ms => ms.length

/-- A tree whose text is shorter than `2 ^ 31` bytes has no part that `len` cuts off, and its
    text is not empty. -/
theorem compact_counted {N : F → Prop} (hprint : ∀ x, N x → fl.formatF64 x ≠ [])
    {m : Meaning F} (hm : Every (numberShape N) m) (hlen : (compact fl m).length < 2147483648) :
    Every (countedShape F) m ∧ parts m ≤ (compact fl m).length := by
  induction hm with
  | null => exact ⟨.null, Nat.le_add_left 1 3⟩
  | @bool b =>
    refine ⟨.bool, ?_⟩
    cases b with
    | true => exact Nat.le_add_left 1 3
    | false => exact Nat.le_add_left 1 4
  | @number x hx => exact ⟨.number trivial, List.length_pos_iff.mpr (hprint x hx)⟩
  | @string s _ =>
    have hs := quoted_length s
    change (quoted s).length < 2147483648 at hlen
    refine ⟨.string ?_, ?_⟩
    · unfold countedShape Measured
      dsimp only
      omega
    · change 1 ≤ (quoted s).length
      omega
  | @array js _ _ ih =>
    have htext : (compact fl (.value (.array js))).length =
        (compact fl (.elements js)).length + 2 := by
      change ([91] ++ joinComma (renderAll fl js) ++ [93]).length =
        (joinComma (renderAll fl js)).length + 2
      simp only [List.length_append, List.length_cons, List.length_nil]
      omega
    rw [htext] at hlen
    obtain ⟨hall, hcount⟩ := ih (by omega)
    refine ⟨.array ?_ hall, by rw [htext]; exact Nat.le_add_left 1 _⟩
    unfold countedShape Measured
    dsimp only [parts] at hcount ⊢
    omega
  | @object ms _ _ ih =>
    have htext : (compact fl (.value (.object ms))).length =
        (compact fl (.members ms)).length + 2 := by
      change ([123] ++ joinComma (renderMembers fl ms) ++ [125]).length =
        (joinComma (renderMembers fl ms)).length + 2
      simp only [List.length_append, List.length_cons, List.length_nil]
      omega
    rw [htext] at hlen
    obtain ⟨hall, hcount⟩ := ih (by omega)
    refine ⟨.object ?_ hall, by rw [htext]; exact Nat.le_add_left 1 _⟩
    unfold countedShape Measured
    dsimp only [parts] at hcount ⊢
    omega
  | noItems => exact ⟨.noItems, Nat.zero_le _⟩
  | @item j js _ hjs ihj ihjs =>
    cases js with
    | nil =>
      obtain ⟨hj, hcount⟩ := ihj hlen
      exact ⟨.item hj .noItems, hcount⟩
    | cons j' js =>
      rw [compact_elements j (List.cons_ne_nil j' js), List.length_append,
        List.length_cons] at hlen ⊢
      obtain ⟨hj, hcount⟩ := ihj (by change (render fl j).length < 2147483648; omega)
      obtain ⟨hjs, hcounts⟩ := ihjs (by omega)
      refine ⟨.item hj hjs, ?_⟩
      dsimp only [parts, compact] at hcount hcounts ⊢
      rw [List.length_cons]
      omega
  | noMembers => exact ⟨.noMembers, Nat.zero_le _⟩
  | @member key j ms _ _ hms ihj ihms =>
    have hkey := quoted_length key
    cases ms with
    | nil =>
      have htext : (compact fl (.members [(key, j)])).length =
          (quoted key).length + 1 + (render fl j).length := by
        change (quoted key ++ [58] ++ render fl j).length = _
        simp only [List.length_append, List.length_cons, List.length_nil]
      rw [htext] at hlen ⊢
      obtain ⟨hj, hcount⟩ := ihj (by change (render fl j).length < 2147483648; omega)
      refine ⟨.member ?_ hj .noMembers, ?_⟩
      · unfold countedShape Measured
        dsimp only
        omega
      · dsimp only [parts, List.length_cons, List.length_nil]
        omega
    | cons m ms =>
      have htext : (compact fl (.members ((key, j) :: m :: ms))).length =
          (quoted key).length + 1 + (render fl j).length + 1 +
            (compact fl (.members (m :: ms))).length := by
        rw [compact_members key j (List.cons_ne_nil m ms)]
        simp only [List.length_append, List.length_cons, List.length_nil]
        omega
      rw [htext] at hlen ⊢
      obtain ⟨hj, hcount⟩ := ihj (by change (render fl j).length < 2147483648; omega)
      obtain ⟨hms, hcounts⟩ := ihms (by omega)
      refine ⟨.member ?_ hj hms, ?_⟩
      · unfold countedShape Measured
        dsimp only
        omega
      · dsimp only [parts] at hcounts ⊢
        rw [List.length_cons]
        omega

end Texts

end NewClLang.JsonShapes
