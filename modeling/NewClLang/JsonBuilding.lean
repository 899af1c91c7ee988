import Mathlib.Data.List.Forall2
import Mathlib.Data.List.Nodup
import NewClLang.JsonTrees

set_option autoImplicit false

/-!
# Arrays and objects under construction

The parser makes the array or object first and appends what it reads to it. The heap keeps what was
there before, and what is new unfolds to the items or members read so far.
-/
namespace NewClLang.JsonBuilding
open JsonModule JsonTrees

section Heaps
variable {F : Type} {h h' : Heap F}

theorem Keeps.arrays_le (hk : Keeps 0 0 h h') : h.arrays.length ≤ h'.arrays.length := by
  by_contra hlt
  have hlast : h'.arrays.length < h.arrays.length := Nat.not_le.mp hlt
  have hkept := hk.arrays _ _ (Nat.zero_le _) (List.getElem?_eq_getElem hlast)
  rw [List.getElem?_eq_none (le_refl _)] at hkept
  cases hkept

theorem Keeps.objects_le (hk : Keeps 0 0 h h') : h.objects.length ≤ h'.objects.length := by
  by_contra hlt
  have hlast : h'.objects.length < h.objects.length := Nat.not_le.mp hlt
  have hkept := hk.objects _ _ (Nat.zero_le _) (List.getElem?_eq_getElem hlast)
  rw [List.getElem?_eq_none (le_refl _)] at hkept
  cases hkept

/-- What is there from `na` on is not touched by a change of the array before. -/
theorem keeps_setArray {a na : ℕ} (no : ℕ) (items : List (Value F)) (hlt : a < na) :
    Keeps na no h { h with arrays := h.arrays.set a items } where
  arrays := by
    intro b found hb hfound
    change (h.arrays.set a items)[b]? = _
    rw [List.getElem?_set_ne (by omega)]
    exact hfound
  objects := fun _ _ _ hentries => hentries

theorem keeps_setObject {o no : ℕ} (na : ℕ) (entries : List (Bytes × Value F)) (hlt : o < no) :
    Keeps na no h { h with objects := h.objects.set o entries } where
  arrays := fun _ _ _ hitems => hitems
  objects := by
    intro b found hb hfound
    change (h.objects.set o entries)[b]? = _
    rw [List.getElem?_set_ne (by omega)]
    exact hfound

/-- What is new since `h` can change. -/
theorem Keeps.setArray {a : ℕ} (hk : Keeps 0 0 h h') (hle : h.arrays.length ≤ a)
    (items : List (Value F)) : Keeps 0 0 h { h' with arrays := h'.arrays.set a items } where
  arrays := by
    intro b found hb hfound
    have hlt := (List.getElem?_eq_some_iff.mp hfound).1
    change (h'.arrays.set a items)[b]? = _
    rw [List.getElem?_set_ne (by omega)]
    exact hk.arrays b found hb hfound
  objects := hk.objects

theorem Keeps.setObject {o : ℕ} (hk : Keeps 0 0 h h') (hle : h.objects.length ≤ o)
    (entries : List (Bytes × Value F)) :
    Keeps 0 0 h { h' with objects := h'.objects.set o entries } where
  arrays := hk.arrays
  objects := by
    intro b found hb hfound
    have hlt := (List.getElem?_eq_some_iff.mp hfound).1
    change (h'.objects.set o entries)[b]? = _
    rw [List.getElem?_set_ne (by omega)]
    exact hk.objects b found hb hfound

theorem keeps_newArray (fl : Floats F) : Keeps 0 0 h (array fl h).2 where
  arrays := by
    intro a items _ hitems
    have hlt := (List.getElem?_eq_some_iff.mp hitems).1
    change (h.arrays ++ [[]])[a]? = _
    rw [List.getElem?_append_left hlt]
    exact hitems
  objects := fun _ _ _ hentries => hentries

theorem keeps_newObject (fl : Floats F) : Keeps 0 0 h (object fl h).2 where
  arrays := fun _ _ _ hitems => hitems
  objects := by
    intro o entries _ hentries
    have hlt := (List.getElem?_eq_some_iff.mp hentries).1
    change (h.objects ++ [[]])[o]? = _
    rw [List.getElem?_append_left hlt]
    exact hentries

end Heaps

section Lists
variable {F : Type} {w : Window} {na no : ℕ} {h : Heap F}

theorem unfolds_items {vs : List (Value F)} {js : List (Json F)} :
    Unfolds w na no h (.items vs) (.elements js) ↔
      List.Forall₂ (fun v j => Unfolds w na no h (.value v) (.value j)) vs js := by
  constructor
  · intro hu
    induction vs generalizing js with
    | nil =>
      cases hu
      exact .nil
    | cons v vs ih =>
      cases hu with
      | item hv hvs => exact .cons hv (ih hvs)
  · intro hall
    induction hall with
    | nil => exact .noItems
    | cons hv _ ih => exact .item hv ih

theorem unfolds_entries {es : List (Bytes × Value F)} {ms : List (Bytes × Json F)} :
    Unfolds w na no h (.entries es) (.members ms) ↔
      List.Forall₂ (fun e m => m.1 = w.part e.1 ∧ Unfolds w na no h (.value e.2) (.value m.2))
        es ms := by
  constructor
  · intro hu
    induction es generalizing ms with
    | nil =>
      cases hu
      exact .nil
    | cons e es ih =>
      cases hu with
      | entry hv hes => exact .cons ⟨rfl, hv⟩ (ih hes)
  · intro hall
    induction hall with
    | nil => exact .noEntries
    | @cons e m es ms hm _ ih =>
      obtain ⟨key, v⟩ := e
      obtain ⟨key', j⟩ := m
      obtain ⟨hkey, hv⟩ := hm
      cases hkey
      exact .entry hv ih

/-- Setting the same key on both sides keeps entries related that have the same keys. -/
theorem setEntry_related {β γ : Type} {R : β → γ → Prop} {es : List (Bytes × β)}
    {ms : List (Bytes × γ)} (hall : List.Forall₂ (fun e m => m.1 = e.1 ∧ R e.2 m.2) es ms)
    (key : Bytes) {v : β} {j : γ} (hnew : R v j) :
    List.Forall₂ (fun e m => m.1 = e.1 ∧ R e.2 m.2) (setEntry es key v) (setEntry ms key j) := by
  have hlen : len es = len ms := congrArg (fun n : ℕ => WrappedIntegers.wrap32 n) hall.length_eq
  have hcounted : List.Forall₂ (fun e m => m.1 = e.1 ∧ R e.2 m.2) (counted es) (counted ms) := by
    unfold counted
    rw [hlen]
    exact List.forall₂_take _ hall
  generalize hes : counted es = es' at hcounted
  generalize hms : counted ms = ms' at hcounted
  have hany : es'.any (fun e => e.1 == key) = ms'.any (fun m => m.1 == key) := by
    clear hes hms
    induction hcounted with
    | nil => rfl
    | cons hm _ ih => rw [List.any_cons, List.any_cons, hm.1, ih]
  have hmap : List.Forall₂ (fun e m => m.1 = e.1 ∧ R e.2 m.2)
      (es'.map (fun e => if e.1 = key then (key, v) else e))
      (ms'.map (fun m => if m.1 = key then (key, j) else m)) := by
    clear hes hms hany
    induction hcounted with
    | nil => exact .nil
    | cons hm _ ih =>
      rw [List.map_cons, List.map_cons, hm.1]
      refine .cons ?_ ih
      split
      · exact ⟨rfl, hnew⟩
      · exact hm
  unfold setEntry
  rw [hes, hms, hany]
  dsimp only
  split
  · exact hmap
  · exact List.rel_append hmap (.cons ⟨rfl, hnew⟩ .nil)

theorem unfolds_setEntry {es : List (Bytes × Value F)} {ms : List (Bytes × Json F)} {key : Bytes}
    {v : Value F} {j : Json F} (hes : Unfolds .full na no h (.entries es) (.members ms))
    (hv : Unfolds .full na no h (.value v) (.value j)) :
    Unfolds .full na no h (.entries (setEntry es key v)) (.members (setEntry ms key j)) := by
  have hall := setEntry_related (R := fun v j => Unfolds .full na no h (.value v) (.value j))
    (unfolds_entries.mp hes) key hv
  generalize setEntry es key v = es' at hall ⊢
  generalize setEntry ms key j = ms' at hall ⊢
  exact unfolds_entries.mpr hall

end Lists

section Sound
variable {F : Type} {h : Heap F} {v : Value F}

/-- The kind is one of the six, and an array or object has its pointer. -/
def WellFormed (v : Value F) : Prop :=
  v.kindValue = 0 ∨ v.kindValue = 1 ∨ v.kindValue = 2 ∨ v.kindValue = 3 ∨
    (v.kindValue = 4 ∧ ∃ a, v.arrValue = some a) ∨ (v.kindValue = 5 ∧ ∃ o, v.objValue = some o)

/-- Every value in the heap is well formed and no object has a key twice. -/
structure Sound (h : Heap F) : Prop where
  items : ∀ items ∈ h.arrays, ∀ v ∈ items, WellFormed v
  entries : ∀ entries ∈ h.objects, ∀ e ∈ entries, WellFormed e.2
  keys : ∀ entries ∈ h.objects, (entries.map Prod.fst).Nodup

theorem Sound.newArray (hs : Sound h) (fl : Floats F) : Sound (array fl h).2 where
  items := by
    intro items hitems v hv
    rcases List.mem_append.mp hitems with hold | hnew
    · exact hs.items items hold v hv
    · cases List.mem_singleton.mp hnew
      cases hv
  entries := hs.entries
  keys := hs.keys

theorem Sound.newObject (hs : Sound h) (fl : Floats F) : Sound (object fl h).2 where
  items := hs.items
  entries := by
    intro entries hentries e he
    rcases List.mem_append.mp hentries with hold | hnew
    · exact hs.entries entries hold e he
    · cases List.mem_singleton.mp hnew
      cases he
  keys := by
    intro entries hentries
    rcases List.mem_append.mp hentries with hold | hnew
    · exact hs.keys entries hold
    · cases List.mem_singleton.mp hnew
      exact List.nodup_nil

theorem Sound.appendItem (hs : Sound h) (hv : WellFormed v) {a : ℕ} {items : List (Value F)}
    (hitems : h.arrays[a]? = some items) :
    Sound { h with arrays := h.arrays.set a (items ++ [v]) } where
  items := by
    intro items' hmem u hu
    rcases List.mem_or_eq_of_mem_set hmem with hold | rfl
    · exact hs.items items' hold u hu
    · rcases List.mem_append.mp hu with hu | hu
      · exact hs.items items (List.mem_of_getElem? hitems) u hu
      · cases List.mem_singleton.mp hu
        exact hv
  entries := hs.entries
  keys := hs.keys

theorem mem_counted {α : Type} {l : List α} {x : α} (hx : x ∈ counted l) : x ∈ l :=
  List.mem_of_mem_take hx

/-- An entry after `object_set` is the new one or was there before. -/
theorem mem_setEntry {β : Type} {entries : List (Bytes × β)} {key : Bytes} {item : β}
    {e : Bytes × β} (he : e ∈ setEntry entries key item) : e = (key, item) ∨ e ∈ entries := by
  have hmap : ∀ e' ∈ (counted entries).map (fun e => if e.1 = key then (key, item) else e),
      e' = (key, item) ∨ e' ∈ entries := by
    intro e' he'
    obtain ⟨d, hd, rfl⟩ := List.mem_map.mp he'
    by_cases hkey : d.1 = key
    · exact Or.inl (if_pos hkey)
    · rw [if_neg hkey]
      exact Or.inr (mem_counted hd)
  unfold setEntry at he
  dsimp only at he
  split at he
  · exact hmap e he
  · rcases List.mem_append.mp he with he | he
    · exact hmap e he
    · exact Or.inl (List.mem_singleton.mp he)

theorem setEntry_keys {β : Type} {entries : List (Bytes × β)} (key : Bytes) (item : β)
    (hkeys : (entries.map Prod.fst).Nodup) : ((setEntry entries key item).map Prod.fst).Nodup := by
  have hmap : ((counted entries).map (fun e => if e.1 = key then (key, item) else e)).map Prod.fst =
      (counted entries).map Prod.fst := by
    rw [List.map_map]
    refine List.map_congr_left ?_
    intro e _
    change (if e.1 = key then (key, item) else e).1 = e.1
    by_cases hkey : e.1 = key
    · rw [if_pos hkey]
      exact hkey.symm
    · rw [if_neg hkey]
  have hcounted : ((counted entries).map Prod.fst).Nodup :=
    hkeys.sublist ((List.take_sublist _ _).map Prod.fst)
  unfold setEntry
  dsimp only
  split
  · rw [hmap]
    exact hcounted
  · rename_i habsent
    rw [List.map_append, hmap]
    refine hcounted.append (List.nodup_singleton key) ?_
    intro k hk hnew
    cases List.mem_singleton.mp hnew
    obtain ⟨e, he, rfl⟩ := List.mem_map.mp hk
    exact habsent (List.any_eq_true.mpr ⟨e, he, beq_self_eq_true _⟩)

theorem Sound.setKey (hs : Sound h) (hv : WellFormed v) (key : Bytes) {o : ℕ}
    {entries : List (Bytes × Value F)} (hentries : h.objects[o]? = some entries) :
    Sound { h with objects := h.objects.set o (setEntry entries key v) } where
  items := hs.items
  entries := by
    intro entries' hmem e he
    rcases List.mem_or_eq_of_mem_set hmem with hold | heq
    · exact hs.entries entries' hold e he
    · rw [heq] at he
      rcases mem_setEntry he with hnew | he
      · rw [hnew]
        exact hv
      · exact hs.entries entries (List.mem_of_getElem? hentries) e he
  keys := by
    intro entries' hmem
    rcases List.mem_or_eq_of_mem_set hmem with hold | heq
    · exact hs.keys entries' hold
    · rw [heq]
      exact setEntry_keys key v (hs.keys entries (List.mem_of_getElem? hentries))

end Sound

section Building
variable {F : Type} {h₀ h h' : Heap F} {out v : Value F} {j : Json F}

/-- The value unfolds through what is new since `h`. -/
structure Built (h h' : Heap F) (v : Value F) (j : Json F) : Prop where
  kept : Keeps 0 0 h h'
  unfolds : Unfolds .full h.arrays.length h.objects.length h' (.value v) (.value j)

/-- The array made first since `h₀` holds the items read so far. -/
structure ArraySoFar (h₀ h : Heap F) (out : Value F) (js : List (Json F)) : Prop where
  kind : out.kindValue = 4
  pointer : out.arrValue = some h₀.arrays.length
  kept : Keeps 0 0 h₀ h
  items : ∃ vs, h.arrays[h₀.arrays.length]? = some vs ∧
    Unfolds .full (h₀.arrays.length + 1) h₀.objects.length h (.items vs) (.elements js)

structure ObjectSoFar (h₀ h : Heap F) (out : Value F) (ms : List (Bytes × Json F)) : Prop where
  kind : out.kindValue = 5
  pointer : out.objValue = some h₀.objects.length
  kept : Keeps 0 0 h₀ h
  entries : ∃ es, h.objects[h₀.objects.length]? = some es ∧
    Unfolds .full h₀.arrays.length (h₀.objects.length + 1) h (.entries es) (.members ms)

theorem arraySoFar_new (fl : Floats F) (h : Heap F) :
    ArraySoFar h (array fl h).2 (array fl h).1 [] where
  kind := rfl
  pointer := rfl
  kept := keeps_newArray fl
  items := ⟨[], List.getElem?_concat_length, .noItems⟩

theorem objectSoFar_new (fl : Floats F) (h : Heap F) :
    ObjectSoFar h (object fl h).2 (object fl h).1 [] where
  kind := rfl
  pointer := rfl
  kept := keeps_newObject fl
  entries := ⟨[], List.getElem?_concat_length, .noEntries⟩

theorem ArraySoFar.built {js : List (Json F)} (hout : ArraySoFar h₀ h out js) :
    Built h₀ h out (.array js) := by
  obtain ⟨vs, hvs, hu⟩ := hout.items
  exact ⟨hout.kept, .array hout.kind hout.pointer (le_refl _) hvs
    (hu.weaken (Nat.le_succ _) (le_refl _))⟩

theorem ObjectSoFar.built {ms : List (Bytes × Json F)} (hout : ObjectSoFar h₀ h out ms) :
    Built h₀ h out (.object ms) := by
  obtain ⟨es, hes, hu⟩ := hout.entries
  exact ⟨hout.kept, .object hout.kind hout.pointer (le_refl _) hes
    (hu.weaken (le_refl _) (Nat.le_succ _))⟩

theorem ArraySoFar.append {js : List (Json F)} (hout : ArraySoFar h₀ h out js)
    (hv : Built h h' v j) :
    ∃ h'', arrayAppend h' out v = .ok h'' ∧ ArraySoFar h₀ h'' out (js ++ [j]) := by
  obtain ⟨vs, hvs, hu⟩ := hout.items
  have hlt := (List.getElem?_eq_some_iff.mp hvs).1
  have hvs' := hv.kept.arrays _ _ (Nat.zero_le _) hvs
  have hlt' := (List.getElem?_eq_some_iff.mp hvs').1
  have hkind : ¬ out.kindValue ≠ 4 := not_not.mpr hout.kind
  have hset : Keeps (h₀.arrays.length + 1) h₀.objects.length h'
      { h' with arrays := h'.arrays.set h₀.arrays.length (vs ++ [v]) } :=
    keeps_setArray _ _ (Nat.lt_succ_self _)
  refine ⟨{ h' with arrays := h'.arrays.set h₀.arrays.length (vs ++ [v]) }, ?_, hout.kind,
    hout.pointer, Keeps.setArray (hout.kept.trans hv.kept) (le_refl _) _,
    vs ++ [v], List.getElem?_set_self hlt', ?_⟩
  · rw [arrayAppend, if_neg hkind, hout.pointer]
    dsimp only
    rw [hvs']
  · have hvs := (hu.keep (hv.kept.weaken (Nat.zero_le _) (Nat.zero_le _))).keep hset
    have hnew := (hv.unfolds.weaken hlt (Keeps.objects_le hout.kept)).keep hset
    exact unfolds_items.mpr (List.rel_append (unfolds_items.mp hvs) (.cons hnew .nil))

theorem ObjectSoFar.set {ms : List (Bytes × Json F)} (hout : ObjectSoFar h₀ h out ms)
    (key : Bytes) (hv : Built h h' v j) :
    ∃ h'', objectSet h' out key v = .ok h'' ∧ ObjectSoFar h₀ h'' out (setEntry ms key j) := by
  obtain ⟨es, hes, hu⟩ := hout.entries
  have hlt := (List.getElem?_eq_some_iff.mp hes).1
  have hes' := hv.kept.objects _ _ (Nat.zero_le _) hes
  have hlt' := (List.getElem?_eq_some_iff.mp hes').1
  have hkind : ¬ out.kindValue ≠ 5 := not_not.mpr hout.kind
  have hset : Keeps h₀.arrays.length (h₀.objects.length + 1) h'
      { h' with objects := h'.objects.set h₀.objects.length (setEntry es key v) } :=
    keeps_setObject _ _ (Nat.lt_succ_self _)
  refine ⟨{ h' with objects := h'.objects.set h₀.objects.length (setEntry es key v) }, ?_,
    hout.kind, hout.pointer, Keeps.setObject (hout.kept.trans hv.kept) (le_refl _) _,
    setEntry es key v, List.getElem?_set_self hlt', ?_⟩
  · rw [objectSet, if_neg hkind, hout.pointer]
    dsimp only
    rw [hes']
  · have hes := (hu.keep (hv.kept.weaken (Nat.zero_le _) (Nat.zero_le _))).keep hset
    have hnew := (hv.unfolds.weaken (Keeps.arrays_le hout.kept) hlt).keep hset
    exact unfolds_setEntry hes hnew

end Building

end NewClLang.JsonBuilding
