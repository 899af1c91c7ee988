import NewClLang.AssociationLists
import NewClLang.JsonAcceptance
import NewClLang.JsonApi

set_option autoImplicit false

/-!
# Objects of the json API as maps

`object_set`, `object_get` and `object_has` on the objects that a client can come to hold, and the
entries that `parse` makes of members with equal keys.
-/
namespace NewClLang.JsonObjects
open WrappedIntegers AssociationLists JsonModule JsonTrees JsonGrammar JsonScanning JsonBuilding
  JsonAcceptance JsonReading JsonApi Reachability

section Laws
variable {F : Type}

/-- The entries of an object value. -/
def entriesOf (h : Heap F) (v : Value F) : List (Bytes × Value F) :=
  (v.objValue.bind fun o => h.objects[o]?).getD []

def keysOf (h : Heap F) (v : Value F) : List Bytes := keys (entriesOf h v)

/-- What `object_set` does to the value's object. -/
structure SetLaw (h h' : Heap F) (v : Value F) (key : Bytes) (item : Value F) : Prop where
  get : objectGet h' v key = .ok item
  has : objectHas h' v key = .ok true
  get_other : ∀ other, other ≠ key → objectGet h' v other = objectGet h v other
  has_other : ∀ other, other ≠ key → objectHas h' v other = objectHas h v other
  order : keysOf h' v = if key ∈ keysOf h v then keysOf h v else keysOf h v ++ [key]

/-- `len` holds the number of the entries after the key has been set. -/
def Roomy (ks : List Bytes) (key : Bytes) : Prop :=
  (key ∈ ks ∧ ks.length < 2147483648) ∨ ks.length + 1 < 2147483648

/-- An object text is read to an object that has its keys at their first positions, each with its
last value. -/
def KeepsFirstLast (fl : Floats F) (s : Bytes) (h : Heap F) (v : Value F) : Prop :=
  ∀ a t b members, s = a ++ ((123 :: (t ++ [125])) ++ b) → Ws a →
    Reads fl t (.members members) → Ws b →
    ∃ js, FirstLast members js ∧ Unfolds .full 0 0 h (.value v) (.value (.object js))

end Laws

section Entries
variable {F : Type} {h h' : Heap F} {v item : Value F} {entries : List (Bytes × Value F)}
variable {key : Bytes}

theorem any_eq {β : Type} (entries : List (Bytes × β)) (key : Bytes) :
    entries.any (fun e => e.1 == key) = (valueOf entries key).isSome := by
  induction entries with
  | nil => rfl
  | cons e entries ih =>
    rw [List.any_cons, ih, valueOf_cons]
    by_cases h : e.1 = key
    · rw [if_pos h, beq_iff_eq.mpr h]
      rfl
    · rw [if_neg h, beq_eq_false_iff_ne.mpr h, Bool.false_or]

theorem setEntry_put {β : Type} {entries : List (Bytes × β)} (hm : Measured entries)
    (key : Bytes) (item : β) : setEntry entries key item = put entries key item := by
  unfold setEntry put
  rw [hm.counted, any_eq]
  dsimp only
  by_cases h : key ∈ keys entries
  · rw [if_pos (isSome_valueOf.mpr h), if_pos h]
  · rw [if_neg fun hsome => h (isSome_valueOf.mp hsome), if_neg h]
    have hsame : entries.map (fun e => if e.1 = key then (key, item) else e) = entries.map id := by
      refine List.map_congr_left fun e he => if_neg ?_
      rintro rfl
      exact h (List.mem_map_of_mem he)
    rw [hsame, List.map_id]

theorem findEntry_value (hm : Measured entries) (key : Bytes) :
    findEntry entries key =
      match valueOf entries key with
      | some item => .ok item
      | none => .error (.err "json.object_get missing key") := by
  have hfind : (fun e : Bytes × Value F => e.1 == key) = fun e => decide (e.1 = key) :=
    funext fun e => beq_eq_decide e.1 key
  rw [findEntry, hm.counted, hfind, valueOf]
  cases entries.find? fun e => decide (e.1 = key) with
  | none => rfl
  | some e => rfl

/-- A value whose object is found. -/
structure Holds (h : Heap F) (v : Value F) (o : ℕ) (entries : List (Bytes × Value F)) : Prop where
  kind : v.kindValue = 5
  pointer : v.objValue = some o
  found : h.objects[o]? = some entries

theorem objectSet_holds (hset : objectSet h v key item = .ok h') :
    ∃ o entries, Holds h v o entries ∧
      h' = { h with objects := h.objects.set o (setEntry entries key item) } := by
  unfold objectSet at hset
  split at hset
  · cases hset
  · rename_i hkind
    split at hset
    · rename_i o hpointer
      split at hset
      · rename_i entries hfound
        cases hset
        exact ⟨o, entries, ⟨not_not.mp hkind, hpointer, hfound⟩, rfl⟩
      · cases hset
    · cases hset

variable {o : ℕ}

theorem Holds.get (hv : Holds h v o entries) (key : Bytes) :
    objectGet h v key = findEntry entries key := by
  have hkind : ¬ v.kindValue ≠ 5 := not_not.mpr hv.kind
  rw [objectGet, if_neg hkind, hv.pointer]
  dsimp only
  rw [hv.found]

theorem Holds.has (hv : Holds h v o entries) (key : Bytes) :
    objectHas h v key = .ok (valueOf (counted entries) key).isSome := by
  have hkind : ¬ v.kindValue ≠ 5 := not_not.mpr hv.kind
  rw [objectHas, if_neg hkind, hv.pointer]
  dsimp only
  rw [hv.found]
  exact congrArg Except.ok (any_eq _ key)

theorem Holds.keysOf_eq (hv : Holds h v o entries) : keysOf h v = keys entries := by
  rw [keysOf, entriesOf, hv.pointer, Option.bind_some, hv.found]
  rfl

theorem Holds.set (hv : Holds h v o entries) (later : List (Bytes × Value F)) :
    Holds { h with objects := h.objects.set o later } v o later where
  kind := hv.kind
  pointer := hv.pointer
  found := List.getElem?_set_self (List.getElem?_eq_some_iff.mp hv.found).1

theorem measured_put (item : Value F) (hroomy : Roomy (keys entries) key) :
    Measured entries ∧ Measured (put entries key item) := by
  have hlength := length_keys (put entries key item)
  rw [keys_put] at hlength
  unfold Measured
  rw [Roomy, length_keys] at hroomy
  rcases hroomy with ⟨hmem, hlt⟩ | hlt
  · rw [if_pos hmem, length_keys] at hlength
    omega
  · have hle := length_put_le entries key item
    omega

/-- Where `len` holds the number of the entries, `object_set` is the update of a map. -/
theorem setLaw_of_roomy (hv : Holds h v o entries) (hroomy : Roomy (keys entries) key) :
    SetLaw h { h with objects := h.objects.set o (setEntry entries key item) } v key item := by
  obtain ⟨hm, hm'⟩ := measured_put item hroomy
  rw [setEntry_put hm]
  have hv' := hv.set (put entries key item)
  refine ⟨?_, ?_, fun other hother => ?_, fun other hother => ?_, ?_⟩
  · rw [hv'.get, findEntry_value hm', valueOf_put, if_pos rfl]
  · rw [hv'.has, hm'.counted, valueOf_put, if_pos rfl]
    rfl
  · rw [hv'.get, hv.get, findEntry_value hm', findEntry_value hm, valueOf_put, if_neg hother]
  · rw [hv'.has, hv.has, hm'.counted, hm.counted, valueOf_put, if_neg hother]
  · rw [hv'.keysOf_eq, hv.keysOf_eq, keys_put]
    by_cases hmem : key ∈ keys entries
    · rw [if_pos hmem, if_pos hmem]
    · rw [if_neg hmem, if_neg hmem]

theorem length_setEntry_le (entries : List (Bytes × Value F)) (key : Bytes) (item : Value F) :
    (setEntry entries key item).length ≤ (len entries).toNat + 1 := by
  have hcounted : (counted entries).length ≤ (len entries).toNat := List.length_take_le _ _
  unfold setEntry
  split
  · rw [List.length_map]
    omega
  · rw [List.length_append, List.length_map, List.length_singleton]
    omega

/-- A length that `len` does not hold is cut down by more than one entry. -/
theorem len_lt (hm : ¬ Measured entries) : (len entries).toNat + 1 < entries.length := by
  unfold Measured at hm
  unfold len wrap32
  split <;> omega

theorem roomy_of_setLaw (hv : Holds h v o entries)
    (hlaw : SetLaw h { h with objects := h.objects.set o (setEntry entries key item) } v key item) :
    Roomy (keys entries) key := by
  have hv' := hv.set (setEntry entries key item)
  have horder := congrArg List.length hlaw.order
  rw [hv'.keysOf_eq, hv.keysOf_eq, length_keys] at horder
  have hle := length_setEntry_le entries key item
  have hgrows : entries.length ≤ (setEntry entries key item).length := by
    rw [horder]
    split
    · rw [length_keys]
    · rw [List.length_append, length_keys]
      exact Nat.le_add_right _ _
  by_cases hm : Measured entries
  · have hlt : entries.length < 2147483648 := hm
    by_cases hmem : key ∈ keys entries
    · exact Or.inl ⟨hmem, by rw [length_keys]; exact hlt⟩
    · refine Or.inr ?_
      by_contra hfull
      rw [length_keys] at hfull
      have hlast : (put entries key item).length = 2147483648 := by
        rw [← length_keys, keys_put, if_neg hmem, List.length_append, length_keys,
          List.length_singleton]
        omega
      have hget := hlaw.get
      rw [hv'.get, setEntry_put hm, findEntry, counted, len, hlast] at hget
      cases hget
  · have hcut := len_lt hm
    omega

end Entries

section Parsing
variable {F : Type} {fl : Floats F} {s : Bytes} {h h' : Heap F} {v : Value F}

theorem members_length {t : Bytes} {m : Meaning F} (h : Reads fl t m) :
    ∀ members, m = .members members → members.length ≤ t.length := by
  induction h with
  | lastMember ha hk hb hc h hd =>
    rintro members ⟨⟩
    simp only [List.length_append, List.length_cons, List.length_nil]
    omega
  | member ha hk hb hc h hd hrest _ ih =>
    rintro members ⟨⟩
    have hle := ih _ rfl
    simp only [List.length_append, List.length_cons]
    omega
  | _ =>
    rintro members ⟨⟩

theorem setAll_putAll {β : Type} {members : List (Bytes × β)} (hm : Measured members) :
    setAll members = putAll members := by
  induction members using List.reverseRecOn with
  | nil => rfl
  | append_singleton members m ih =>
    have hlt : (members ++ [m]).length < 2147483648 := hm
    rw [List.length_append, List.length_singleton] at hlt
    have hfewer : Measured members := Nat.lt_of_succ_lt hlt
    have hput : Measured (putAll members) :=
      Nat.lt_of_le_of_lt (length_putAll_le members) hfewer
    have hsetAll : setAll (members ++ [m]) = setEntry (setAll members) m.1 m.2 := by
      rw [setAll, List.foldl_append]
      rfl
    rw [hsetAll, ih hfewer, setEntry_put hput, putAll_concat]

theorem parse_keepsFirstLast (hs : s.length < 4294967296)
    (hparse : parse fl s h = .ok (v, h')) : KeepsFirstLast fl s h' v := by
  rintro a t b members rfl ha ht hb
  by_cases hm : Measured (a ++ ((123 :: (t ++ [125])) ++ b))
  · obtain ⟨v', h'', hok, hbuilt⟩ := parse_accepts hm h ha (.object ht) hb
    cases hok.symm.trans hparse
    have hmembers : Measured members := by
      have hle := members_length ht members rfl
      have hlength : (a ++ ((123 :: (t ++ [125])) ++ b)).length < 2147483648 := hm
      simp only [List.length_append, List.length_cons, List.length_nil] at hlength
      unfold Measured
      omega
    rw [setAll_putAll hmembers] at hbuilt
    exact ⟨putAll members, putAll_firstLast members,
      hbuilt.unfolds.weaken (Nat.zero_le _) (Nat.zero_le _)⟩
  · rw [parse_long h hm hs] at hparse
    cases hparse

end Parsing

section Objects
variable {F : Type} {fl : Floats F} {c : Client F}

theorem keysOf_nodup {h : Heap F} (hs : Sound h) (v : Value F) : (keysOf h v).Nodup := by
  unfold keysOf entriesOf
  cases hentries : v.objValue.bind fun o => h.objects[o]? with
  | none => exact List.nodup_nil
  | some entries =>
    obtain ⟨o, -, hfound⟩ := Option.bind_eq_some_iff.mp hentries
    exact hs.keys entries (List.mem_of_getElem? hfound)

theorem setLaw_iff {h h' : Heap F} {v item : Value F} {key : Bytes}
    (hset : objectSet h v key item = .ok h') :
    SetLaw h h' v key item ↔ Roomy (keysOf h v) key := by
  obtain ⟨o, entries, hv, rfl⟩ := objectSet_holds hset
  rw [hv.keysOf_eq]
  exact ⟨roomy_of_setLaw hv, setLaw_of_roomy hv⟩

/-- The objects of a client are ordered maps, as long as `len` holds the number of their entries. -/
theorem objects_ordered (hc : Obtained fl c) :
    (∀ v, (keysOf c.heap v).Nodup) ∧
      (∀ v key item heap, objectSet c.heap v key item = .ok heap →
        (SetLaw c.heap heap v key item ↔ Roomy (keysOf c.heap v) key)) ∧
      ∀ s v heap, s.length < 4294967296 → parse fl s c.heap = .ok (v, heap) →
        KeepsFirstLast fl s heap v := by
  refine ⟨keysOf_nodup (obtained_good hc).1, ?_, ?_⟩
  · intro v key item heap hset
    exact setLaw_iff hset
  · intro s v heap hs hparse
    exact parse_keepsFirstLast hs hparse

/-- Nothing is printed and nothing is read. -/
def noFloats : Floats Unit := ⟨(), fun _ => none, fun _ => []⟩

def firstObject : Value Unit := (object noFloats ⟨[], []⟩).1

theorem emptyObject_obtained : Obtained noFloats ⟨⟨[], [[]]⟩, [null noFloats, firstObject]⟩ := by
  have hnothing : Obtained noFloats ⟨⟨[], []⟩, []⟩ := reachable_root rfl
  have hobject : Obtained noFloats ⟨⟨[], [[]]⟩, [firstObject]⟩ := hnothing.step .object
  exact hobject.step .null

theorem objects_ordered_empty :
    SetLaw ⟨[], [[]]⟩ ⟨[], [[([97], null noFloats)]]⟩ firstObject [97] (null noFloats) :=
  ((objects_ordered emptyObject_obtained).2.1 firstObject [97] (null noFloats) _ rfl).mpr
    (Or.inr (by decide))

/-- The key of each of the first `2 ^ 32` entries. -/
def keyAt (i : ℕ) : Bytes :=
  [UInt8.ofNat i, UInt8.ofNat (i / 256), UInt8.ofNat (i / 65536), UInt8.ofNat (i / 16777216)]

theorem keyAt_inj {i j : ℕ} (hi : i < 4294967296) (hj : j < 4294967296) (h : keyAt i = keyAt j) :
    i = j := by
  have hbyte {m n : ℕ} (h : UInt8.ofNat m = UInt8.ofNat n) : m % 256 = n % 256 := by
    have hnat := congrArg UInt8.toNat h
    rwa [UInt8.toNat_ofNat', UInt8.toNat_ofNat'] at hnat
  simp only [keyAt, List.cons.injEq, and_true] at h
  obtain ⟨h0, h1, h2, h3⟩ := h
  have h0 := hbyte h0
  have h1 := hbyte h1
  have h2 := hbyte h2
  have h3 := hbyte h3
  omega

def manyEntries (n : ℕ) : List (Bytes × Value Unit) :=
  (List.range n).map fun i => (keyAt i, null noFloats)

theorem manyEntries_length (n : ℕ) : (manyEntries n).length = n := by
  rw [manyEntries, List.length_map, List.length_range]

theorem keyAt_new {n : ℕ} (hn : n < 4294967296) : keyAt n ∉ keys (manyEntries n) := by
  intro hmem
  rw [keys, manyEntries, List.map_map] at hmem
  obtain ⟨i, hi, hkey⟩ := List.mem_map.mp hmem
  have hlt := List.mem_range.mp hi
  have hsame := keyAt_inj (by omega) hn hkey
  omega

theorem manyEntries_holds (n : ℕ) : Holds ⟨[], [manyEntries n]⟩ firstObject 0 (manyEntries n) :=
  ⟨rfl, rfl, rfl⟩

theorem manyEntries_set {n : ℕ} (hn : n < 2147483648) :
    objectSet ⟨[], [manyEntries n]⟩ firstObject (keyAt n) (null noFloats) =
      .ok ⟨[], [manyEntries (n + 1)]⟩ := by
  have hm : Measured (manyEntries n) := by
    unfold Measured
    rw [manyEntries_length]
    exact hn
  have hset : setEntry (manyEntries n) (keyAt n) (null noFloats) = manyEntries (n + 1) := by
    rw [setEntry_put hm, put, if_neg (keyAt_new (by omega)), manyEntries, manyEntries,
      List.range_succ, List.map_append]
    rfl
  rw [← hset]
  rfl

theorem manyEntries_obtained {n : ℕ} (hn : n ≤ 2147483647) :
    Obtained noFloats ⟨⟨[], [manyEntries n]⟩, [null noFloats, firstObject]⟩ := by
  induction n with
  | zero => exact emptyObject_obtained
  | succ n ih =>
    exact (ih (by omega)).step (.objectSet (List.mem_cons_of_mem _ List.mem_cons_self)
      List.mem_cons_self (manyEntries_set (by omega)))

/-- The entry that makes `2 ^ 31` of them is not found. -/
theorem manyEntries_lost :
    ¬ ∀ c : Client Unit, Obtained noFloats c → ∀ v ∈ c.values, ∀ item ∈ c.values, ∀ key heap,
      objectSet c.heap v key item = .ok heap → SetLaw c.heap heap v key item := by
  intro h
  obtain ⟨n, hn⟩ : ∃ n : ℕ, n = 2147483647 := ⟨_, rfl⟩
  have hlaw := h _ (manyEntries_obtained (Nat.le_of_eq hn)) firstObject
    (List.mem_cons_of_mem _ List.mem_cons_self) (null noFloats) List.mem_cons_self (keyAt n) _
    (manyEntries_set (by omega))
  have hroomy := (setLaw_iff (manyEntries_set (by omega))).mp hlaw
  rw [(manyEntries_holds n).keysOf_eq, Roomy, length_keys, manyEntries_length] at hroomy
  rcases hroomy with ⟨hmem, -⟩ | hlt
  · exact keyAt_new (by omega) hmem
  · omega

end Objects

end NewClLang.JsonObjects
