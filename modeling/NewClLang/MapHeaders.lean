import NewClLang.MapRefinement

set_option autoImplicit false

/-!
# Copied map headers

A map value is its header: copying it copies capacity, length and tombstones, and shares the
table. A world has one header per storage location (a variable, a parameter, a captured slot, a
field, an entry of another map) and the tables ever allocated.
-/
namespace NewClLang.MapHeaders
open MapTable MapWellFormed MapOperations MapRefinement TransitionRuns

variable {K V : Type}

/-- `nc_map` in memory: `table` is the `entries` pointer. -/
structure Header where
  table : Option ℕ
  cap : ℕ
  len : ℤ
  tombstones : ℤ

structure World (K V : Type) where
  headers : ℕ → Option Header
  tables : List (Table K V)

def emptyWorld : World K V := ⟨fun _ => none, []⟩

def World.entries (w : World K V) (table : Option ℕ) : Table K V :=
  (table.bind (fun t => w.tables[t]?)).getD []

/-- The map that the runtime sees through a header. -/
def World.load (w : World K V) (h : Header) : NcMap K V :=
  ⟨w.entries h.table, h.cap, h.len, h.tombstones⟩

/-- Whether `__nc_map_put` allocates a table before it probes. -/
def reallocates (m : NcMap K V) : Bool := m.cap = 0 || overloaded m

def World.putHeader (w : World K V) (i : ℕ) (h : Option Header) : World K V :=
  { w with headers := Function.update w.headers i h }

/-- The header at `i` now owns a table allocated for it. -/
def World.storeFresh (w : World K V) (i : ℕ) (m : NcMap K V) : World K V where
  headers := Function.update w.headers i (some ⟨some w.tables.length, m.cap, m.len, m.tombstones⟩)
  tables := w.tables ++ [m.entries]

/-- The table of header `h` was written in place; only the header at `i` has its counts. -/
def World.storeInPlace (w : World K V) (i : ℕ) (h : Header) (m : NcMap K V) : World K V where
  headers := Function.update w.headers i (some ⟨h.table, m.cap, m.len, m.tombstones⟩)
  tables :=
    match h.table with
    | some t => w.tables.set t m.entries
    | none => w.tables

inductive HeaderOp (K V : Type) where
  | zero (i : ℕ)
  | init (i : ℕ)
  | copy (i j : ℕ)
  | drop (i : ℕ)
  | set (i : ℕ) (key : K) (value : V)
  | delete (i : ℕ) (key : K)
  | clear (i : ℕ)

def HeaderOp.target : HeaderOp K V → ℕ
  | .zero i | .init i | .copy i _ | .drop i | .set i _ _ | .delete i _ | .clear i => i

/-- A zero value, a literal's `__nc_map_init`, a copy of the header at `j` into `i`, the end of
    a location's life, and the three runtime calls that write through a header. -/
def headerStep (d : Desc K V) (w : World K V) : HeaderOp K V → World K V
  | .zero i => w.putHeader i (some ⟨none, 0, 0, 0⟩)
  | .init i => w.storeFresh i mapInit
  | .copy i j => w.putHeader i (w.headers j)
  | .drop i => w.putHeader i none
  | .set i key value =>
    match w.headers i with
    | none => w
    | some h =>
      let m := w.load h
      if reallocates m then w.storeFresh i (mapSet d m key value)
      else w.storeInPlace i h (mapSet d m key value)
  | .delete i key =>
    match w.headers i with
    | none => w
    | some h => w.storeInPlace i h (mapDelete d (w.load h) key)
  | .clear i =>
    match w.headers i with
    | none => w
    | some h => w.storeInPlace i h (mapClear (w.load h))

def readAt (d : Desc K V) (w : World K V) (i : ℕ) (key : K) : V :=
  match w.headers i with
  | none => d.zero
  | some h => mapGet d (w.load h) key

def KeyCount (d : LawfulDesc K V) (m : NcMap K V) (n : ℤ) : Prop :=
  ∃ keys : Finset (KeyClass d), (keys.card : ℤ) = n ∧
    ∀ key, mapHas d.toDesc m key = true ↔ keyClass d key ∈ keys

/-- The header at `i` counts its keys, its next `set` is not lost, and its counts are those of
    the table it probes. -/
structure Coherent (d : LawfulDesc K V) (w : World K V) (i : ℕ) (h : Header) : Prop where
  keyCount : KeyCount d (w.load h) h.len
  set_kept : ∀ key value, readAt d.toDesc (headerStep d.toDesc w (.set i key value)) i key = value
  len : h.len = stateCount 1 (w.entries h.table)
  tombstones : h.tombstones = stateCount 2 (w.entries h.table)

def AllCoherent (d : LawfulDesc K V) (w : World K V) : Prop :=
  ∀ i h, w.headers i = some h → Coherent d w i h

def changesStates (d : Desc K V) (m : NcMap K V) : HeaderOp K V → Bool
  | .set _ key _ => !reallocates m && !mapHas d m key
  | .delete _ key => mapHas d m key
  | .clear _ => m.cap ≠ 0 && (m.len ≠ 0 || m.tombstones ≠ 0)
  | _ => false

/-- No other live header has the table of the header at `i`. -/
def Sole (w : World K V) (i : ℕ) (h : Header) : Prop :=
  ∀ j h', w.headers j = some h' → h'.table = h.table → j = i

/-- Slot states are written in place only through the one header of a table. -/
def WritesUnshared (d : Desc K V) (w : World K V) (op : HeaderOp K V) : Prop :=
  ∀ h, w.headers op.target = some h → changesStates d (w.load h) op = true → Sole w op.target h

section Keys

def liveKeys (d : LawfulDesc K V) : Table K V → List (KeyClass d)
  | [] => []
  | .live k _ :: t => keyClass d k :: liveKeys d t
  | _ :: t => liveKeys d t

theorem liveKeys_length (d : LawfulDesc K V) (t : Table K V) :
    (liveKeys d t).length = stateCount 1 t := by
  induction t with
  | nil => rfl
  | cons e t ih =>
    unfold stateCount at ih ⊢
    cases e <;> simp [liveKeys, ih]

theorem mem_liveKeys (d : LawfulDesc K V) (t : Table K V) (key : K) :
    keyClass d key ∈ liveKeys d t ↔ ∃ v, BindsIn d.toDesc t key v := by
  induction t with
  | nil => simp [liveKeys, BindsIn]
  | cons e t ih =>
    have htail : (∃ v, BindsIn d.toDesc (e :: t) key v) ↔
        (∃ k v, e = .live k v ∧ d.eq key k = true) ∨ ∃ v, BindsIn d.toDesc t key v := by
      constructor
      · rintro ⟨v, k, hmem, heq⟩
        rcases List.mem_cons.mp hmem with h | h
        · exact Or.inl ⟨k, v, h.symm, heq⟩
        · exact Or.inr ⟨v, k, h, heq⟩
      · rintro (⟨k, v, rfl, heq⟩ | ⟨v, k, hmem, heq⟩)
        · exact ⟨v, k, List.mem_cons_self, heq⟩
        · exact ⟨v, k, List.mem_cons_of_mem _ hmem, heq⟩
    rw [htail, ← ih]
    cases e with
    | empty | tombstone => simp [liveKeys]
    | live k v => simp [liveKeys, keyClass_eq_iff]

theorem liveKeys_nodup (d : LawfulDesc K V) (t : Table K V)
    (hdistinct : ∀ {i j k k' v v'}, slot t i = .live k v → slot t j = .live k' v' →
      d.eq k k' = true → i = j) : (liveKeys d t).Nodup := by
  induction t with
  | nil => exact List.nodup_nil
  | cons e t ih =>
    have htail : (liveKeys d t).Nodup := by
      apply ih
      intro i j k k' v v' hi hj heq
      have hij : i + 1 = j + 1 := hdistinct hi hj heq
      omega
    cases e with
    | empty | tombstone => exact htail
    | live k v =>
      refine List.nodup_cons.mpr ⟨fun hmem => ?_, htail⟩
      obtain ⟨v', k', hmem', heq⟩ := (mem_liveKeys d t k).mp hmem
      obtain ⟨j, hj, hjk⟩ := List.mem_iff_getElem.mp hmem'
      have hslot : slot (.live k v :: t) (j + 1) = .live k' v' := by
        rw [slot_eq_of_lt (by simpa using hj)]
        simpa using hjk
      have hzero : 0 = j + 1 := hdistinct (v := v) rfl hslot heq
      omega

open Classical in
theorem keyCount_of_wellFormed {d : LawfulDesc K V} {m : NcMap K V}
    (h : WellFormed d.toDesc m) : KeyCount d m m.len := by
  have hnodup : (liveKeys d m.entries).Nodup := liveKeys_nodup d m.entries h.distinct
  refine ⟨(liveKeys d m.entries).toFinset, ?_, fun key => ?_⟩
  · rw [List.toFinset_card_of_nodup hnodup, liveKeys_length, h.len]
  · rw [List.mem_toFinset, mem_liveKeys, mapHas, Option.isSome_iff_exists]
    simp only [h.mapLookup_eq_some, binds_iff_bindsIn]

end Keys

/-- Every header sees a well-formed table, and points to one that was allocated. -/
def Sound (d : LawfulDesc K V) (w : World K V) : Prop :=
  ∀ i h, w.headers i = some h →
    WellFormed d.toDesc (w.load h) ∧ ∀ t, h.table = some t → t < w.tables.length

section Steps
variable {d : LawfulDesc K V} {w : World K V}

theorem mapGet_mapSet {m : NcMap K V} (h : WellFormed d.toDesc m) (key : K) (value : V) :
    mapGet d.toDesc (mapSet d.toDesc m key value) key = value := by
  have hstored := mapSet_stored h key value
  have hbinds : Binds d.toDesc (mapSet d.toDesc m key value) key value := by
    rw [hstored.binds, if_pos (d.eq_refl key)]
  rw [mapGet, (hstored.wellFormed.mapLookup_eq_some key value).mpr hbinds]
  rfl

theorem Sound.counts_eq (hw : Sound d w) {i j : ℕ} {h h' : Header} (hi : w.headers i = some h)
    (hj : w.headers j = some h') (htable : h'.table = h.table) :
    h'.cap = h.cap ∧ h'.len = h.len ∧ h'.tombstones = h.tombstones := by
  have hwf := (hw i h hi).1
  have hwf' := (hw j h' hj).1
  have hlength := hwf.length
  have hlength' := hwf'.length
  have hlen := hwf.len
  have hlen' := hwf'.len
  have htomb := hwf.tombstones
  have htomb' := hwf'.tombstones
  simp only [World.load] at hlength hlength' hlen hlen' htomb htomb'
  rw [htable] at hlength' hlen' htomb'
  exact ⟨hlength'.symm.trans hlength, hlen'.trans hlen.symm, htomb'.trans htomb.symm⟩

theorem cap_of_no_table (hw : Sound d w) {i : ℕ} {h : Header} (hi : w.headers i = some h)
    (hnone : h.table = none) : h.cap = 0 := by
  have hlength := (hw i h hi).1.length
  simp only [World.load, World.entries, hnone] at hlength
  exact hlength.symm

theorem storeFresh_sound (hw : Sound d w) (i : ℕ) {m : NcMap K V} (hm : WellFormed d.toDesc m) :
    Sound d (w.storeFresh i m) := by
  intro j h hj
  by_cases hji : j = i
  · subst hji
    simp only [World.storeFresh, Function.update_self, Option.some.injEq] at hj
    subst hj
    refine ⟨?_, fun t ht => ?_⟩
    · simpa [World.load, World.entries, World.storeFresh] using hm
    · simp only [Option.some.injEq] at ht
      simp [World.storeFresh, ← ht]
  · simp only [World.storeFresh, Function.update_of_ne hji] at hj
    obtain ⟨hwf, hlt⟩ := hw j h hj
    refine ⟨?_, fun t ht => ?_⟩
    · have hentries : (w.storeFresh i m).entries h.table = w.entries h.table := by
        cases htable : h.table with
        | none => rfl
        | some t =>
          simp [World.entries, World.storeFresh, List.getElem?_append_left (hlt t htable)]
      simpa only [World.load, hentries] using hwf
    · have := hlt t ht
      simp only [World.storeFresh, List.length_append, List.length_singleton]
      omega

theorem storeInPlace_entries {i : ℕ} {h : Header} {m : NcMap K V} {t : ℕ}
    (htable : h.table = some t) (hlt : t < w.tables.length) (t' : Option ℕ) :
    (w.storeInPlace i h m).entries t' = if t' = h.table then m.entries else w.entries t' := by
  rw [htable]
  cases t' with
  | none => rfl
  | some n =>
    by_cases hn : n = t
    · subst hn
      simp [World.entries, World.storeInPlace, htable, hlt]
    · have hne : t ≠ n := fun h => hn h.symm
      simp [World.entries, World.storeInPlace, htable, hn, List.getElem?_set_ne hne]

theorem storeInPlace_sound (hw : Sound d w) {i : ℕ} {h : Header} (hi : w.headers i = some h)
    {m : NcMap K V} (hm : WellFormed d.toDesc m) (hcap : m.cap = h.cap)
    (hshare : Sole w i h ∨ (m.len = h.len ∧ m.tombstones = h.tombstones)) :
    Sound d (w.storeInPlace i h m) := by
  cases htable : h.table with
  | none =>
    -- Without a table there is nothing to write: the header is the zero header.
    have hblank := WellFormed.eq_blank hm (hcap.trans (cap_of_no_table hw hi htable))
    intro j h' hj
    by_cases hji : j = i
    · subst hji
      simp only [World.storeInPlace, Function.update_self, Option.some.injEq] at hj
      subst hj
      refine ⟨?_, fun t ht => by simp [htable] at ht⟩
      rw [hblank]
      simpa [World.load, World.entries, htable, blank] using
        blank_wellFormed d.toDesc (Or.inl rfl)
    · simp only [World.storeInPlace, Function.update_of_ne hji] at hj
      have hold := hw j h' hj
      simpa [World.storeInPlace, htable, World.load, World.entries] using hold
  | some t =>
    have hlt := (hw i h hi).2 t htable
    have hentries := storeInPlace_entries (i := i) (m := m) htable hlt
    intro j h' hj
    by_cases hji : j = i
    · subst hji
      simp only [World.storeInPlace, Function.update_self, Option.some.injEq] at hj
      subst hj
      refine ⟨?_, fun n hn => ?_⟩
      · simpa only [World.load, hentries, if_true] using hm
      · simp only [htable, Option.some.injEq] at hn
        simpa [World.storeInPlace, htable, ← hn] using hlt
    · simp only [World.storeInPlace, Function.update_of_ne hji] at hj
      obtain ⟨hwf, hlt'⟩ := hw j h' hj
      refine ⟨?_, fun n hn => ?_⟩
      · by_cases hsame : h'.table = h.table
        · obtain ⟨hcap', hlen', htomb'⟩ := hw.counts_eq hi hj hsame
          obtain ⟨hlen, htomb⟩ := hshare.resolve_left (fun hsole => hji (hsole j h' hj hsame))
          simp only [World.load, hentries, if_pos hsame]
          rw [hcap', hlen', htomb', ← hcap, ← hlen, ← htomb]
          exact hm
        · simpa only [World.load, hentries, if_neg hsame] using hwf
      · simpa [World.storeInPlace, htable] using hlt' n hn

theorem putHeader_sound (hw : Sound d w) (i : ℕ) {h : Option Header}
    (hh : ∀ h', h = some h' → WellFormed d.toDesc (w.load h') ∧
      ∀ t, h'.table = some t → t < w.tables.length) : Sound d (w.putHeader i h) := by
  intro j h' hj
  by_cases hji : j = i
  · subst hji
    simp only [World.putHeader, Function.update_self] at hj
    exact hh h' hj
  · simp only [World.putHeader, Function.update_of_ne hji] at hj
    exact hw j h' hj

theorem prepared_of_not_reallocates {m : NcMap K V} (hr : reallocates m = false) :
    prepared d.toDesc m = m := by
  simp only [reallocates, Bool.or_eq_false_iff, decide_eq_false_iff_not] at hr
  rw [prepared, if_neg hr.1]
  simp [hr.2]

theorem mapHas_iff {m : NcMap K V} (h : WellFormed d.toDesc m) (key : K) :
    mapHas d.toDesc m key = true ↔ ∃ v, Binds d.toDesc m key v := by
  rw [mapHas, Option.isSome_iff_exists]
  simp only [h.mapLookup_eq_some]

theorem mapSet_cap {m : NcMap K V} (key : K) (value : V)
    (hr : reallocates m = false) : (mapSet d.toDesc m key value).cap = m.cap := by
  rw [mapSet, prepared_of_not_reallocates hr, putLoop_eq]
  split
  · rfl
  · split <;> rfl

theorem mapSet_counts {m : NcMap K V} (h : WellFormed d.toDesc m) {key : K} (value : V)
    (hr : reallocates m = false) (hhas : mapHas d.toDesc m key = true) :
    (mapSet d.toDesc m key value).len = m.len ∧
      (mapSet d.toDesc m key value).tombstones = m.tombstones := by
  obtain ⟨v, j, k, hj, heq⟩ := (mapHas_iff h key).mp hhas
  rw [mapSet, prepared_of_not_reallocates hr]
  simp only [putLoop_bound h.toPlaced value hj heq, and_self]

theorem mapDelete_cap (m : NcMap K V) (key : K) :
    (mapDelete d.toDesc m key).cap = m.cap := by
  rw [mapDelete]
  split_ifs
  · rfl
  · rw [deleteLoop_eq]
    split
    · rfl
    · split <;> rfl

theorem mapClear_wellFormed {m : NcMap K V} (h : WellFormed d.toDesc m) :
    WellFormed d.toDesc (mapClear m) := by
  rw [mapClear_eq h]
  exact blank_wellFormed d.toDesc h.cap

theorem mapClear_cap (m : NcMap K V) : (mapClear m).cap = m.cap := by
  rw [mapClear]
  split_ifs <;> rfl

theorem mapClear_counts {m : NcMap K V} (i : ℕ)
    (hch : changesStates d.toDesc m (.clear i) ≠ true) :
    (mapClear m).len = m.len ∧ (mapClear m).tombstones = m.tombstones := by
  rw [mapClear]
  split_ifs with hc
  · exact ⟨rfl, rfl⟩
  · simp only [changesStates, hc, ne_eq, not_false_eq_true, decide_true, Bool.true_and,
      Bool.or_eq_true, decide_eq_true_eq, not_or, not_not] at hch
    exact ⟨hch.1.symm, hch.2.symm⟩

theorem headerStep_sound (hw : Sound d w) (op : HeaderOp K V)
    (hop : WritesUnshared d.toDesc w op) : Sound d (headerStep d.toDesc w op) := by
  cases op with
  | zero i =>
    refine putHeader_sound hw i (fun h hh => ?_)
    cases hh
    exact ⟨blank_wellFormed d.toDesc (Or.inl rfl), fun t ht => by cases ht⟩
  | init i => exact storeFresh_sound hw i (blank_wellFormed d.toDesc (Or.inr (le_refl 16)))
  | copy i j => exact putHeader_sound hw i (fun h hh => hw j h hh)
  | drop i => exact putHeader_sound hw i (fun h hh => by cases hh)
  | set i key value =>
    rw [headerStep]
    cases hi : w.headers i with
    | none => exact hw
    | some h =>
      have hwf := (hw i h hi).1
      have hstored := mapSet_stored hwf key value
      cases hr : reallocates (w.load h) with
      | true =>
        simp only [hr, if_true]
        exact storeFresh_sound hw i hstored.wellFormed
      | false =>
        simp only [hr, Bool.false_eq_true, if_false]
        refine storeInPlace_sound hw hi hstored.wellFormed (mapSet_cap key value hr) ?_
        cases hhas : mapHas d.toDesc (w.load h) key with
        | true => exact Or.inr (mapSet_counts hwf value hr hhas)
        | false => exact Or.inl (hop h hi (by simp [changesStates, hr, hhas]))
  | delete i key =>
    rw [headerStep]
    cases hi : w.headers i with
    | none => exact hw
    | some h =>
      have hwf := (hw i h hi).1
      refine storeInPlace_sound hw hi (mapDelete_deleted hwf key).wellFormed
        (mapDelete_cap _ key) ?_
      cases hhas : mapHas d.toDesc (w.load h) key with
      | true => exact Or.inl (hop h hi hhas)
      | false =>
        right
        rw [mapDelete_absent]
        · exact ⟨rfl, rfl⟩
        · intro v hv
          rw [(mapHas_iff hwf key).mpr ⟨v, hv⟩] at hhas
          cases hhas
  | clear i =>
    rw [headerStep]
    cases hi : w.headers i with
    | none => exact hw
    | some h =>
      have hwf := (hw i h hi).1
      refine storeInPlace_sound hw hi (mapClear_wellFormed hwf) (mapClear_cap _) ?_
      by_cases hch : changesStates d.toDesc (w.load h) (.clear i) = true
      · exact Or.inl (hop h hi hch)
      · exact Or.inr (mapClear_counts i hch)

theorem storeInPlace_incoherent (hw : Sound d w) {i : ℕ} {h : Header} {m : NcMap K V}
    (hi : w.headers i = some h) (hm : WellFormed d.toDesc m) (hc : h.cap ≠ 0)
    (hcounts : m.len ≠ h.len ∨ m.tombstones ≠ h.tombstones) (hshared : ¬ Sole w i h) :
    ¬ AllCoherent d (w.storeInPlace i h m) := by
  intro hall
  unfold Sole at hshared
  push Not at hshared
  obtain ⟨j, h', hj, hsame, hji⟩ := hshared
  obtain ⟨t, htable⟩ := Option.ne_none_iff_exists'.mp
    (fun hnone => hc (cap_of_no_table hw hi hnone))
  have hentries := storeInPlace_entries (i := i) (m := m) htable ((hw i h hi).2 t htable) h'.table
  rw [if_pos hsame] at hentries
  have hj' : (w.storeInPlace i h m).headers j = some h' := by
    simp only [World.storeInPlace, Function.update_of_ne hji]
    exact hj
  have hcoherent := hall j h' hj'
  have hlen := hcoherent.len
  have htomb := hcoherent.tombstones
  rw [hentries] at hlen htomb
  obtain ⟨-, hlen', htomb'⟩ := hw.counts_eq hi hj hsame
  rcases hcounts with hne | hne
  · exact hne (by rw [hm.len, ← hlen, hlen'])
  · exact hne (by rw [hm.tombstones, ← htomb, htomb'])

theorem headerStep_incoherent (hw : Sound d w) (op : HeaderOp K V)
    (hop : ¬ WritesUnshared d.toDesc w op) : ¬ AllCoherent d (headerStep d.toDesc w op) := by
  unfold WritesUnshared at hop
  push Not at hop
  obtain ⟨h, hi, hch, hshared⟩ := hop
  cases op with
  | zero i | init i | copy i j | drop i => cases hch
  | set i key value =>
    simp only [HeaderOp.target] at hi hshared
    simp only [changesStates, Bool.and_eq_true, Bool.not_eq_true'] at hch
    have hwf := (hw i h hi).1
    have hstored := mapSet_stored hwf key value
    have habs : ¬ ∃ v, Binds d.toDesc (w.load h) key v := by
      rw [← mapHas_iff hwf, hch.2]
      exact Bool.false_ne_true
    simp only [headerStep, hi, hch.1, Bool.false_eq_true, if_false]
    refine storeInPlace_incoherent hw hi hstored.wellFormed ?_ (Or.inl ?_) hshared
    · intro hc
      simp [reallocates, World.load, hc] at hch
    · rw [hstored.len_new habs]
      simp [World.load]
  | delete i key =>
    simp only [HeaderOp.target] at hi hshared
    have hwf := (hw i h hi).1
    have hdeleted := mapDelete_deleted hwf key
    have hbound := (mapHas_iff hwf key).mp hch
    simp only [headerStep, hi]
    refine storeInPlace_incoherent hw hi hdeleted.wellFormed ?_ (Or.inl ?_) hshared
    · intro hc
      obtain ⟨v, hv⟩ := hbound
      exact hwf.no_binds hc key v hv
    · rw [hdeleted.len_bound hbound]
      simp [World.load]
  | clear i =>
    simp only [HeaderOp.target] at hi hshared
    have hwf := (hw i h hi).1
    simp only [changesStates, Bool.and_eq_true, Bool.or_eq_true, decide_eq_true_eq] at hch
    simp only [headerStep, hi]
    refine storeInPlace_incoherent hw hi (mapClear_wellFormed hwf) hch.1 ?_ hshared
    rw [mapClear, if_neg hch.1]
    exact hch.2.imp Ne.symm Ne.symm

theorem readAt_set (hw : Sound d w) {i : ℕ} {h : Header} (hi : w.headers i = some h) (key : K)
    (value : V) : readAt d.toDesc (headerStep d.toDesc w (.set i key value)) i key = value := by
  obtain ⟨hwf, hlt⟩ := hw i h hi
  have hget := mapGet_mapSet hwf key value
  simp only [headerStep, hi]
  cases hr : reallocates (w.load h) with
  | true =>
    simpa [readAt, World.storeFresh, World.load, World.entries] using hget
  | false =>
    have hc : h.cap ≠ 0 := by
      intro hc
      simp [reallocates, World.load, hc] at hr
    obtain ⟨t, htable⟩ := Option.ne_none_iff_exists'.mp
      (fun hnone => hc (cap_of_no_table hw hi hnone))
    simpa [readAt, World.storeInPlace, World.load, World.entries, htable, hlt t htable] using hget

theorem Sound.allCoherent (hw : Sound d w) : AllCoherent d w := by
  intro i h hi
  have hwf := (hw i h hi).1
  exact ⟨keyCount_of_wellFormed hwf, readAt_set hw hi, hwf.len, hwf.tombstones⟩

end Steps

theorem emptyWorld_sound (d : LawfulDesc K V) : Sound d emptyWorld := by
  intro i h hi
  cases hi

/-- In a run over copied headers all of them stay coherent exactly when every step that changes
    slot states in place goes through the only live header of its table. -/
theorem headers_coherent_iff (d : LawfulDesc K V) (ops : List (HeaderOp K V)) :
    Always (headerStep d.toDesc) (AllCoherent d) emptyWorld ops ↔
      EachStep (headerStep d.toDesc) (WritesUnshared d.toDesc) emptyWorld ops :=
  always_iff_eachStep (fun _ hw => Sound.allCoherent hw) (fun _ op hw => headerStep_sound hw op)
    (fun _ op hw => headerStep_incoherent hw op) ops (emptyWorld_sound d)

/-- `let m2 = m; m[1] = 7`: the copy finds the new key and still says its length is 0. -/
theorem copied_header_incoherent :
    ¬ Always (headerStep wordDesc.toDesc) (AllCoherent wordDesc) emptyWorld
      [.init 0, .copy 1 0, .set 0 1 7] := by
  rintro ⟨-, -, -, hall⟩
  obtain ⟨keys, hcard, hmem⟩ := (hall 1 ⟨some 0, 16, 0, 0⟩ rfl).keyCount
  have hempty : keys = ∅ := Finset.card_eq_zero.mp (by simpa using hcard)
  have hhas := (hmem 1).mp (by decide)
  rw [hempty] at hhas
  exact absurd hhas (Finset.notMem_empty _)

end NewClLang.MapHeaders
