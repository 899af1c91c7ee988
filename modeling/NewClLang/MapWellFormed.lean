import NewClLang.MapTable

set_option autoImplicit false

/-!
# The table invariant of the runtime map

What every operation keeps of a header and its table: exact counts, a load bound that leaves a
free slot, distinct live keys, and every live key reached from its hash over non-empty slots.
-/
namespace NewClLang.MapWellFormed
open LinearProbing MapTable

variable {K V : Type}

/-- A descriptor whose `eq` is an equivalence that its `hash` respects. -/
structure LawfulDesc (K V : Type) extends Desc K V where
  eq_refl : ∀ k, eq k k = true
  eq_symm : ∀ {a b}, eq a b = true → eq b a = true
  eq_trans : ∀ {a b c}, eq a b = true → eq b c = true → eq a c = true
  hash_eq : ∀ {a b}, eq a b = true → hash a = hash b

/-- A live entry with a key equal to `key` holds `v`. -/
def Binds (d : Desc K V) (m : NcMap K V) (key : K) (v : V) : Prop :=
  ∃ j k, slot m.entries j = .live k v ∧ d.eq key k = true

def Occupied (m : NcMap K V) (j : ℕ) : Prop := slot m.entries j ≠ .empty

/-- The invariant without the load bound, which `__nc_map_rehash` restores only at its end. -/
structure Placed (d : Desc K V) (m : NcMap K V) : Prop where
  length : m.entries.length = m.cap
  len : m.len = stateCount 1 m.entries
  tombstones : m.tombstones = stateCount 2 m.entries
  distinct : ∀ {i j k k' v v'}, slot m.entries i = .live k v → slot m.entries j = .live k' v' →
    d.eq k k' = true → i = j
  reached : ∀ {j k v}, slot m.entries j = .live k v →
    Reached (Occupied m) m.cap (mapHash d k m.cap) j

structure WellFormed (d : Desc K V) (m : NcMap K V) : Prop extends Placed d m where
  cap : m.cap = 0 ∨ 16 ≤ m.cap
  load : 10 * (m.len + m.tombstones) ≤ 7 * m.cap + 10

theorem slotAt_mapHash (d : Desc K V) (key : K) (cap : ℕ) :
    slotAt cap (mapHash d key cap) 0 = mapHash d key cap := by
  simp [slotAt, mapHash]

theorem mapHash_eq (d : LawfulDesc K V) {a b : K} (h : d.eq a b = true) (cap : ℕ) :
    mapHash d.toDesc a cap = mapHash d.toDesc b cap := by
  rw [mapHash, mapHash, d.hash_eq h]

theorem Placed.lt_cap {d : Desc K V} {m : NcMap K V} (h : Placed d m) {j : ℕ}
    (hj : Occupied m j) : j < m.cap := by
  rw [← h.length]
  exact slot_lt hj

theorem occupied_of_live {m : NcMap K V} {j : ℕ} {k : K} {v : V}
    (h : slot m.entries j = .live k v) : Occupied m j := by
  rw [Occupied, h]
  simp

theorem WellFormed.vacancy {d : Desc K V} {m : NcMap K V} (h : WellFormed d m)
    (hc : 0 < m.cap) : ∃ j < m.cap, slot m.entries j = .empty := by
  have hcap := h.cap
  have hload := h.load
  rw [h.len, h.tombstones] at hload
  have hlt : stateCount 1 m.entries + stateCount 2 m.entries < m.entries.length := by
    rw [h.length]
    omega
  obtain ⟨j, hj, hempty⟩ := exists_empty hlt
  exact ⟨j, h.length ▸ hj, hempty⟩

theorem Placed.no_binds {d : Desc K V} {m : NcMap K V} (h : Placed d m) (hc : m.cap = 0)
    (key : K) (v : V) : ¬ Binds d m key v := by
  rintro ⟨j, k, hj, -⟩
  have hlt := h.lt_cap (occupied_of_live hj)
  omega

section Search

/-- The entries that end a search for `key`: a free one, or a live one with an equal key. -/
def stops (d : Desc K V) (t : Table K V) (key : K) (j : ℕ) : Bool :=
  match slot t j with
  | .empty => true
  | .tombstone => false
  | .live k _ => d.eq key k

theorem stops_empty {d : Desc K V} {t : Table K V} {key : K} {j : ℕ}
    (h : slot t j = .empty) : stops d t key j = true := by
  rw [stops, h]

theorem stops_live {d : Desc K V} {t : Table K V} {key k : K} {v : V} {j : ℕ}
    (h : slot t j = .live k v) : stops d t key j = d.eq key k := by
  rw [stops, h]

theorem stops_tombstone {d : Desc K V} {t : Table K V} {key : K} {j : ℕ}
    (h : slot t j = .tombstone) : stops d t key j = false := by
  rw [stops, h]

theorem occupied_of_not_stops {d : Desc K V} {m : NcMap K V} {key : K} {j : ℕ}
    (h : stops d m.entries key j = false) : Occupied m j := by
  intro hempty
  rw [stops_empty hempty] at h
  cases h

theorem Placed.probe_bound {d : LawfulDesc K V} {m : NcMap K V} (h : Placed d.toDesc m)
    {key k : K} {v : V} {j : ℕ} (hj : slot m.entries j = .live k v) (heq : d.eq key k = true) :
    probe (stops d.toDesc m.entries key) m.cap (mapHash d.toDesc key m.cap) m.cap = some j := by
  obtain ⟨s, hsc, hsj, hfull⟩ := h.reached hj
  rw [← mapHash_eq d heq] at hsj hfull
  have hstop : stops d.toDesc m.entries key j = true := by rw [stops_live hj, heq]
  rw [← slotAt_mapHash]
  cases hp : probe (stops d.toDesc m.entries key) m.cap
      (slotAt m.cap (mapHash d.toDesc key m.cap) 0) m.cap with
  | none =>
    have hno := probe_none hp s (by omega) (by omega)
    rw [hsj, hstop] at hno
    cases hno
  | some i =>
    obtain ⟨t, -, htc, hti, hstopi, hbefore⟩ := probe_some hp
    have hst : ¬ s < t := by
      intro hlt
      have hno := hbefore s (by omega) hlt
      rw [hsj, hstop] at hno
      cases hno
    by_cases hts : t = s
    · rw [← hti, hts, hsj]
    · have hocc := hfull t (by omega)
      rw [hti] at hocc
      cases hi : slot m.entries i with
      | empty => exact absurd hi hocc
      | tombstone =>
        rw [stops_tombstone hi] at hstopi
        cases hstopi
      | live k' v' =>
        rw [stops_live hi] at hstopi
        rw [h.distinct hi hj (d.eq_trans (d.eq_symm hstopi) heq)]

theorem probe_unbound {d : Desc K V} {m : NcMap K V} {key : K} {j : ℕ}
    (hno : ∀ v, ¬ Binds d m key v)
    (hp : probe (stops d m.entries key) m.cap (mapHash d key m.cap) m.cap = some j) :
    slot m.entries j = .empty := by
  rw [← slotAt_mapHash] at hp
  obtain ⟨t, -, -, -, hstop, -⟩ := probe_some hp
  cases hj : slot m.entries j with
  | empty => rfl
  | tombstone =>
    rw [stops_tombstone hj] at hstop
    cases hstop
  | live k v =>
    rw [stops_live hj] at hstop
    exact absurd ⟨j, k, hj, hstop⟩ (hno v)

theorem lookupLoop_eq (d : Desc K V) (m : NcMap K V) (key : K) (idx n : ℕ) :
    lookupLoop d m key idx n = (probe (stops d m.entries key) m.cap idx n).bind (fun j =>
      match slot m.entries j with
      | .live _ v => some v
      | _ => none) := by
  induction n generalizing idx with
  | zero => rfl
  | succ n ih =>
    rw [lookupLoop, probe]
    cases hs : slot m.entries idx with
    | empty => simp [stops_empty hs, hs]
    | tombstone => simpa [stops_tombstone hs] using ih _
    | live k v =>
      rw [stops_live hs]
      by_cases heq : d.eq key k = true
      · simp [heq, hs]
      · simpa [heq] using ih _

theorem deleteLoop_eq (d : Desc K V) (m : NcMap K V) (key : K) (idx n : ℕ) :
    deleteLoop d m key idx n =
      match probe (stops d m.entries key) m.cap idx n with
      | none => m
      | some j =>
        match slot m.entries j with
        | .live _ _ =>
          { m with
            entries := m.entries.set j .tombstone
            len := m.len - 1
            tombstones := m.tombstones + 1 }
        | _ => m := by
  induction n generalizing idx with
  | zero => rfl
  | succ n ih =>
    rw [deleteLoop, probe]
    cases hs : slot m.entries idx with
    | empty => simp [stops_empty hs, hs]
    | tombstone => simpa [stops_tombstone hs] using ih _
    | live k v =>
      rw [stops_live hs]
      by_cases heq : d.eq key k = true
      · simp [heq, hs]
      · simpa [heq] using ih _

/-- The first entry a new key may be written to: the probe of `__nc_map_put` remembers it. -/
def writable (d : Desc K V) (t : Table K V) (key : K) (j : ℕ) : Bool :=
  stops d t key j || (slot t j).state == 2

theorem putLoop_some_tomb (d : Desc K V) (m : NcMap K V) (key : K) (value : V) (p idx n : ℕ) :
    putLoop d m key value (some p) idx n =
      match probe (stops d m.entries key) m.cap idx n with
      | none => m
      | some j =>
        match slot m.entries j with
        | .live k _ => { m with entries := m.entries.set j (.live k value) }
        | _ => putNew m key value (some p) j := by
  induction n generalizing idx with
  | zero => rfl
  | succ n ih =>
    rw [putLoop, probe]
    cases hs : slot m.entries idx with
    | empty => simp [stops_empty hs, hs]
    | tombstone => simpa [stops_tombstone hs] using ih _
    | live k v =>
      rw [stops_live hs]
      by_cases heq : d.eq key k = true
      · simp [heq, hs]
      · simpa [heq] using ih _

/-- The probe of `__nc_map_put` in terms of the two searches it interleaves. -/
theorem putLoop_eq (d : Desc K V) (m : NcMap K V) (key : K) (value : V) (idx n : ℕ) :
    putLoop d m key value none idx n =
      match probe (stops d m.entries key) m.cap idx n with
      | none => m
      | some j =>
        match slot m.entries j with
        | .live k _ => { m with entries := m.entries.set j (.live k value) }
        | _ =>
          let p := (probe (writable d m.entries key) m.cap idx n).getD j
          putNew m key value (if (slot m.entries p).state = 2 then some p else none) j := by
  induction n generalizing idx with
  | zero => rfl
  | succ n ih =>
    rw [putLoop, probe, probe]
    cases hs : slot m.entries idx with
    | empty => simp [stops_empty hs, writable, hs]
    | tombstone =>
      simp only [stops_tombstone hs, writable, hs, Option.none_or]
      rw [putLoop_some_tomb]
      simp [hs]
    | live k v =>
      rw [stops_live hs]
      by_cases heq : d.eq key k = true
      · simp [heq, hs]
      · have hw : writable d m.entries key idx = false := by
          simp [writable, stops_live hs, heq, hs]
        simpa [heq, hw] using ih _

end Search

section Lookup
variable {d : LawfulDesc K V} {m : NcMap K V}

/-- `__nc_map_lookup` finds exactly what the live entries bind. -/
theorem Placed.mapLookup_eq_some (h : Placed d.toDesc m) (key : K) (v : V) :
    mapLookup d.toDesc m key = some v ↔ Binds d.toDesc m key v := by
  rw [mapLookup]
  by_cases hc : m.cap = 0
  · rw [if_pos hc]
    simp [h.no_binds hc key v]
  · rw [if_neg hc, lookupLoop_eq]
    constructor
    · intro hv
      obtain ⟨j, hp, hj⟩ := Option.bind_eq_some_iff.mp hv
      rw [← slotAt_mapHash] at hp
      obtain ⟨-, -, -, -, hstop, -⟩ := probe_some hp
      cases hs : slot m.entries j with
      | empty | tombstone => simp [hs] at hj
      | live k w =>
        rw [stops_live hs] at hstop
        simp only [hs, Option.some.injEq] at hj
        subst hj
        exact ⟨j, k, hs, hstop⟩
    · rintro ⟨j, k, hj, heq⟩
      rw [h.probe_bound hj heq]
      simp [hj]

end Lookup

end NewClLang.MapWellFormed
