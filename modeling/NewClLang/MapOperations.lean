import NewClLang.MapWellFormed

set_option autoImplicit false

/-!
# The operations of the runtime map keep its table invariant

Each operation is described by what it does to the bindings of the table.
-/
namespace NewClLang.MapOperations
open LinearProbing MapTable MapWellFormed

variable {K V : Type}

section Write
variable {d : LawfulDesc K V} {m : NcMap K V}

/-- A header over a fresh table: what the zero value, `__nc_map_init`, the start of a rehash
    and `__nc_map_clear` have in common. -/
def blank (cap : ℕ) : NcMap K V := ⟨List.replicate cap .empty, cap, 0, 0⟩

theorem blank_placed (d : Desc K V) (cap : ℕ) : Placed d (blank cap : NcMap K V) where
  length := by simp [blank]
  len := by
    change (0 : ℤ) = stateCount 1 (List.replicate cap (Entry.empty : Entry K V))
    rw [stateCount_replicate 1 cap (by decide)]
    rfl
  tombstones := by
    change (0 : ℤ) = stateCount 2 (List.replicate cap (Entry.empty : Entry K V))
    rw [stateCount_replicate 2 cap (by decide)]
    rfl
  distinct := by
    intro i j k k' v v' hi
    simp only [blank, slot_replicate, reduceCtorEq] at hi
  reached := by
    intro j k v hj
    simp only [blank, slot_replicate, reduceCtorEq] at hj

theorem blank_wellFormed (d : Desc K V) {cap : ℕ} (hc : cap = 0 ∨ 16 ≤ cap) :
    WellFormed d (blank cap : NcMap K V) where
  toPlaced := blank_placed d cap
  cap := hc
  load := by
    simp only [blank]
    omega

theorem blank_no_binds (d : Desc K V) (cap : ℕ) (key : K) (v : V) :
    ¬ Binds d (blank cap : NcMap K V) key v := by
  rintro ⟨j, k, hj, -⟩
  simp only [blank, slot_replicate, reduceCtorEq] at hj

theorem WellFormed.eq_blank {d : Desc K V} {m : NcMap K V} (h : WellFormed d m)
    (hc : m.cap = 0) : m = blank 0 := by
  have hentries := List.length_eq_zero_iff.mp (h.length.trans hc)
  have hlen := h.len
  have htomb := h.tombstones
  cases m with
  | mk entries cap len tombstones =>
    simp only at hentries hc hlen htomb
    subst hentries hc hlen htomb
    rfl

theorem mapClear_eq {d : Desc K V} {m : NcMap K V} (h : WellFormed d m) :
    mapClear m = blank m.cap := by
  rw [mapClear]
  split_ifs with hc
  · rw [hc, ← WellFormed.eq_blank h hc]
  · rfl

def placeAt (m : NcMap K V) (p : ℕ) (key : K) (value : V) : NcMap K V :=
  { m with
    entries := m.entries.set p (.live key value)
    len := m.len + 1
    tombstones := m.tombstones - if (slot m.entries p).state = 2 then 1 else 0 }

theorem placeAt_occupied {p j : ℕ} (hp : p < m.entries.length) (key : K) (value : V)
    (hj : Occupied m j) : Occupied (placeAt m p key value) j := by
  unfold Occupied placeAt
  rw [slot_set _ hp]
  split_ifs
  · simp
  · exact hj

theorem placeAt_live {p j : ℕ} {key k : K} {value v : V} (hp : p < m.entries.length)
    (hj : slot (placeAt m p key value).entries j = .live k v) :
    (j = p ∧ k = key ∧ v = value) ∨ (j ≠ p ∧ slot m.entries j = .live k v) := by
  unfold placeAt at hj
  rw [slot_set _ hp] at hj
  by_cases hjp : j = p
  · rw [if_pos hjp] at hj
    cases hj
    exact Or.inl ⟨hjp, rfl, rfl⟩
  · rw [if_neg hjp] at hj
    exact Or.inr ⟨hjp, hj⟩

theorem placeAt_placed (h : Placed d.toDesc m) {p : ℕ} {key : K} (value : V)
    (hlt : p < m.entries.length) (hp : (slot m.entries p).state ≠ 1)
    (hreach : Reached (Occupied m) m.cap (mapHash d.toDesc key m.cap) p)
    (habs : ∀ v, ¬ Binds d.toDesc m key v) :
    Placed d.toDesc (placeAt m p key value) where
  length := by simpa [placeAt] using h.length
  len := by
    simp only [placeAt]
    rw [stateCount_set _ hlt, ← h.len, if_neg hp]
    simp
  tombstones := by
    simp only [placeAt]
    rw [stateCount_set _ hlt, ← h.tombstones]
    simp
  distinct := by
    intro i j k k' v v' hi hj heq
    rcases placeAt_live hlt hi with ⟨hip, hk, -⟩ | ⟨-, hi₀⟩
    · rcases placeAt_live hlt hj with ⟨hjp, -, -⟩ | ⟨-, hj₀⟩
      · rw [hip, hjp]
      · exact absurd ⟨j, k', hj₀, hk ▸ heq⟩ (habs v')
    · rcases placeAt_live hlt hj with ⟨-, hk, -⟩ | ⟨-, hj₀⟩
      · exact absurd ⟨i, k, hi₀, d.eq_symm (hk ▸ heq)⟩ (habs v)
      · exact h.distinct hi₀ hj₀ heq
  reached := by
    intro j k v hj
    rcases placeAt_live hlt hj with ⟨rfl, rfl, rfl⟩ | ⟨hjp, hj⟩
    · exact hreach.mono (fun s hs => placeAt_occupied hlt k v hs)
    · exact (h.reached hj).mono (fun s hs => placeAt_occupied hlt key value hs)

theorem placeAt_binds {p : ℕ} {key : K} (value : V) (hlt : p < m.entries.length)
    (hp : (slot m.entries p).state ≠ 1) (habs : ∀ v, ¬ Binds d.toDesc m key v) (key' : K) (v : V) :
    Binds d.toDesc (placeAt m p key value) key' v ↔
      if d.eq key' key then v = value else Binds d.toDesc m key' v := by
  constructor
  · rintro ⟨j, k, hj, heq⟩
    rcases placeAt_live hlt hj with ⟨rfl, rfl, rfl⟩ | ⟨hjp, hj⟩
    · rw [if_pos heq]
    · rw [if_neg]
      · exact ⟨j, k, hj, heq⟩
      · intro hkey
        exact habs v ⟨j, k, hj, d.eq_trans (d.eq_symm hkey) heq⟩
  · intro hv
    split_ifs at hv with heq
    · subst hv
      refine ⟨p, key, ?_, heq⟩
      simp only [placeAt]
      rw [slot_set _ hlt, if_pos rfl]
    · obtain ⟨j, k, hj, hk⟩ := hv
      refine ⟨j, k, ?_, hk⟩
      simp only [placeAt]
      rw [slot_set _ hlt, if_neg, hj]
      rintro rfl
      rw [hj] at hp
      exact hp rfl

end Write

section Rehash
variable {d : LawfulDesc K V} {m : NcMap K V}

/-- The inner loop of `__nc_map_rehash` stops: it is entered with a free entry in the table. -/
theorem rehashPlace_found {j : ℕ} (key : K) (value : V) (hj : j < m.cap)
    (hempty : slot m.entries j = .empty) :
    ∃ p, slot m.entries p = .empty ∧
      Reached (Occupied m) m.cap (mapHash d.toDesc key m.cap) p ∧
      rehashPlace d.toDesc m key value =
        { m with entries := m.entries.set p (.live key value), len := m.len + 1 } := by
  have hsome : (probe (fun j => (slot m.entries j).state == 0) m.cap
      (mapHash d.toDesc key m.cap) m.cap).isSome := probe_isSome hj (by simp [hempty])
  obtain ⟨p, hp⟩ := Option.isSome_iff_exists.mp hsome
  have hslot : slot m.entries p = .empty := by
    rw [← slotAt_mapHash] at hp
    obtain ⟨-, -, -, -, hstop, -⟩ := probe_some hp
    cases hs : slot m.entries p with
    | empty => rfl
    | live k v | tombstone => simp [hs] at hstop
  refine ⟨p, hslot, ?_, ?_⟩
  · rw [← slotAt_mapHash] at hp
    refine probe_reached (fun i hi hempty => ?_) hp
    simp [hempty] at hi
  · rw [rehashPlace, hp]

def BindsIn (d : Desc K V) (t : Table K V) (key : K) (v : V) : Prop :=
  ∃ k, Entry.live k v ∈ t ∧ d.eq key k = true

theorem binds_iff_bindsIn (d : Desc K V) (m : NcMap K V) (key : K) (v : V) :
    Binds d m key v ↔ BindsIn d m.entries key v := by
  constructor
  · rintro ⟨j, k, hj, heq⟩
    have hlt : j < m.entries.length := slot_lt (by simp [hj])
    rw [slot_eq_of_lt hlt] at hj
    exact ⟨k, hj ▸ List.getElem_mem hlt, heq⟩
  · rintro ⟨k, hmem, heq⟩
    obtain ⟨j, hlt, hj⟩ := List.mem_iff_getElem.mp hmem
    exact ⟨j, k, by rw [slot_eq_of_lt hlt, hj], heq⟩

/-- What `__nc_map_rehash` has built when it has copied the entries `done`. -/
structure Copied (d : Desc K V) (m : NcMap K V) (done : Table K V) (m' : NcMap K V) : Prop
    extends Placed d m' where
  cap : m'.cap = 2 * m.cap
  copied_len : m'.len = stateCount 1 done
  no_tombstones : m'.tombstones = 0
  binds : ∀ key v, Binds d m' key v ↔ BindsIn d done key v

theorem bindsIn_append (d : Desc K V) (t : Table K V) (e : Entry K V) (key : K) (v : V) :
    BindsIn d (t ++ [e]) key v ↔
      BindsIn d t key v ∨ ∃ k, e = .live k v ∧ d.eq key k = true := by
  constructor
  · rintro ⟨k, hmem, heq⟩
    rcases List.mem_append.mp hmem with h | h
    · exact Or.inl ⟨k, h, heq⟩
    · exact Or.inr ⟨k, (List.mem_singleton.mp h).symm, heq⟩
  · rintro (⟨k, hmem, heq⟩ | ⟨k, rfl, heq⟩)
    · exact ⟨k, List.mem_append_left _ hmem, heq⟩
    · exact ⟨k, by simp, heq⟩

theorem stateCount_append (s : ℕ) (t : Table K V) (e : Entry K V) :
    stateCount s (t ++ [e]) = stateCount s t + if e.state = s then 1 else 0 := by
  simp [stateCount, List.countP_append, List.countP_cons]

theorem Copied.skip {done : Table K V} {m' : NcMap K V} (h : Copied d.toDesc m done m')
    {e : Entry K V} (he : e.state ≠ 1) : Copied d.toDesc m (done ++ [e]) m' where
  toPlaced := h.toPlaced
  cap := h.cap
  copied_len := by rw [h.copied_len, stateCount_append, if_neg he, Nat.add_zero]
  no_tombstones := h.no_tombstones
  binds := by
    intro key v
    rw [h.binds, bindsIn_append]
    constructor
    · exact Or.inl
    · rintro (hold | ⟨k, rfl, -⟩)
      · exact hold
      · exact absurd rfl he

theorem Copied.copy {done : Table K V} {m' : NcMap K V} (h : Copied d.toDesc m done m')
    {key : K} {value : V} (hroom : stateCount 1 done < 2 * m.cap)
    (hfresh : ∀ v, ¬ BindsIn d.toDesc done key v) :
    Copied d.toDesc m (done ++ [.live key value]) (rehashPlace d.toDesc m' key value) := by
  have hlen := h.len
  have htomb := h.tombstones
  rw [h.copied_len] at hlen
  rw [h.no_tombstones] at htomb
  have hlt : stateCount 1 m'.entries + stateCount 2 m'.entries < m'.entries.length := by
    rw [h.length, h.cap]
    omega
  obtain ⟨j, hj, hempty⟩ := exists_empty hlt
  obtain ⟨p, hp, hreach, hplace⟩ :=
    rehashPlace_found (d := d) key value (h.length ▸ hj) hempty
  have hplt : p < m'.entries.length := h.length ▸ hreach.lt
  have hstate : (slot m'.entries p).state ≠ 1 := by simp [hp]
  have habs : ∀ v, ¬ Binds d.toDesc m' key v := by
    intro v hv
    exact hfresh v ((h.binds key v).mp hv)
  have heq : rehashPlace d.toDesc m' key value = placeAt m' p key value := by
    rw [hplace]
    simp [placeAt, hp]
  rw [heq]
  constructor
  case toPlaced => exact placeAt_placed h.toPlaced value hplt hstate hreach habs
  case cap => exact h.cap
  case copied_len => simp [placeAt, h.copied_len, stateCount_append]
  case no_tombstones => simp [placeAt, h.no_tombstones, hp]
  case binds =>
    intro key' v
    rw [placeAt_binds value hplt hstate habs, bindsIn_append, h.binds]
    split_ifs with hkey
    · constructor
      · rintro rfl
        exact Or.inr ⟨key, rfl, hkey⟩
      · rintro (⟨k, hmem, hk⟩ | ⟨k, hk, -⟩)
        · exact absurd ⟨k, hmem, d.eq_trans (d.eq_symm hkey) hk⟩ (hfresh v)
        · cases hk
          rfl
    · constructor
      · exact Or.inl
      · rintro (hold | ⟨k, hk, hkey'⟩)
        · exact hold
        · cases hk
          exact absurd hkey' hkey

theorem fresh_of_split (h : Placed d.toDesc m) {done rest : Table K V} {key : K} {value : V}
    (hsplit : done ++ .live key value :: rest = m.entries) (v : V) :
    ¬ BindsIn d.toDesc done key v := by
  rintro ⟨k, hmem, heq⟩
  obtain ⟨i, hi, hik⟩ := List.mem_iff_getElem.mp hmem
  have hlive : slot m.entries i = .live k v := by
    rw [← hsplit, slot, List.getD_eq_getElem?_getD, List.getElem?_append_left hi,
      List.getElem?_eq_getElem hi, hik]
    rfl
  have hhead : slot m.entries done.length = .live key value := by
    rw [← hsplit]
    simp [slot]
  have hidx := h.distinct hhead hlive heq
  omega

theorem Copied.fold (h : Placed d.toDesc m) (hroom : stateCount 1 m.entries < 2 * m.cap)
    (rest : Table K V) {done : Table K V} {m' : NcMap K V} (hsplit : done ++ rest = m.entries)
    (hc : Copied d.toDesc m done m') :
    Copied d.toDesc m m.entries (rest.foldl (rehashEntry d.toDesc) m') := by
  induction rest generalizing done m' with
  | nil =>
    rw [List.append_nil] at hsplit
    exact hsplit ▸ hc
  | cons e rest ih =>
    rw [List.foldl_cons]
    have hnext : (done ++ [e]) ++ rest = m.entries := by simpa using hsplit
    refine ih hnext ?_
    cases e with
    | empty | tombstone => exact hc.skip (by simp)
    | live key value =>
      refine hc.copy ?_ (fresh_of_split h hsplit)
      refine lt_of_le_of_lt ?_ hroom
      rw [← hsplit, stateCount, stateCount, List.countP_append]
      exact Nat.le_add_right _ _

theorem mapRehash_copied (h : Placed d.toDesc m) (hroom : stateCount 1 m.entries < 2 * m.cap) :
    Copied d.toDesc m m.entries (mapRehash d.toDesc m) := by
  refine Copied.fold h hroom m.entries (List.nil_append m.entries) ?_
  refine ⟨blank_placed d.toDesc (2 * m.cap), rfl, rfl, rfl, fun key v => ?_⟩
  constructor
  · exact fun hv => absurd hv (blank_no_binds d.toDesc (2 * m.cap) key v)
  · rintro ⟨k, hmem, -⟩
    cases hmem

theorem mapRehash_spec (h : WellFormed d.toDesc m) (hcap : m.cap ≠ 0) :
    Placed d.toDesc (mapRehash d.toDesc m) ∧
    16 ≤ (mapRehash d.toDesc m).cap ∧
    10 * ((mapRehash d.toDesc m).len + (mapRehash d.toDesc m).tombstones) ≤
      7 * (mapRehash d.toDesc m).cap ∧
    (mapRehash d.toDesc m).len = m.len ∧
    ∀ key v, Binds d.toDesc (mapRehash d.toDesc m) key v ↔ Binds d.toDesc m key v := by
  have hload := h.load
  have hlen := h.len
  have htomb := h.tombstones
  have h16 := h.cap.resolve_left hcap
  have hcopied := mapRehash_copied h.toPlaced (by omega)
  have hcap' := hcopied.cap
  have hlen' := hcopied.copied_len
  have htomb' := hcopied.no_tombstones
  refine ⟨hcopied.toPlaced, by omega, by omega, by omega, fun key v => ?_⟩
  rw [hcopied.binds, binds_iff_bindsIn]

end Rehash

section Set
variable {d : LawfulDesc K V} {m : NcMap K V}

/-- What `__nc_map_put` probes: a well-formed table with room for one more entry. -/
theorem prepared_spec (h : WellFormed d.toDesc m) :
    Placed d.toDesc (prepared d.toDesc m) ∧
    16 ≤ (prepared d.toDesc m).cap ∧
    10 * ((prepared d.toDesc m).len + (prepared d.toDesc m).tombstones) ≤
      7 * (prepared d.toDesc m).cap ∧
    (prepared d.toDesc m).len = m.len ∧
    ∀ key v, Binds d.toDesc (prepared d.toDesc m) key v ↔ Binds d.toDesc m key v := by
  by_cases hc : m.cap = 0
  · have hprep : prepared d.toDesc m = blank 16 := by
      rw [prepared, if_pos hc]
      rfl
    have hlen : m.len = 0 := by rw [WellFormed.eq_blank h hc, blank]
    rw [hprep]
    refine ⟨blank_placed d.toDesc 16, le_refl 16, by simp [blank], hlen.symm, fun key v => ?_⟩
    simp only [blank_no_binds, h.no_binds hc]
  · rw [prepared, if_neg hc]
    by_cases hover : overloaded m = true
    · simp only [hover, if_true]
      exact mapRehash_spec h hc
    · simp only [hover]
      simp only [overloaded, decide_eq_true_eq, not_lt] at hover
      exact ⟨h.toPlaced, h.cap.resolve_left hc, hover, rfl, fun _ _ => Iff.rfl⟩

theorem overwrite_live {j i : ℕ} {k k' : K} {v v' value : V}
    (hj : slot m.entries j = .live k v)
    (hi : slot (m.entries.set j (.live k value)) i = .live k' v') :
    (i = j ∧ k' = k ∧ v' = value) ∨ (i ≠ j ∧ slot m.entries i = .live k' v') := by
  rw [slot_set _ (slot_lt (by simp [hj]))] at hi
  by_cases hij : i = j
  · rw [if_pos hij] at hi
    cases hi
    exact Or.inl ⟨hij, rfl, rfl⟩
  · rw [if_neg hij] at hi
    exact Or.inr ⟨hij, hi⟩

theorem overwrite_placed (h : Placed d.toDesc m) {j : ℕ} {k : K} {v : V} (value : V)
    (hj : slot m.entries j = .live k v) :
    Placed d.toDesc { m with entries := m.entries.set j (.live k value) } := by
  have hlt : j < m.entries.length := slot_lt (by simp [hj])
  have hocc : ∀ s, Occupied m s →
      Occupied { m with entries := m.entries.set j (.live k value) } s := by
    intro s hs
    unfold Occupied
    rw [slot_set _ hlt]
    split_ifs
    · simp
    · exact hs
  have hkey : ∀ {i k' v'}, slot (m.entries.set j (.live k value)) i = .live k' v' →
      ∃ w, slot m.entries i = .live k' w := by
    intro i k' v' hi
    rcases overwrite_live hj hi with ⟨rfl, rfl, rfl⟩ | ⟨-, hi⟩
    · exact ⟨v, hj⟩
    · exact ⟨v', hi⟩
  constructor
  case length => simpa using h.length
  case len =>
    simp only
    rw [stateCount_set _ hlt, ← h.len, hj]
    simp
  case tombstones =>
    simp only
    rw [stateCount_set _ hlt, ← h.tombstones, hj]
    simp
  case distinct =>
    intro i i' k₁ k₂ v₁ v₂ hi hi' heq
    obtain ⟨w, hi⟩ := hkey hi
    obtain ⟨w', hi'⟩ := hkey hi'
    exact h.distinct hi hi' heq
  case reached =>
    intro i k' v' hi
    obtain ⟨w, hi⟩ := hkey hi
    exact (h.reached hi).mono hocc

theorem overwrite_binds (h : Placed d.toDesc m) {j : ℕ} {key k : K} {v : V} (value : V)
    (hj : slot m.entries j = .live k v) (heq : d.eq key k = true) (key' : K) (w : V) :
    Binds d.toDesc { m with entries := m.entries.set j (.live k value) } key' w ↔
      if d.eq key' key then w = value else Binds d.toDesc m key' w := by
  have hlt : j < m.entries.length := slot_lt (by simp [hj])
  constructor
  · rintro ⟨i, k', hi, hk'⟩
    rcases overwrite_live hj hi with ⟨rfl, rfl, rfl⟩ | ⟨hij, hi⟩
    · rw [if_pos (d.eq_trans hk' (d.eq_symm heq))]
    · rw [if_neg]
      · exact ⟨i, k', hi, hk'⟩
      · intro hkey
        exact hij (h.distinct hi hj (d.eq_trans (d.eq_symm hk') (d.eq_trans hkey heq)))
  · intro hw
    split_ifs at hw with hkey
    · subst hw
      refine ⟨j, k, ?_, d.eq_trans hkey heq⟩
      rw [slot_set _ hlt, if_pos rfl]
    · obtain ⟨i, k', hi, hk'⟩ := hw
      refine ⟨i, k', ?_, hk'⟩
      rw [slot_set _ hlt, if_neg, hi]
      rintro rfl
      rw [hj] at hi
      cases hi
      exact hkey (d.eq_trans hk' (d.eq_symm heq))

theorem putLoop_bound (h : Placed d.toDesc m) {j : ℕ} {key k : K} {v : V} (value : V)
    (hj : slot m.entries j = .live k v) (heq : d.eq key k = true) :
    putLoop d.toDesc m key value none (mapHash d.toDesc key m.cap) m.cap =
      { m with entries := m.entries.set j (.live k value) } := by
  rw [putLoop_eq, h.probe_bound hj heq]
  simp only [hj]

/-- The entry a put of an unbound key writes: the first one on its path that is not live. -/
theorem putLoop_unbound (h : Placed d.toDesc m) {key : K} (value : V)
    (habs : ∀ v, ¬ Binds d.toDesc m key v) (hvac : ∃ j < m.cap, slot m.entries j = .empty) :
    ∃ p < m.entries.length, (slot m.entries p).state ≠ 1 ∧
      Reached (Occupied m) m.cap (mapHash d.toDesc key m.cap) p ∧
      putLoop d.toDesc m key value none (mapHash d.toDesc key m.cap) m.cap =
        placeAt m p key value := by
  obtain ⟨i, hi, hempty⟩ := hvac
  have hsome : (probe (stops d.toDesc m.entries key) m.cap
      (mapHash d.toDesc key m.cap) m.cap).isSome := probe_isSome hi (stops_empty hempty)
  obtain ⟨j, hj⟩ := Option.isSome_iff_exists.mp hsome
  have hwsome : (probe (writable d.toDesc m.entries key) m.cap
      (mapHash d.toDesc key m.cap) m.cap).isSome :=
    probe_isSome hi (by simp [writable, stops_empty hempty])
  obtain ⟨p, hp⟩ := Option.isSome_iff_exists.mp hwsome
  have hjempty := probe_unbound habs hj
  rw [putLoop_eq, hj, hp]
  simp only [hjempty, Option.getD_some]
  have hreach : Reached (Occupied m) m.cap (mapHash d.toDesc key m.cap) p := by
    rw [← slotAt_mapHash] at hp
    apply probe_reached _ hp
    intro s hs
    simp only [writable, Bool.or_eq_false_iff] at hs
    exact occupied_of_not_stops hs.1
  have hplt : p < m.entries.length := h.length ▸ hreach.lt
  have hwritable : writable d.toDesc m.entries key p = true := by
    rw [← slotAt_mapHash] at hp
    obtain ⟨-, -, -, -, hstop, -⟩ := probe_some hp
    exact hstop
  cases hs : slot m.entries p with
  | live k v =>
    simp only [writable, stops_live hs, hs, state_live, Bool.or_eq_true] at hwritable
    exact absurd ⟨p, k, hs, hwritable.resolve_right (by decide)⟩ (habs v)
  | tombstone =>
    refine ⟨p, hplt, by simp [hs], hreach, ?_⟩
    simp [putNew, placeAt, hs]
  | empty =>
    -- No tombstone came before the free entry, so both searches stop at the same place.
    have hstop := probe_of_stricter (fun s hs => by rw [writable, hs, Bool.true_or]) hp
      (stops_empty hs)
    have hpj : p = j := Option.some.inj (hstop.symm.trans hj)
    refine ⟨p, hplt, by simp [hs], hreach, ?_⟩
    simp [putNew, placeAt, hpj, hjempty]

/-- The result of `__nc_map_put` on a well-formed header. -/
structure Stored (d : Desc K V) (m : NcMap K V) (key : K) (value : V) (m' : NcMap K V) : Prop where
  wellFormed : WellFormed d m'
  binds : ∀ key' v, Binds d m' key' v ↔ if d.eq key' key then v = value else Binds d m key' v
  len_bound : (∃ v, Binds d m key v) → m'.len = m.len
  len_new : (¬ ∃ v, Binds d m key v) → m'.len = m.len + 1

theorem mapSet_stored (h : WellFormed d.toDesc m) (key : K) (value : V) :
    Stored d.toDesc m key value (mapSet d.toDesc m key value) := by
  obtain ⟨hplaced, h16, hload, hlen, hbinds⟩ := prepared_spec h
  have hvac : ∃ j < (prepared d.toDesc m).cap, slot (prepared d.toDesc m).entries j = .empty := by
    have hwf : WellFormed d.toDesc (prepared d.toDesc m) := ⟨hplaced, Or.inr h16, by omega⟩
    exact hwf.vacancy (by omega)
  unfold mapSet
  generalize prepared d.toDesc m = n at *
  by_cases hbound : ∃ v, Binds d.toDesc m key v
  · obtain ⟨v, hv⟩ := hbound
    obtain ⟨j, k, hj, heq⟩ := (hbinds key v).mpr hv
    simp only [putLoop_bound hplaced value hj heq]
    constructor
    case wellFormed => exact ⟨overwrite_placed hplaced value hj, Or.inr h16, by simp only; omega⟩
    case binds =>
      intro key' w
      rw [overwrite_binds hplaced value hj heq, hbinds]
    case len_bound => exact fun _ => hlen
    case len_new => exact fun hno => absurd ⟨v, hv⟩ hno
  · have habs : ∀ v, ¬ Binds d.toDesc n key v := by
      intro v hv
      exact hbound ⟨v, (hbinds key v).mp hv⟩
    obtain ⟨p, hplt, hstate, hreach, hput⟩ := putLoop_unbound hplaced value habs hvac
    simp only [hput]
    constructor
    case wellFormed =>
      refine ⟨placeAt_placed hplaced value hplt hstate hreach habs, Or.inr h16, ?_⟩
      simp only [placeAt]
      split_ifs <;> omega
    case binds =>
      intro key' w
      rw [placeAt_binds value hplt hstate habs, hbinds]
    case len_bound => exact fun hyes => absurd hyes hbound
    case len_new =>
      intro _
      simp only [placeAt, hlen]

end Set

section Delete
variable {d : LawfulDesc K V} {m : NcMap K V}

def removeAt (m : NcMap K V) (j : ℕ) : NcMap K V :=
  { m with
    entries := m.entries.set j .tombstone
    len := m.len - 1
    tombstones := m.tombstones + 1 }

theorem removeAt_live {j i : ℕ} {k : K} {v : V} (hlt : j < m.entries.length)
    (hi : slot (removeAt m j).entries i = .live k v) : i ≠ j ∧ slot m.entries i = .live k v := by
  simp only [removeAt] at hi
  rw [slot_set _ hlt] at hi
  by_cases hij : i = j
  · rw [if_pos hij] at hi
    cases hi
  · rw [if_neg hij] at hi
    exact ⟨hij, hi⟩

theorem removeAt_wellFormed (h : WellFormed d.toDesc m) {j : ℕ} {k : K} {v : V}
    (hj : slot m.entries j = .live k v) : WellFormed d.toDesc (removeAt m j) := by
  have hlt : j < m.entries.length := slot_lt (by simp [hj])
  have hload := h.load
  constructor
  case toPlaced =>
    constructor
    case length => simpa [removeAt] using h.length
    case len =>
      simp only [removeAt]
      rw [stateCount_set _ hlt, ← h.len, hj]
      simp
    case tombstones =>
      simp only [removeAt]
      rw [stateCount_set _ hlt, ← h.tombstones, hj]
      simp
    case distinct =>
      intro i i' k₁ k₂ v₁ v₂ hi hi' heq
      exact h.distinct (removeAt_live hlt hi).2 (removeAt_live hlt hi').2 heq
    case reached =>
      intro i k' v' hi
      apply (h.reached (removeAt_live hlt hi).2).mono
      intro s hs
      unfold Occupied removeAt
      rw [slot_set _ hlt]
      split_ifs
      · simp
      · exact hs
  case cap => exact h.cap
  case load =>
    simp only [removeAt]
    omega

/-- The result of `__nc_map_delete` on a well-formed header. -/
structure Deleted (d : Desc K V) (m : NcMap K V) (key : K) (m' : NcMap K V) : Prop where
  wellFormed : WellFormed d m'
  binds : ∀ key' v, Binds d m' key' v ↔ d.eq key' key = false ∧ Binds d m key' v
  len_bound : (∃ v, Binds d m key v) → m'.len = m.len - 1
  len_absent : (¬ ∃ v, Binds d m key v) → m'.len = m.len

theorem deleted_self (h : WellFormed d.toDesc m) {key : K}
    (habs : ¬ ∃ v, Binds d.toDesc m key v) : Deleted d.toDesc m key m where
  wellFormed := h
  binds := by
    intro key' v
    constructor
    · rintro ⟨j, k, hj, heq⟩
      refine ⟨?_, j, k, hj, heq⟩
      by_contra hkey
      rw [Bool.not_eq_false] at hkey
      exact habs ⟨v, j, k, hj, d.eq_trans (d.eq_symm hkey) heq⟩
    · exact And.right
  len_bound := by
    intro hyes
    exact absurd hyes habs
  len_absent := fun _ => rfl

theorem mapDelete_absent {key : K} (habs : ∀ v, ¬ Binds d.toDesc m key v) :
    mapDelete d.toDesc m key = m := by
  rw [mapDelete]
  split_ifs with hc
  · rfl
  · rw [deleteLoop_eq]
    cases hp : probe (stops d.toDesc m.entries key) m.cap (mapHash d.toDesc key m.cap) m.cap with
    | none => rfl
    | some j => simp only [probe_unbound habs hp]

theorem mapDelete_bound (h : Placed d.toDesc m) {j : ℕ} {key k : K} {v : V}
    (hj : slot m.entries j = .live k v) (heq : d.eq key k = true) :
    mapDelete d.toDesc m key = removeAt m j := by
  have hc : m.cap ≠ 0 := fun hc => h.no_binds hc key v ⟨j, k, hj, heq⟩
  rw [mapDelete, if_neg hc, deleteLoop_eq, h.probe_bound hj heq]
  simp only [hj]
  rfl

theorem mapDelete_deleted (h : WellFormed d.toDesc m) (key : K) :
    Deleted d.toDesc m key (mapDelete d.toDesc m key) := by
  by_cases hbound : ∃ v, Binds d.toDesc m key v
  · obtain ⟨v, j, k, hj, heq⟩ := hbound
    have hlt : j < m.entries.length := slot_lt (by simp [hj])
    rw [mapDelete_bound h.toPlaced hj heq]
    refine ⟨removeAt_wellFormed h hj, ?_, fun _ => rfl, fun hno => ?_⟩
    · intro key' w
      constructor
      · rintro ⟨i, k', hi, hk'⟩
        obtain ⟨hij, hi⟩ := removeAt_live hlt hi
        refine ⟨?_, i, k', hi, hk'⟩
        by_contra hkey
        rw [Bool.not_eq_false] at hkey
        exact hij (h.distinct hi hj (d.eq_trans (d.eq_symm hk') (d.eq_trans hkey heq)))
      · rintro ⟨hkey, i, k', hi, hk'⟩
        refine ⟨i, k', ?_, hk'⟩
        simp only [removeAt]
        rw [slot_set _ hlt, if_neg, hi]
        rintro rfl
        rw [hj] at hi
        cases hi
        rw [d.eq_trans hk' (d.eq_symm heq)] at hkey
        cases hkey
    · exact absurd ⟨v, j, k, hj, heq⟩ hno
  · rw [mapDelete_absent (fun v hv => hbound ⟨v, hv⟩)]
    exact deleted_self h hbound

end Delete

end NewClLang.MapOperations
