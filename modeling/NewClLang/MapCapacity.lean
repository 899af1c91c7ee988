import NewClLang.MapRefinement

set_option autoImplicit false

/-!
# The capacity of the runtime map

`__nc_map_rehash` doubles the table whatever has filled it. The capacity is bounded by the number of
keys where a table is not filled by deleted entries.
-/
namespace NewClLang.MapCapacity
open LinearProbing MapTable MapWellFormed MapOperations MapRefinement TransitionRuns

section Runs

/-- A sequence of operations on a fresh map, with at most `live` keys at any time. -/
structure MapRun where
  (K V : Type)
  desc : LawfulDesc K V
  start : NcMap K V
  fresh : start = zeroMap ∨ start = mapInit
  ops : List (MapOp K V)
  live : ℕ
  few : Always (fun m op => (mapStep desc.toDesc m op).1) (fun m => stateCount 1 m.entries ≤ live)
    start ops

abbrev MapRun.step (r : MapRun) (m : NcMap r.K r.V) (op : MapOp r.K r.V) : NcMap r.K r.V :=
  (mapStep r.desc.toDesc m op).1

/-- The capacity is at most `max(16, c * (n + 1))` throughout. -/
def MapRun.Bounded (r : MapRun) (c : ℕ) : Prop :=
  Always r.step (fun m => m.cap ≤ max 16 (c * (r.live + 1))) r.start r.ops

/-- No capacity overflows an `int64_t`. -/
def MapRun.Fits (r : MapRun) : Prop :=
  Always r.step (fun m => m.cap < 2 ^ 63) r.start r.ops

/-- A `set` that is about to double the table finds at most `k * (n + 1)` deleted entries in it. -/
def FewDeleted {K V : Type} (k live : ℕ) (m : NcMap K V) : MapOp K V → Prop
  | .set _ _ => overloaded m = true → m.tombstones ≤ (k * (live + 1) : ℕ)
  | _ => True

def MapRun.Reclaims (r : MapRun) (k : ℕ) : Prop :=
  EachStep r.step (FewDeleted k r.live) r.start r.ops

end Runs

section Steps
variable {K V : Type} {d : LawfulDesc K V} {m : NcMap K V}

theorem putLoop_cap (d : Desc K V) (m : NcMap K V) (key : K) (value : V) (tomb : Option ℕ)
    (idx turns : ℕ) : (putLoop d m key value tomb idx turns).cap = m.cap := by
  induction turns generalizing tomb idx with
  | zero => rfl
  | succ turns ih =>
    rw [putLoop]
    cases slot m.entries idx with
    | empty => rfl
    | tombstone => exact ih _ _
    | live k v =>
      by_cases hk : d.eq key k = true
      · simp only [hk, if_true]
      · simp only [hk]
        exact ih _ _

theorem mapSet_cap (d : Desc K V) (m : NcMap K V) (key : K) (value : V) :
    (mapSet d m key value).cap = (prepared d m).cap := putLoop_cap _ _ _ _ _ _ _

/-- The capacity is doubled if and only if the table is overloaded. -/
theorem prepared_cap (h : WellFormed d.toDesc m) : (prepared d.toDesc m).cap =
    if m.cap = 0 then 16 else if overloaded m = true then 2 * m.cap else m.cap := by
  by_cases hc : m.cap = 0
  · rw [prepared, if_pos hc, if_pos hc]
    rfl
  · rw [prepared, if_neg hc, if_neg hc]
    by_cases hover : overloaded m = true
    · have hload := h.load
      have hlen := h.len
      have htomb := h.tombstones
      have hcap := h.cap
      simp only [hover, if_true]
      exact (mapRehash_copied h.toPlaced (by omega)).cap
    · simp only [hover]
      rfl

theorem mapDelete_cap (d : Desc K V) (m : NcMap K V) (key : K) : (mapDelete d m key).cap = m.cap := by
  have hloop : ∀ turns idx, (deleteLoop d m key idx turns).cap = m.cap := by
    intro turns
    induction turns with
    | zero => exact fun idx => rfl
    | succ turns ih =>
      intro idx
      rw [deleteLoop]
      cases slot m.entries idx with
      | empty => rfl
      | tombstone => exact ih _
      | live k v =>
        by_cases hk : d.eq key k = true
        · simp only [hk, if_true]
        · simp only [hk]
          exact ih _
  rw [mapDelete]
  split
  · rfl
  · exact hloop _ _

theorem mapClear_cap (m : NcMap K V) : (mapClear m).cap = m.cap := by
  rw [mapClear]
  split <;> rfl

theorem mapStep_wellFormed (h : WellFormed d.toDesc m) (op : MapOp K V) :
    WellFormed d.toDesc (mapStep d.toDesc m op).1 := by
  cases op with
  | set key value => exact (mapSet_stored h key value).wellFormed
  | delete key => exact (mapDelete_deleted h key).wellFormed
  | clear =>
    have hclear : (mapStep d.toDesc m .clear).1 = mapClear m := rfl
    rw [hclear, mapClear_eq h]
    exact blank_wellFormed d.toDesc h.cap
  | get key | has key | len => exact h

theorem fresh_wellFormed {m₀ : NcMap K V} (h : m₀ = zeroMap ∨ m₀ = mapInit) :
    WellFormed d.toDesc m₀ := (initial_refines d h).wellFormed

/-- One step from a table in bounds, with few entries alive and few deleted ones where it grows. -/
theorem mapStep_cap {k live : ℕ} (h : WellFormed d.toDesc m) {op : MapOp K V}
    (hop : FewDeleted k live m op) (hlive : stateCount 1 m.entries ≤ live)
    (hcap : m.cap ≤ max 16 (3 * (k + 1) * (live + 1))) :
    (mapStep d.toDesc m op).1.cap ≤ max 16 (3 * (k + 1) * (live + 1)) := by
  cases op with
  | set key value =>
    have hset : (mapStep d.toDesc m (.set key value)).1.cap = (prepared d.toDesc m).cap :=
      mapSet_cap d.toDesc m key value
    rw [hset, prepared_cap h]
    by_cases hc : m.cap = 0
    · rw [if_pos hc]
      exact le_max_left _ _
    rw [if_neg hc]
    by_cases hover : overloaded m = true
    · have hdeleted := hop hover
      have hlen := h.len
      simp only [overloaded, decide_eq_true_eq] at hover
      have hsplit : 3 * (k + 1) * (live + 1) = 3 * (k * (live + 1)) + 3 * (live + 1) := by
        rw [Nat.mul_assoc, Nat.add_mul k 1 (live + 1), Nat.one_mul, Nat.mul_add]
      rw [if_pos (by simpa [overloaded] using hover), hsplit]
      refine le_trans ?_ (le_max_right _ _)
      omega
    · rw [if_neg hover]
      exact hcap
  | delete key =>
    have hdelete : (mapStep d.toDesc m (.delete key)).1.cap = m.cap := mapDelete_cap d.toDesc m key
    rw [hdelete]
    exact hcap
  | clear =>
    have hclear : (mapStep d.toDesc m .clear).1.cap = m.cap := mapClear_cap m
    rw [hclear]
    exact hcap
  | get key | has key | len => exact hcap

/-- No more entries are deleted than there are. -/
theorem tombstones_le (h : WellFormed d.toDesc m) : m.tombstones ≤ m.cap := by
  have htotal := stateCount_total m.entries
  have hlength := h.length
  rw [h.tombstones]
  omega

end Steps

section Capacity

theorem MapRun.few_each (r : MapRun) :
    EachStep r.step (fun m _ => stateCount 1 m.entries ≤ r.live) r.start r.ops := r.few.eachStep

/-- The capacity stays in proportion to the number of keys in a run that never doubles a table for
    its deleted entries, and only in such runs. -/
theorem bounded_of_reclaims (r : MapRun) :
    (∀ k, r.Reclaims k → r.Bounded (3 * (k + 1))) ∧ ∀ c, r.Bounded c → r.Reclaims (c + 16) := by
  constructor
  · intro k h
    have hsteps := EachStep.and h r.few_each
    refine EachStep.always (I := fun m => WellFormed r.desc.toDesc m ∧
      m.cap ≤ max 16 (3 * (k + 1) * (r.live + 1))) (fun m hm => hm.2) ?_ ⟨fresh_wellFormed r.fresh, ?_⟩
      hsteps
    · rintro m op ⟨hwf, hcap⟩ ⟨hop, hlive⟩
      exact ⟨mapStep_wellFormed hwf op, mapStep_cap hwf hop hlive hcap⟩
    · refine le_trans ?_ (le_max_left _ _)
      rcases r.fresh with hstart | hstart
      · rw [hstart]
        exact Nat.zero_le 16
      · rw [hstart]
        exact le_refl 16
  · intro c h
    refine EachStep.imp (I := WellFormed r.desc.toDesc)
      (C := fun m _ => m.cap ≤ max 16 (c * (r.live + 1))) ?_ ?_ (fresh_wellFormed r.fresh) h.eachStep
    · intro m op hwf _
      exact mapStep_wellFormed hwf op
    · intro m op hwf hcap
      have hdeleted := tombstones_le hwf
      have hroom : max 16 (c * (r.live + 1)) ≤ (c + 16) * (r.live + 1) := by
        rw [Nat.add_mul]
        omega
      cases op with
      | set key value =>
        intro _
        omega
      | get key | has key | delete key | clear | len => trivial

end Capacity

section Churn
variable {m : NcMap UInt64 UInt64} {n cap : ℕ}

abbrev wordStep (m : NcMap UInt64 UInt64) (op : MapOp UInt64 UInt64) : NcMap UInt64 UInt64 :=
  (mapStep wordDesc.toDesc m op).1

/-- A table of `n` entries none of which is alive. -/
structure Idle (n : ℕ) (m : NcMap UInt64 UInt64) : Prop extends WellFormed wordDesc.toDesc m where
  size : m.cap = n
  none_live : m.len = 0

/-- At most one key is alive, in a table of at most `n` entries. -/
def Sparse (n : ℕ) (m : NcMap UInt64 UInt64) : Prop := stateCount 1 m.entries ≤ 1 ∧ m.cap ≤ n

theorem Idle.sparse (h : Idle n m) (hn : n ≤ cap) : Sparse cap m := by
  have hlen := h.len
  have hsize := h.size
  rw [h.none_live] at hlen
  exact ⟨by omega, by omega⟩

theorem Idle.unbound (h : Idle n m) (key : UInt64) : ¬ ∃ v, Binds wordDesc.toDesc m key v := by
  rintro ⟨v, j, k, hj, -⟩
  have hlt : j < m.entries.length := slot_lt (by simp [hj])
  rw [slot_eq_of_lt hlt] at hj
  have hpos : 0 < stateCount 1 m.entries :=
    List.countP_pos_iff.mpr ⟨_, List.getElem_mem hlt, by rw [hj]; rfl⟩
  have hlen := h.len
  rw [h.none_live] at hlen
  omega

/-- A key that is set and deleted again leaves a table idle. -/
theorem Idle.pair (h : Idle n m) (key : UInt64) {n' : ℕ}
    (hcap : (prepared wordDesc.toDesc m).cap = n') (hn : n ≤ cap) (hn' : n' ≤ cap) :
    Always wordStep (Sparse cap) m [.set key 0, .delete key] ∧
      Idle n' (mapDelete wordDesc.toDesc (mapSet wordDesc.toDesc m key 0) key) := by
  have hset := mapSet_stored h.toWellFormed key 0
  have hone : (mapSet wordDesc.toDesc m key 0).len = 1 := by
    rw [hset.len_new (h.unbound key), h.none_live]
    rfl
  have hsize : (mapSet wordDesc.toDesc m key 0).cap = n' := by rw [mapSet_cap, hcap]
  have hbound : ∃ v, Binds wordDesc.toDesc (mapSet wordDesc.toDesc m key 0) key v :=
    ⟨0, (hset.binds key 0).mpr (by rw [if_pos (wordDesc.eq_refl key)])⟩
  have hdelete := mapDelete_deleted hset.wellFormed key
  have hidle : Idle n' (mapDelete wordDesc.toDesc (mapSet wordDesc.toDesc m key 0) key) :=
    { hdelete.wellFormed with
      size := by rw [mapDelete_cap, hsize]
      none_live := by
        rw [hdelete.len_bound hbound, hone]
        rfl }
  have hlen := hset.wellFormed.len
  rw [hone] at hlen
  exact ⟨⟨h.sparse hn, ⟨by change stateCount 1 (mapSet wordDesc.toDesc m key 0).entries ≤ 1; omega,
    hsize.le.trans hn'⟩, hidle.sparse hn'⟩, hidle⟩

/-- Some key is hashed to a free entry, which it leaves deleted. -/
theorem Idle.fill (h : Idle n m) (hpos : 16 ≤ n) (hword : n ≤ 2 ^ 62) (hroom : overloaded m = false) :
    ∃ key, (mapDelete wordDesc.toDesc (mapSet wordDesc.toDesc m key 0) key).tombstones =
      m.tombstones + 1 := by
  have hsize := h.size
  obtain ⟨j, hj, hempty⟩ := h.vacancy (by omega)
  have hkey : mapHash wordDesc.toDesc (UInt64.ofNat j) m.cap = j := by
    have hsmall : j < 2 ^ 64 := by omega
    rw [mapHash]
    change (UInt64.ofNat j).toNat % m.cap = j
    rw [UInt64.toNat_ofNat_of_lt' hsmall, Nat.mod_eq_of_lt hj]
  have hready : prepared wordDesc.toDesc m = m := by
    have hc : m.cap ≠ 0 := by omega
    simp only [prepared, if_neg hc, hroom]
    rfl
  obtain ⟨turns, hturns⟩ : ∃ turns, m.cap = turns + 1 := ⟨m.cap - 1, by omega⟩
  have hput : mapSet wordDesc.toDesc m (UInt64.ofNat j) 0 =
      putNew m (UInt64.ofNat j) 0 none j := by
    unfold mapSet
    rw [hready]
    simp only [hkey]
    generalize hcount : m.cap = count at hturns
    rw [hturns, putLoop, hempty]
  refine ⟨UInt64.ofNat j, ?_⟩
  have hlt : j < m.entries.length := h.length ▸ hj
  have hslot : slot (putNew m (UInt64.ofNat j) 0 none j).entries j = .live (UInt64.ofNat j) 0 := by
    rw [putNew, Option.getD_none, slot_set _ hlt, if_pos rfl]
  have hplaced := (mapSet_stored h.toWellFormed (UInt64.ofNat j) 0).wellFormed.toPlaced
  rw [hput] at hplaced ⊢
  rw [mapDelete_bound hplaced hslot (wordDesc.eq_refl _)]
  rfl

/-- Keys that are set and deleted one after the other fill the table until it is doubled. -/
theorem Idle.doubles (h : Idle n m) (hpos : 16 ≤ n) (hword : n ≤ 2 ^ 62) :
    ∃ ops, Always wordStep (Sparse (2 * n)) m ops ∧ Idle (2 * n) (ops.foldl wordStep m) := by
  obtain ⟨room, hdeleted⟩ : ∃ room : ℕ, m.tombstones + room = n := by
    have hle := tombstones_le h.toWellFormed
    rw [h.size] at hle
    exact ⟨(n - m.tombstones).toNat, by omega⟩
  induction room generalizing m with
  | zero =>
    have hover : overloaded m = true := by
      rw [overloaded, h.none_live, h.size]
      exact decide_eq_true (by omega)
    have hcap : (prepared wordDesc.toDesc m).cap = 2 * n := by
      rw [prepared_cap h.toWellFormed, if_neg (by rw [h.size]; omega), if_pos hover, h.size]
    exact ⟨[.set 0 0, .delete 0], h.pair 0 hcap (by omega) (le_refl _)⟩
  | succ room ih =>
    cases hover : overloaded m with
    | true =>
      have hcap : (prepared wordDesc.toDesc m).cap = 2 * n := by
        rw [prepared_cap h.toWellFormed, if_neg (by rw [h.size]; omega), if_pos hover, h.size]
      exact ⟨[.set 0 0, .delete 0], h.pair 0 hcap (by omega) (le_refl _)⟩
    | false =>
      have hcap : (prepared wordDesc.toDesc m).cap = n := by
        rw [prepared_cap h.toWellFormed, if_neg (by rw [h.size]; omega), hover,
          if_neg Bool.false_ne_true, h.size]
      obtain ⟨key, hkey⟩ := h.fill hpos hword hover
      obtain ⟨hpair, hidle⟩ := h.pair key hcap (by omega : n ≤ 2 * n) (by omega)
      obtain ⟨ops, hops, hdone⟩ := ih hidle (by omega)
      exact ⟨.set key 0 :: .delete key :: ops, hpair.append hops, hdone⟩

theorem idle_mapInit : Idle 16 mapInit where
  toWellFormed := fresh_wellFormed (Or.inr rfl)
  size := rfl
  none_live := rfl

/-- From a fresh map the capacity comes to `2 ^ (4 + doublings)`. -/
theorem churn (doublings : ℕ) (hword : doublings ≤ 58) :
    ∃ ops, Always wordStep (Sparse (2 ^ (4 + doublings))) mapInit ops ∧
      Idle (2 ^ (4 + doublings)) (ops.foldl wordStep mapInit) := by
  induction doublings with
  | zero => exact ⟨[], idle_mapInit.sparse (le_refl 16), idle_mapInit⟩
  | succ doublings ih =>
    obtain ⟨ops, hops, hidle⟩ := ih (by omega)
    have hpow : 2 ^ (4 + (doublings + 1)) = 2 * 2 ^ (4 + doublings) := by
      rw [← Nat.add_assoc, Nat.pow_succ, Nat.mul_comm]
    have hlow : 2 ^ 4 ≤ 2 ^ (4 + doublings) := Nat.pow_le_pow_right (by decide) (by omega)
    have hhigh : 2 ^ (4 + doublings) ≤ 2 ^ 62 := Nat.pow_le_pow_right (by decide) (by omega)
    obtain ⟨more, hmore, hdone⟩ := hidle.doubles hlow hhigh
    rw [hpow]
    refine ⟨ops ++ more, ?_, ?_⟩
    · exact (hops.imp (fun s hs => ⟨hs.1, hs.2.trans (by omega)⟩)).append hmore
    · rw [List.foldl_append]
      exact hdone

/-- One key at a time, set and deleted again, exceeds the bound of every constant that is not so
    great that `2 ^ 62`, the greatest capacity in an `int64_t`, is within it. -/
theorem churn_unbounded :
    ¬ ∃ c : ℕ, c < 2 ^ 61 ∧ ∀ r : MapRun, r.live = 1 → r.Fits → r.Bounded c := by
  rintro ⟨c, hc, hall⟩
  obtain ⟨ops, hops, hidle⟩ := churn 58 (le_refl _)
  let r : MapRun :=
    { K := UInt64, V := UInt64, desc := wordDesc, start := mapInit, fresh := Or.inr rfl, ops := ops,
      live := 1, few := hops.imp (fun s hs => hs.1) }
  have hbounded : r.Bounded c :=
    hall r rfl (hops.imp (fun s hs => Nat.lt_of_le_of_lt hs.2 (by decide)))
  have hlast : (ops.foldl wordStep mapInit).cap ≤ max 16 (c * (1 + 1)) := hbounded.last
  rw [hidle.size] at hlast
  omega

end Churn

end NewClLang.MapCapacity
