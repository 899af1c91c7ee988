import NewClLang.MapOperations
import NewClLang.TransitionRuns
import Mathlib.Data.Finmap

set_option autoImplicit false

/-!
# The runtime map refines a finite partial function

Abstractly a map is a finite partial function on the classes of equal keys. Every sequence of
operations on one header answers as that function does.
-/
namespace NewClLang.MapRefinement
open LinearProbing MapTable MapWellFormed MapOperations TransitionRuns

variable {K V : Type}

def keySetoid (d : LawfulDesc K V) : Setoid K where
  r a b := d.eq a b = true
  iseqv := ⟨d.eq_refl, d.eq_symm, d.eq_trans⟩

abbrev KeyClass (d : LawfulDesc K V) := Quotient (keySetoid d)

def keyClass (d : LawfulDesc K V) (key : K) : KeyClass d := Quotient.mk (keySetoid d) key

theorem keyClass_eq_iff (d : LawfulDesc K V) (a b : K) :
    keyClass d a = keyClass d b ↔ d.eq a b = true := Quotient.eq (r := keySetoid d)

/-- What a map is for: a finite partial function from key classes to values. -/
abbrev PartialMap (d : LawfulDesc K V) := Finmap (fun _ : KeyClass d => V)

inductive MapOp (K V : Type) where
  | set (key : K) (value : V)
  | get (key : K)
  | has (key : K)
  | delete (key : K)
  | clear
  | len

inductive MapAnswer (V : Type) where
  | done
  | value (v : V)
  | found (b : Bool)
  | count (n : ℤ)
  deriving DecidableEq

def mapStep (d : Desc K V) (m : NcMap K V) : MapOp K V → NcMap K V × MapAnswer V
  | .set key value => (mapSet d m key value, .done)
  | .get key => (m, .value (mapGet d m key))
  | .has key => (m, .found (mapHas d m key))
  | .delete key => (mapDelete d m key, .done)
  | .clear => (mapClear m, .done)
  | .len => (m, .count m.len)

open Classical in
noncomputable def specStep (d : LawfulDesc K V) (f : PartialMap d) :
    MapOp K V → PartialMap d × MapAnswer V
  | .set key value => (f.insert (keyClass d key) value, .done)
  | .get key => (f, .value ((f.lookup (keyClass d key)).getD d.zero))
  | .has key => (f, .found (f.lookup (keyClass d key)).isSome)
  | .delete key => (f.erase (keyClass d key), .done)
  | .clear => (∅, .done)
  | .len => (f, .count f.keys.card)

open Classical in
structure Refines (d : LawfulDesc K V) (m : NcMap K V) (f : PartialMap d) : Prop where
  wellFormed : WellFormed d.toDesc m
  lookup : ∀ key v, Binds d.toDesc m key v ↔ f.lookup (keyClass d key) = some v
  len : m.len = f.keys.card

section Steps
variable {d : LawfulDesc K V} {m : NcMap K V} {f : PartialMap d}

open Classical in
theorem Refines.mapLookup_eq (h : Refines d m f) (key : K) :
    mapLookup d.toDesc m key = f.lookup (keyClass d key) := by
  apply Option.ext
  intro v
  rw [h.wellFormed.mapLookup_eq_some, h.lookup]

open Classical in
theorem Refines.bound_iff (h : Refines d m f) (key : K) :
    (∃ v, Binds d.toDesc m key v) ↔ keyClass d key ∈ f.keys := by
  rw [Finmap.mem_keys, Finmap.mem_iff]
  simp only [h.lookup]

theorem blank_refines (d : LawfulDesc K V) {cap : ℕ} (hc : cap = 0 ∨ 16 ≤ cap) :
    Refines d (blank cap) ∅ where
  wellFormed := blank_wellFormed d.toDesc hc
  lookup := by
    intro key v
    simp [blank_no_binds]
  len := by simp [blank]

open Classical in
theorem keys_insert_card (f : PartialMap d) (q : KeyClass d) (value : V) :
    (f.insert q value).keys.card = if q ∈ f.keys then f.keys.card else f.keys.card + 1 := by
  have hkeys : (f.insert q value).keys = insert q f.keys := by
    ext p
    simp [Finmap.mem_keys]
  rw [hkeys, Finset.card_insert_eq_ite]

open Classical in
theorem set_refines (h : Refines d m f) (key : K) (value : V) :
    Refines d (mapSet d.toDesc m key value) (f.insert (keyClass d key) value) := by
  have hstored := mapSet_stored h.wellFormed key value
  refine ⟨hstored.wellFormed, fun key' v => ?_, ?_⟩
  · rw [hstored.binds]
    split_ifs with heq
    · rw [(keyClass_eq_iff d key' key).mpr heq, Finmap.lookup_insert]
      simp only [Option.some.injEq]
      exact eq_comm
    · have hne : keyClass d key' ≠ keyClass d key := by
        intro hclass
        exact heq ((keyClass_eq_iff d key' key).mp hclass)
      rw [h.lookup, Finmap.lookup_insert_of_ne f hne]
  · rw [keys_insert_card]
    split_ifs with hmem
    · rw [hstored.len_bound ((h.bound_iff key).mpr hmem), h.len]
    · rw [hstored.len_new (fun hb => hmem ((h.bound_iff key).mp hb)), h.len]
      simp

open Classical in
theorem delete_refines (h : Refines d m f) (key : K) :
    Refines d (mapDelete d.toDesc m key) (f.erase (keyClass d key)) := by
  have hdeleted := mapDelete_deleted h.wellFormed key
  refine ⟨hdeleted.wellFormed, fun key' v => ?_, ?_⟩
  · rw [hdeleted.binds, h.lookup]
    by_cases hclass : keyClass d key' = keyClass d key
    · have heq := (keyClass_eq_iff d key' key).mp hclass
      rw [hclass, Finmap.lookup_erase, heq]
      simp
    · have hne : d.eq key' key = false := by
        rw [Bool.eq_false_iff]
        exact fun heq => hclass ((keyClass_eq_iff d key' key).mpr heq)
      rw [Finmap.lookup_erase_ne hclass, hne]
      simp
  · rw [Finmap.keys_erase]
    by_cases hmem : keyClass d key ∈ f.keys
    · have hpos : 0 < f.keys.card := Finset.card_pos.mpr ⟨_, hmem⟩
      rw [hdeleted.len_bound ((h.bound_iff key).mpr hmem), h.len, Finset.card_erase_of_mem hmem]
      omega
    · rw [hdeleted.len_absent (fun hb => hmem ((h.bound_iff key).mp hb)), h.len,
        Finset.erase_eq_of_notMem hmem]

theorem clear_refines (h : Refines d m f) : Refines d (mapClear m) ∅ := by
  rw [mapClear_eq h.wellFormed]
  exact blank_refines d h.wellFormed.cap

open Classical in
theorem mapStep_refines (h : Refines d m f) (op : MapOp K V) :
    Refines d (mapStep d.toDesc m op).1 (specStep d f op).1 ∧
      (mapStep d.toDesc m op).2 = (specStep d f op).2 := by
  cases op with
  | set key value => exact ⟨set_refines h key value, rfl⟩
  | get key => exact ⟨h, by simp only [mapStep, specStep, mapGet, h.mapLookup_eq]⟩
  | has key => exact ⟨h, by simp only [mapStep, specStep, mapHas, h.mapLookup_eq]⟩
  | delete key => exact ⟨delete_refines h key, rfl⟩
  | clear => exact ⟨clear_refines h, rfl⟩
  | len => exact ⟨h, by simp only [mapStep, specStep, h.len]⟩

end Steps

/-- The header a map variable starts with: its zero value, or a literal's first call. -/
theorem initial_refines (d : LawfulDesc K V) {m₀ : NcMap K V}
    (h : m₀ = zeroMap ∨ m₀ = mapInit) : Refines d m₀ ∅ := by
  rcases h with rfl | rfl
  · exact blank_refines d (Or.inl rfl)
  · exact blank_refines d (Or.inr (le_refl 16))

/-- Every run of map operations on one header answers as the finite partial function does, and
    leaves a table with exact counts, a free entry, distinct keys and unbroken probe paths. -/
theorem map_run_refines (d : LawfulDesc K V) {m₀ : NcMap K V} (h : m₀ = zeroMap ∨ m₀ = mapInit)
    (ops : List (MapOp K V)) :
    (answers (mapStep d.toDesc) m₀ ops).2 = (answers (specStep d) ∅ ops).2 ∧
    let m := (answers (mapStep d.toDesc) m₀ ops).1
    m.len = stateCount 1 m.entries ∧ m.tombstones = stateCount 2 m.entries ∧
    (0 < m.cap → ∃ j < m.cap, slot m.entries j = .empty) ∧
    (∀ i j k k' v v', slot m.entries i = .live k v → slot m.entries j = .live k' v' →
      d.eq k k' = true → i = j) ∧
    (∀ j k v, slot m.entries j = .live k v →
      Reached (fun i => slot m.entries i ≠ .empty) m.cap (mapHash d.toDesc k m.cap) j) := by
  obtain ⟨hfinal, hanswers⟩ :=
    answers_simulation (R := Refines d) (fun _ _ op hr => mapStep_refines hr op) ops (initial_refines d h)
  have hwf := hfinal.wellFormed
  refine ⟨hanswers, hwf.len, hwf.tombstones, hwf.vacancy, ?_, ?_⟩
  · intro i j k k' v v' hi hj heq
    exact hwf.distinct hi hj heq
  · intro j k v hj
    exact hwf.reached hj

/-- Integer keys, hashed by their value. -/
def wordDesc : LawfulDesc UInt64 UInt64 where
  hash k := k
  eq a b := a == b
  zero := 0
  eq_refl := by simp
  eq_symm := by simp
  eq_trans := by simp
  hash_eq := by simp

theorem map_run_refines_word :
    (answers (mapStep wordDesc.toDesc) zeroMap [.set 1 7, .get 1, .len]).2 =
      (answers (specStep wordDesc) ∅ [.set 1 7, .get 1, .len]).2 :=
  (map_run_refines wordDesc (Or.inl rfl) [.set 1 7, .get 1, .len]).1

end NewClLang.MapRefinement
