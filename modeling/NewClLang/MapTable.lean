import NewClLang.LinearProbing
import Mathlib.Data.List.Count

set_option autoImplicit false

/-!
# The runtime map

`nc_map` of `runtime/ncrt.c`: a header (capacity, length, tombstones) over a table of entries
probed linearly. `mapGet` is `__nc_map_get`, and so on; a loop is counted down over the iterations
left. Keys and values are copied as whole values; the byte layout of an entry is data of the
descriptor that none of these functions branches on.
-/
namespace NewClLang.MapTable
open LinearProbing

variable {K V : Type}

/-- `nc_map_desc`: the two functions of a key type, and the all-zero value of `memset`. -/
structure Desc (K V : Type) where
  hash : K → UInt64
  eq : K → K → Bool
  zero : V

/-- One entry. A table is allocated zeroed, so an entry starts `empty` (state 0). -/
inductive Entry (K V : Type) where
  | empty
  | live (key : K) (value : V)
  | tombstone
  deriving DecidableEq, Repr

/-- The `int` stored at `state_offset`. -/
def Entry.state : Entry K V → ℕ
  | .empty => 0
  | .live _ _ => 1
  | .tombstone => 2

@[simp] theorem state_empty : (Entry.empty : Entry K V).state = 0 := rfl
@[simp] theorem state_live (k : K) (v : V) : (Entry.live k v).state = 1 := rfl
@[simp] theorem state_tombstone : (Entry.tombstone : Entry K V).state = 2 := rfl

abbrev Table (K V : Type) := List (Entry K V)

def slot (t : Table K V) (j : ℕ) : Entry K V := t.getD j .empty

/-- `nc_map` with the table its `entries` points to. The counts are signed 64-bit in the
    source; a header copied before its table changed can take them below zero. -/
structure NcMap (K V : Type) where
  entries : Table K V
  cap : ℕ
  len : ℤ
  tombstones : ℤ
  deriving DecidableEq, Repr

/-- The zero value of a map: no table yet. -/
def zeroMap : NcMap K V := ⟨[], 0, 0, 0⟩

def mapHash (d : Desc K V) (key : K) (cap : ℕ) : ℕ := (d.hash key).toNat % cap

def mapInit : NcMap K V := ⟨List.replicate 16 .empty, 16, 0, 0⟩

/-- The load test of `__nc_map_put`. A quotient by a power of two never falls between the
    `double` written `0.70` and seven tenths, so the test is exact. -/
def overloaded (m : NcMap K V) : Bool := 7 * (m.cap : ℤ) < 10 * (m.len + m.tombstones)

/-- The unbounded inner loop of `__nc_map_rehash`, one round of the ring at most
    (`rehashPlace_found`: it always stops within the round). -/
def rehashPlace (d : Desc K V) (m : NcMap K V) (key : K) (value : V) : NcMap K V :=
  match probe (fun j => (slot m.entries j).state == 0) m.cap (mapHash d key m.cap) m.cap with
  | some j => { m with entries := m.entries.set j (.live key value), len := m.len + 1 }
  | none => m

def rehashEntry (d : Desc K V) (m : NcMap K V) : Entry K V → NcMap K V
  | .live key value => rehashPlace d m key value
  | _ => m

def mapRehash (d : Desc K V) (m : NcMap K V) : NcMap K V :=
  m.entries.foldl (rehashEntry d) ⟨List.replicate (2 * m.cap) .empty, 2 * m.cap, 0, 0⟩

/-- The `state == 0` branch of `__nc_map_put`. -/
def putNew (m : NcMap K V) (key : K) (value : V) (tomb : Option ℕ) (idx : ℕ) : NcMap K V :=
  { m with
    entries := m.entries.set (tomb.getD idx) (.live key value)
    len := m.len + 1
    tombstones := if tomb.isSome then m.tombstones - 1 else m.tombstones }

/-- The probe loop of `__nc_map_put`; the last argument counts the iterations left. -/
def putLoop (d : Desc K V) (m : NcMap K V) (key : K) (value : V) :
    Option ℕ → ℕ → ℕ → NcMap K V
  | _, _, 0 => m
  | tomb, idx, n + 1 =>
    match slot m.entries idx with
    | .empty => putNew m key value tomb idx
    | .tombstone => putLoop d m key value (tomb.or (some idx)) ((idx + 1) % m.cap) n
    | .live k _ =>
      if d.eq key k then { m with entries := m.entries.set idx (.live k value) }
      else putLoop d m key value tomb ((idx + 1) % m.cap) n

/-- The header `__nc_map_put` probes: initialised when it has no table, grown when loaded. -/
def prepared (d : Desc K V) (m : NcMap K V) : NcMap K V :=
  let m := if m.cap = 0 then mapInit else m
  if overloaded m then mapRehash d m else m

/-- `__nc_map_put`, which `__nc_map_set` calls. -/
def mapSet (d : Desc K V) (m : NcMap K V) (key : K) (value : V) : NcMap K V :=
  let m := prepared d m
  putLoop d m key value none (mapHash d key m.cap) m.cap

def lookupLoop (d : Desc K V) (m : NcMap K V) (key : K) : ℕ → ℕ → Option V
  | _, 0 => none
  | idx, n + 1 =>
    match slot m.entries idx with
    | .empty => none
    | .tombstone => lookupLoop d m key ((idx + 1) % m.cap) n
    | .live k v => if d.eq key k then some v else lookupLoop d m key ((idx + 1) % m.cap) n

def mapLookup (d : Desc K V) (m : NcMap K V) (key : K) : Option V :=
  if m.cap = 0 then none else lookupLoop d m key (mapHash d key m.cap) m.cap

def mapGet (d : Desc K V) (m : NcMap K V) (key : K) : V := (mapLookup d m key).getD d.zero

def mapHas (d : Desc K V) (m : NcMap K V) (key : K) : Bool := (mapLookup d m key).isSome

def deleteLoop (d : Desc K V) (m : NcMap K V) (key : K) : ℕ → ℕ → NcMap K V
  | _, 0 => m
  | idx, n + 1 =>
    match slot m.entries idx with
    | .empty => m
    | .tombstone => deleteLoop d m key ((idx + 1) % m.cap) n
    | .live k _ =>
      if d.eq key k then
        { m with
          entries := m.entries.set idx .tombstone
          len := m.len - 1
          tombstones := m.tombstones + 1 }
      else deleteLoop d m key ((idx + 1) % m.cap) n

def mapDelete (d : Desc K V) (m : NcMap K V) (key : K) : NcMap K V :=
  if m.cap = 0 then m else deleteLoop d m key (mapHash d key m.cap) m.cap

def mapClear (m : NcMap K V) : NcMap K V :=
  if m.cap = 0 then m
  else { m with entries := List.replicate m.cap .empty, len := 0, tombstones := 0 }

section Slots

theorem slot_eq_of_lt {t : Table K V} {j : ℕ} (hj : j < t.length) : slot t j = t[j] := by
  simp [slot, hj]

theorem slot_lt {t : Table K V} {j : ℕ} (hs : slot t j ≠ .empty) : j < t.length := by
  by_contra hge
  exact hs (by simp [slot, List.getElem?_eq_none (Nat.le_of_not_lt hge)])

theorem slot_set {t : Table K V} {p : ℕ} (e : Entry K V) (hp : p < t.length) (j : ℕ) :
    slot (t.set p e) j = if j = p then e else slot t j := by
  by_cases hjp : j = p
  · subst hjp
    simp [slot, hp]
  · have hpj : p ≠ j := fun h => hjp h.symm
    simp [slot, List.getD_eq_getElem?_getD, List.getElem?_set_ne hpj, hjp]

theorem slot_replicate (n j : ℕ) : slot (List.replicate n (Entry.empty : Entry K V)) j = .empty := by
  by_cases hj : j < n <;> simp [slot, hj]

def stateCount (s : ℕ) (t : Table K V) : ℕ := t.countP (fun e => e.state == s)

theorem stateCount_set {t : Table K V} {p s : ℕ} (e : Entry K V) (hp : p < t.length) :
    (stateCount s (t.set p e) : ℤ) = stateCount s t -
      (if (slot t p).state = s then 1 else 0) + (if e.state = s then 1 else 0) := by
  have hcount := List.countP_set (p := fun e : Entry K V => e.state == s) (a := e) hp
  rw [slot_eq_of_lt hp]
  have hpos : t[p].state = s → 0 < stateCount s t := by
    intro hs
    exact List.countP_pos_iff.mpr ⟨t[p], List.getElem_mem hp, by simpa using hs⟩
  simp only [beq_iff_eq] at hcount
  unfold stateCount at hpos ⊢
  rw [hcount]
  by_cases h1 : t[p].state = s
  · have h0 := hpos h1
    rw [if_pos h1, if_pos h1]
    split_ifs <;> omega
  · rw [if_neg h1, if_neg h1]
    split_ifs <;> omega

theorem stateCount_replicate (s n : ℕ) (hs : s ≠ 0) :
    stateCount s (List.replicate n (Entry.empty : Entry K V)) = 0 := by
  simp [stateCount, List.countP_replicate, hs.symm]

theorem stateCount_total (t : Table K V) :
    stateCount 0 t + stateCount 1 t + stateCount 2 t = t.length := by
  induction t with
  | nil => rfl
  | cons e t ih =>
    unfold stateCount at ih ⊢
    simp only [List.countP_cons, List.length_cons]
    cases e <;> simp <;> omega

theorem exists_empty {t : Table K V} (h : stateCount 1 t + stateCount 2 t < t.length) :
    ∃ j < t.length, slot t j = .empty := by
  have htotal := stateCount_total t
  have hpos : 0 < stateCount 0 t := by omega
  obtain ⟨e, hmem, hstate⟩ := List.countP_pos_iff.mp hpos
  obtain ⟨j, hj, rfl⟩ := List.mem_iff_getElem.mp hmem
  refine ⟨j, hj, ?_⟩
  rw [slot_eq_of_lt hj]
  cases h : t[j] with
  | empty => rfl
  | live k v | tombstone => simp [h] at hstate

end Slots

end NewClLang.MapTable
