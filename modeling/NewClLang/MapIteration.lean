import NewClLang.MapHeaders

set_option autoImplicit false

/-!
# Iterating over a map while its loop body changes it

`for key, value in m` copies the header of `m` into `__nc_map_iter` and walks the table of the copy
with a cursor, while the body works on `m`. The two headers share a table until a `set` of the body
gives `m` a new one.
-/
namespace NewClLang.MapIteration
open LinearProbing MapTable MapWellFormed MapOperations MapRefinement MapHeaders TransitionRuns

variable {K V : Type}

/-- The loop of `__nc_map_next`; the last argument counts the iterations left. -/
def nextFrom (t : Table K V) : ℕ → ℕ → Option (ℕ × K × V)
  | _, 0 => none
  | idx, n + 1 =>
    match slot t idx with
    | .live k v => some (idx, k, v)
    | _ => nextFrom t (idx + 1) n

/-- `__nc_map_next`, with `none` for its -1. -/
def mapNext (m : NcMap K V) (start : ℕ) : Option (ℕ × K × V) :=
  if m.cap = 0 then none else nextFrom m.entries start (m.cap - start)

/-- Whether the loop is about to call `__nc_map_next` for the first time, in its body, or left. -/
inductive Phase where
  | entered
  | body
  | finished
  deriving DecidableEq

/-- A pair that was yielded, and the map as it was then. -/
structure Yield (K V : Type) where
  key : K
  value : V
  map : NcMap K V

/-- `copy` is `__nc_map_iter` as it was stored; while `shared`, its table is the one of `m`. What was
    yielded, and whether the body wrote to `m`, is kept for the statements only. -/
structure Loop (K V : Type) where
  m : NcMap K V
  copy : NcMap K V
  shared : Bool
  cursor : ℕ
  phase : Phase
  yielded : List (Yield K V)
  modified : Bool

def Loop.iter (s : Loop K V) : NcMap K V :=
  if s.shared then { s.copy with entries := s.m.entries } else s.copy

def enter (m : NcMap K V) : Loop K V := ⟨m, m, true, 0, .entered, [], false⟩

inductive LoopOp (K V : Type) where
  | next
  | set (key : K) (value : V)
  | delete (key : K)
  | clear

/-- The body stored `m`, into a new table or in place. -/
def Loop.store (s : Loop K V) (m : NcMap K V) (replaced : Bool) : Loop K V :=
  if s.phase = .body then
    { s with
      m := m
      copy := s.iter
      shared := s.shared && !replaced
      modified := true }
  else s

/-- The end of the body and the test of the loop; and the writes of a body to `m`. -/
def loopStep (d : Desc K V) (s : Loop K V) : LoopOp K V → Loop K V
  | .next =>
    if s.phase = .finished then s
    else
      match mapNext s.iter s.cursor with
      | none => { s with phase := .finished }
      | some (found, key, value) =>
        { s with
          phase := .body
          cursor := found + 1
          yielded := ⟨key, value, s.m⟩ :: s.yielded }
  | .set key value => s.store (mapSet d s.m key value) (reallocates s.m)
  | .delete key => s.store (mapDelete d s.m key) false
  | .clear => s.store (mapClear s.m) false

/-- Every pair was in the map when it was yielded, no key was yielded twice, and a loop whose body
    leaves the map alone ends with all of its pairs yielded. -/
structure IteratesRight (d : Desc K V) (s : Loop K V) : Prop where
  present : ∀ y ∈ s.yielded, mapLookup d y.map y.key = some y.value
  once : s.yielded.Pairwise (fun y z => d.eq y.key z.key = false)
  complete : s.phase = .finished → s.modified = false →
    ∀ key value, mapLookup d s.m key = some value →
      ∃ y ∈ s.yielded, d.eq key y.key = true ∧ y.value = value

/-- The entry that `__nc_map_put` writes for a key that the map does not have. -/
def newSlot (d : Desc K V) (m : NcMap K V) (key : K) : Option ℕ :=
  probe (writable d m.entries key) m.cap (mapHash d key m.cap) m.cap

/-- A `set` of the body does not replace the table while the loop has entries left to visit, and a
    key that was yielded and deleted comes back into an entry that the cursor has passed. -/
def Undisturbed (d : Desc K V) (s : Loop K V) : LoopOp K V → Prop
  | .set key _ =>
    if reallocates s.m then mapNext s.iter s.cursor = none
    else mapHas d s.m key = false → (∃ y ∈ s.yielded, d.eq key y.key = true) →
      ∀ p ∈ newSlot d s.m key, p < s.cursor
  | _ => True

section Next

theorem nextFrom_some {t : Table K V} {start n found : ℕ} {key : K} {value : V}
    (h : nextFrom t start n = some (found, key, value)) :
    start ≤ found ∧ slot t found = .live key value ∧
      ∀ j, start ≤ j → j < found → (slot t j).state ≠ 1 := by
  induction n generalizing start with
  | zero => cases h
  | succ n ih =>
    rw [nextFrom] at h
    have hskip : (slot t start).state ≠ 1 → nextFrom t (start + 1) n = some (found, key, value) →
        start ≤ found ∧ slot t found = .live key value ∧
          ∀ j, start ≤ j → j < found → (slot t j).state ≠ 1 := by
      intro hstate hrest
      obtain ⟨hle, hfound, hbefore⟩ := ih hrest
      refine ⟨by omega, hfound, fun j hj hlt => ?_⟩
      by_cases heq : j = start
      · rw [heq]
        exact hstate
      · exact hbefore j (by omega) hlt
    cases hs : slot t start with
    | empty | tombstone =>
      rw [hs] at h
      exact hskip (by simp [hs]) h
    | live k v =>
      rw [hs] at h
      cases h
      exact ⟨le_refl _, hs, fun j hj hlt => absurd hlt (by omega)⟩

theorem nextFrom_none {t : Table K V} {start n : ℕ} (h : nextFrom t start n = none) (j : ℕ)
    (hstart : start ≤ j) (hj : j < start + n) : (slot t j).state ≠ 1 := by
  induction n generalizing start with
  | zero => omega
  | succ n ih =>
    rw [nextFrom] at h
    cases hs : slot t start with
    | live k v =>
      rw [hs] at h
      cases h
    | empty | tombstone =>
      rw [hs] at h
      by_cases heq : j = start
      · simp [heq, hs]
      · exact ih h (by omega) (by omega)

theorem mapNext_some {m : NcMap K V} {start found : ℕ} {key : K} {value : V}
    (h : mapNext m start = some (found, key, value)) :
    start ≤ found ∧ slot m.entries found = .live key value ∧
      ∀ j, start ≤ j → j < found → (slot m.entries j).state ≠ 1 := by
  rw [mapNext] at h
  split_ifs at h
  exact nextFrom_some h

theorem mapNext_none {m : NcMap K V} {start : ℕ} (h : mapNext m start = none) (j : ℕ)
    (hstart : start ≤ j) (hj : j < m.cap) : (slot m.entries j).state ≠ 1 := by
  rw [mapNext, if_neg (by omega)] at h
  exact nextFrom_none h j hstart (by omega)

end Next

section Writes
variable {d : LawfulDesc K V} {m : NcMap K V}

/-- A key that the map does not have is written to the first entry on its path that is not live. -/
theorem putLoop_newSlot (h : WellFormed d.toDesc m) (hc : 0 < m.cap) {key : K} (value : V)
    (habs : ∀ v, ¬ Binds d.toDesc m key v) :
    ∃ p ∈ newSlot d.toDesc m key,
      (putLoop d.toDesc m key value none (mapHash d.toDesc key m.cap) m.cap).entries =
        m.entries.set p (.live key value) := by
  obtain ⟨i, hi, hempty⟩ := h.vacancy hc
  have hfree : (probe (stops d.toDesc m.entries key) m.cap (mapHash d.toDesc key m.cap)
      m.cap).isSome := probe_isSome hi (stops_empty hempty)
  have hnew : (newSlot d.toDesc m key).isSome :=
    probe_isSome hi (by simp [writable, stops_empty hempty])
  obtain ⟨e, he⟩ := Option.isSome_iff_exists.mp hfree
  obtain ⟨p, hp⟩ := Option.isSome_iff_exists.mp hnew
  refine ⟨p, hp, ?_⟩
  have hempty' := probe_unbound habs he
  rw [newSlot] at hp
  rw [putLoop_eq, he, hp]
  simp only [hempty', Option.getD_some, putNew]
  by_cases htomb : (slot m.entries p).state = 2
  · rw [if_pos htomb, Option.getD_some]
  · -- No tombstone came before the free entry, so both searches stop at the same place.
    have hwritable : writable d.toDesc m.entries key p = true := by
      rw [← slotAt_mapHash] at hp
      obtain ⟨-, -, -, -, hstop, -⟩ := probe_some hp
      exact hstop
    have hstop : stops d.toDesc m.entries key p = true := by
      simpa [writable, htomb] using hwritable
    have hsame := probe_of_stricter (fun s hs => by rw [writable, hs, Bool.true_or]) hp hstop
    rw [if_neg htomb, Option.getD_none, Option.some.inj (he.symm.trans hsame)]

/-- A live entry after a `set` in place was live before, or is the one for a new key. -/
theorem mapSet_live (h : WellFormed d.toDesc m) {key k : K} {value v : V} {j : ℕ}
    (hr : reallocates m = false) (hj : slot (mapSet d.toDesc m key value).entries j = .live k v) :
    (∃ w, slot m.entries j = .live k w) ∨
      (mapHas d.toDesc m key = false ∧ k = key ∧ j ∈ newSlot d.toDesc m key) := by
  rw [mapSet, prepared_of_not_reallocates hr] at hj
  by_cases hbound : ∃ w, Binds d.toDesc m key w
  · obtain ⟨w, i, k', hi, heq⟩ := hbound
    rw [putLoop_bound h.toPlaced value hi heq] at hj
    obtain ⟨rfl, rfl, -⟩ | ⟨-, hold⟩ := overwrite_live hi hj
    · exact Or.inl ⟨w, hi⟩
    · exact Or.inl ⟨v, hold⟩
  · have hhas : mapHas d.toDesc m key = false := by
      rw [Bool.eq_false_iff]
      exact fun hhas => hbound ((mapHas_iff h key).mp hhas)
    have hcap : 0 < m.cap := by
      simp only [reallocates, Bool.or_eq_false_iff, decide_eq_false_iff_not] at hr
      omega
    obtain ⟨p, hp, hput⟩ := putLoop_newSlot h hcap value (fun w hw => hbound ⟨w, hw⟩)
    rw [hput] at hj
    by_cases heq : j = p
    · rw [heq] at hj ⊢
      by_cases hlt : p < m.entries.length
      · rw [slot_set _ hlt, if_pos rfl] at hj
        cases hj
        exact Or.inr ⟨hhas, rfl, hp⟩
      · rw [List.set_eq_of_length_le (by omega)] at hj
        exact Or.inl ⟨v, hj⟩
    · rw [slot, List.getD_eq_getElem?_getD, List.getElem?_set_ne (Ne.symm heq)] at hj
      exact Or.inl ⟨v, hj⟩

theorem mapDelete_live (h : WellFormed d.toDesc m) {key k : K} {v : V} {j : ℕ}
    (hj : slot (mapDelete d.toDesc m key).entries j = .live k v) : slot m.entries j = .live k v := by
  by_cases hbound : ∃ w, Binds d.toDesc m key w
  · obtain ⟨w, i, k', hi, heq⟩ := hbound
    rw [mapDelete_bound h.toPlaced hi heq] at hj
    exact (removeAt_live (slot_lt (by simp [hi])) hj).right
  · rwa [mapDelete_absent (fun w hw => hbound ⟨w, hw⟩)] at hj

theorem mapClear_live (h : WellFormed d.toDesc m) {k : K} {v : V} {j : ℕ} :
    slot (mapClear m).entries j ≠ .live k v := by
  rw [mapClear_eq h, blank, slot_replicate]
  simp

end Writes

/-- What holds between the steps of a loop whose body does not disturb it. -/
structure Walking (d : LawfulDesc K V) (s : Loop K V) : Prop where
  wellFormed : WellFormed d.toDesc s.m
  present : ∀ y ∈ s.yielded, mapLookup d.toDesc y.map y.key = some y.value
  once : s.yielded.Pairwise (fun y z => d.eq y.key z.key = false)
  cap : s.shared = true → s.copy.cap = s.m.cap
  ahead : s.shared = true → ∀ j k v, slot s.m.entries j = .live k v → s.cursor ≤ j →
    ∀ y ∈ s.yielded, d.eq k y.key = false
  left : s.shared = false → mapNext s.iter s.cursor = none
  behind : s.modified = false → s.shared = true ∧ ∀ j k v, slot s.m.entries j = .live k v →
    j < s.cursor → ∃ y ∈ s.yielded, y.key = k ∧ y.value = v
  finished : s.phase = .finished → s.modified = false → mapNext s.iter s.cursor = none

section Steps
variable {d : LawfulDesc K V} {s : Loop K V}

theorem iter_shared (hshared : s.shared = true) : s.iter = { s.copy with entries := s.m.entries } := by
  rw [Loop.iter, if_pos hshared]

theorem iter_left (hshared : s.shared = false) : s.iter = s.copy := by
  rw [Loop.iter, hshared, if_neg Bool.false_ne_true]

theorem iter_cap : s.iter.cap = s.copy.cap := by
  rw [Loop.iter]
  split_ifs <;> rfl

theorem Walking.right (h : Walking d s) : IteratesRight d.toDesc s where
  present := h.present
  once := h.once
  complete := by
    intro hover hmodified key value hlookup
    obtain ⟨hshared, hbehind⟩ := h.behind hmodified
    obtain ⟨j, k, hj, heq⟩ := (h.wellFormed.mapLookup_eq_some key value).mp hlookup
    have hlt : j < s.iter.cap := by
      rw [iter_shared hshared, h.cap hshared]
      exact h.wellFormed.lt_cap (occupied_of_live hj)
    by_cases hcursor : j < s.cursor
    · obtain ⟨y, hy, rfl, rfl⟩ := hbehind j k value hj hcursor
      exact ⟨y, hy, heq, rfl⟩
    · have hdead := mapNext_none (h.finished hover hmodified) j (by omega) hlt
      rw [iter_shared hshared, hj] at hdead
      exact absurd rfl hdead

theorem next_walking (h : Walking d s) : Walking d (loopStep d.toDesc s .next) := by
  rw [loopStep]
  split_ifs with hover
  · exact h
  cases hnext : mapNext s.iter s.cursor with
  | none => exact { h with finished := fun _ _ => hnext }
  | some found =>
    obtain ⟨found, key, value⟩ := found
    have hshared : s.shared = true := by
      by_contra hleft
      rw [h.left (Bool.eq_false_of_not_eq_true hleft)] at hnext
      cases hnext
    obtain ⟨hcursor, hfound, hbefore⟩ := mapNext_some hnext
    rw [iter_shared hshared] at hfound hbefore
    have hfresh := h.ahead hshared found key value hfound hcursor
    constructor
    case wellFormed => exact h.wellFormed
    case present =>
      intro y hy
      rcases List.mem_cons.mp hy with rfl | hold
      · exact (h.wellFormed.mapLookup_eq_some key value).mpr ⟨found, key, hfound, d.eq_refl key⟩
      · exact h.present y hold
    case once => exact List.pairwise_cons.mpr ⟨hfresh, h.once⟩
    case cap => exact h.cap
    case ahead =>
      intro _ j k v hj hle y hy
      rcases List.mem_cons.mp hy with rfl | hold
      · rw [Bool.eq_false_iff]
        intro heq
        have hsame := h.wellFormed.distinct hj hfound heq
        simp only at hle
        omega
      · exact h.ahead hshared j k v hj (by simp only at hle; omega) y hold
    case left => exact fun hleft => absurd (hshared.symm.trans hleft) (by decide)
    case behind =>
      intro hmodified
      refine ⟨hshared, fun j k v hj hlt => ?_⟩
      by_cases hold : j < s.cursor
      · obtain ⟨y, hy, hyk⟩ := (h.behind hmodified).right j k v hj hold
        exact ⟨y, List.mem_cons_of_mem _ hy, hyk⟩
      · have hjf : j = found := by
          by_contra hne
          have hdead := hbefore j (by omega) (by simp only at hlt; omega)
          simp only at hdead
          rw [hj] at hdead
          exact hdead rfl
        rw [hjf, hfound] at hj
        cases hj
        exact ⟨_, List.mem_cons_self, rfl, rfl⟩
    case finished => exact fun hphase => absurd hphase Phase.noConfusion

/-- A write in place keeps the walk when every live entry ahead of the cursor was live before, or
    has a key that was not yielded. -/
theorem store_walking (h : Walking d s) {m : NcMap K V} (hm : WellFormed d.toDesc m)
    (hcap : m.cap = s.m.cap)
    (hlive : ∀ j k v, slot m.entries j = .live k v → s.cursor ≤ j →
      (∃ w, slot s.m.entries j = .live k w) ∨ ∀ y ∈ s.yielded, d.eq k y.key = false) :
    Walking d (s.store m false) := by
  rw [Loop.store]
  split_ifs with hphase
  · rw [Bool.not_false, Bool.and_true]
    constructor
    case wellFormed => exact hm
    case present => exact h.present
    case once => exact h.once
    case cap =>
      intro hshared
      change s.iter.cap = m.cap
      rw [iter_cap, hcap]
      exact h.cap hshared
    case ahead =>
      intro hshared j k v hj hle
      rcases hlive j k v hj hle with ⟨w, hw⟩ | hnew
      · exact h.ahead hshared j k w hw hle
      · exact hnew
    case left =>
      intro hshared
      rw [iter_left hshared]
      exact h.left hshared
    case behind => exact fun hmodified => Bool.noConfusion hmodified
    case finished => exact fun _ hmodified => Bool.noConfusion hmodified
  · exact h

/-- A table that is replaced when nothing is left to visit ends the walk. -/
theorem store_replaced_walking (h : Walking d s) {m : NcMap K V} (hm : WellFormed d.toDesc m)
    (hnext : mapNext s.iter s.cursor = none) : Walking d (s.store m true) := by
  rw [Loop.store]
  split_ifs with hphase
  · rw [Bool.not_true, Bool.and_false]
    constructor
    case wellFormed => exact hm
    case present => exact h.present
    case once => exact h.once
    case cap => exact fun hshared => absurd hshared Bool.false_ne_true
    case ahead => exact fun hshared => absurd hshared Bool.false_ne_true
    case left =>
      intro hshared
      rw [iter_left hshared]
      exact hnext
    case behind => exact fun hmodified => Bool.noConfusion hmodified
    case finished => exact fun _ hmodified => Bool.noConfusion hmodified
  · exact h

theorem set_walking (h : Walking d s) {key : K} {value : V}
    (hop : Undisturbed d.toDesc s (.set key value)) :
    Walking d (loopStep d.toDesc s (.set key value)) := by
  have hm := (mapSet_stored h.wellFormed key value).wellFormed
  rw [Undisturbed] at hop
  rw [loopStep]
  cases hr : reallocates s.m with
  | true =>
    rw [hr, if_pos rfl] at hop
    exact store_replaced_walking h hm hop
  | false =>
    rw [hr, if_neg Bool.false_ne_true] at hop
    refine store_walking h hm (mapSet_cap key value hr) (fun j k v hj hle => ?_)
    rcases mapSet_live h.wellFormed hr hj with hold | ⟨hhas, rfl, hnew⟩
    · exact Or.inl hold
    · refine Or.inr (fun y hy => ?_)
      rw [Bool.eq_false_iff]
      intro heq
      have hpassed := hop hhas ⟨y, hy, heq⟩ j hnew
      omega

theorem loopStep_walking (h : Walking d s) (op : LoopOp K V) (hop : Undisturbed d.toDesc s op) :
    Walking d (loopStep d.toDesc s op) := by
  cases op with
  | next => exact next_walking h
  | set key value => exact set_walking h hop
  | delete key =>
    exact store_walking h (mapDelete_deleted h.wellFormed key).wellFormed (mapDelete_cap s.m key)
      (fun j k v hj _ => Or.inl ⟨v, mapDelete_live h.wellFormed hj⟩)
  | clear =>
    exact store_walking h (mapClear_wellFormed h.wellFormed) (mapClear_cap s.m)
      (fun j k v hj _ => absurd hj (mapClear_live h.wellFormed))

theorem enter_walking {m : NcMap K V} (hm : WellFormed d.toDesc m) : Walking d (enter m) where
  wellFormed := hm
  present := fun _ hy => absurd hy List.not_mem_nil
  once := List.Pairwise.nil
  cap := fun _ => rfl
  ahead := fun _ _ _ _ _ _ _ hy => absurd hy List.not_mem_nil
  left := fun hshared => Bool.noConfusion hshared
  behind := fun _ => ⟨rfl, fun _ _ _ _ hlt => absurd hlt (Nat.not_lt_zero _)⟩
  finished := fun hphase => Phase.noConfusion hphase

end Steps

/-- The map of a variable, however it was made. -/
theorem made_wellFormed (d : LawfulDesc K V) {m₀ : NcMap K V} (h : m₀ = zeroMap ∨ m₀ = mapInit)
    (made : List (MapOp K V)) : WellFormed d.toDesc (answers (mapStep d.toDesc) m₀ made).1 := by
  obtain ⟨hfinal, -⟩ :=
    answers_simulation (R := Refines d) (fun _ _ op hr => mapStep_refines hr op) made
      (initial_refines d h)
  exact hfinal.wellFormed

/-- A loop over a map iterates right throughout every run in which its body does not disturb it. -/
theorem undisturbed_iteration (d : LawfulDesc K V) {m₀ : NcMap K V}
    (h : m₀ = zeroMap ∨ m₀ = mapInit) (made : List (MapOp K V)) (ops : List (LoopOp K V))
    (hops : EachStep (loopStep d.toDesc) (Undisturbed d.toDesc)
      (enter (answers (mapStep d.toDesc) m₀ made).1) ops) :
    Always (loopStep d.toDesc) (IteratesRight d.toDesc)
      (enter (answers (mapStep d.toDesc) m₀ made).1) ops :=
  EachStep.always (I := Walking d) (fun _ hs => hs.right)
    (fun _ op hs hop => loopStep_walking hs op hop) (enter_walking (made_wellFormed d h made)) hops

/-- A map of one key, whose value the body overwrites. -/
theorem overwriting_iteration :
    Always (loopStep wordDesc.toDesc) (IteratesRight wordDesc.toDesc)
      (enter (answers (mapStep wordDesc.toDesc) zeroMap [.set 1 7]).1)
      [.next, .set 1 8, .next] := by
  apply undisturbed_iteration wordDesc (Or.inl rfl) [.set 1 7] [.next, .set 1 8, .next]
  refine ⟨trivial, ?_, trivial, trivial⟩
  rw [Undisturbed, if_neg (by decide +kernel)]
  intro hhas
  exact absurd hhas (by decide +kernel)

/-- The loop of `body` over the map that `made` builds. -/
def walked (made : List (MapOp UInt64 UInt64)) (body : List (LoopOp UInt64 UInt64)) :
    Loop UInt64 UInt64 :=
  body.foldl (loopStep wordDesc.toDesc)
    (enter (answers (mapStep wordDesc.toDesc) zeroMap made).1)

/-- The loop goes on in the table that the map has left, and yields a key that was deleted since. And
    without any growth, a key that is deleted and comes back behind another one is yielded twice. -/
theorem disturbed_iteration :
    ¬IteratesRight wordDesc.toDesc
        (walked ((List.range 12).map (fun i => .set (UInt64.ofNat i) 7))
          [.next, .set 100 7, .delete 1, .next]) ∧
      ¬IteratesRight wordDesc.toDesc
        (walked [.set 1 7] [.next, .delete 1, .set 17 7, .set 1 7, .next]) := by
  constructor
  · intro hright
    exact absurd hright.present (by decide +kernel)
  · intro hright
    exact absurd hright.once (by decide +kernel)

end NewClLang.MapIteration
