import Mathlib.Data.Int.Notation
import Mathlib.Tactic.Common
import NewClLang.TransitionRuns

set_option autoImplicit false

/-!
# Stack traces of error values

An error value is a header that is copied with the value, and an array of frames that all copies
share. `__nc_error_append_frame` grows the array through one of the headers.
-/
namespace NewClLang.ErrorFrames
open TransitionRuns

section Machine

/-- `nc_error_frame`. -/
structure Frame where
  function : String
  path : String
  line : ℤ
  col : ℤ
deriving DecidableEq

/-- The field `frames` of an `nc_error`; no pointer is `NULL`. -/
structure Frames where
  ptr : Option ℕ
  len : ℕ
  cap : ℕ
deriving DecidableEq

/-- A live error value: the `nc_error`, and the steps in which the value was propagated so far. -/
structure ErrorValue where
  message : String
  frames : Frames
  steps : List Frame
deriving DecidableEq

/-- A freed array is `none`, and so is an entry that was never written. -/
abbrev Heap := List (Option (List (Option Frame)))

structure State where
  heap : Heap
  values : List ErrorValue
  undefined : Bool
deriving DecidableEq

/-- `realloc`: the old array is deallocated and a new one made, wherever it lies. It fails for a
    pointer that was released. -/
def realloc (heap : Heap) (ptr : Option ℕ) (count : ℕ) : Option (Heap × ℕ) :=
  match ptr with
  | none => some (heap ++ [some (List.replicate count none)], heap.length)
  | some a =>
    match heap[a]? with
    | some (some array) =>
      let kept := array.take count
      some (heap.set a none ++ [some (kept ++ List.replicate (count - kept.length) none)],
        heap.length)
    | _ => none

/-- `frames[len] = frame`; there is no result where that is not an entry of an allocated array. -/
def writeFrame (heap : Heap) (ptr : Option ℕ) (len : ℕ) (frame : Frame) : Option Heap :=
  match ptr with
  | none => none
  | some a =>
    match heap[a]? with
    | some (some array) =>
      if len < array.length then some (heap.set a (some (array.set len (some frame)))) else none
    | _ => none

/-- `__nc_error_append_frame`. -/
def appendFrame (heap : Heap) (frames : Frames) (frame : Frame) : Option (Heap × Frames) :=
  if frames.len = frames.cap then
    let nextCap := if frames.cap ≠ 0 then frames.cap * 2 else 4
    match realloc heap frames.ptr nextCap with
    | none => none
    | some (heap, ptr) =>
      (writeFrame heap (some ptr) frames.len frame).map
        (fun heap => (heap, ⟨some ptr, frames.len + 1, nextCap⟩))
  else
    (writeFrame heap frames.ptr frames.len frame).map
      (fun heap => (heap, { frames with len := frames.len + 1 }))

/-- What compiled code does with error values. `err e` copies `e` and appends to the copy; `??`,
    `!!`, `try`, `err?` and `match?` append to the value that the callee has returned; a variable, an
    argument and a result get a copy. Values that nothing reads any more are dropped. -/
inductive Op where
  | create (message : String)
  | copy (value : ℕ)
  | append (value : ℕ) (frame : Frame)
  | drop (value : ℕ)
deriving DecidableEq

def step (s : State) : Op → State
  | .create message => { s with values := s.values ++ [⟨message, ⟨none, 0, 0⟩, []⟩] }
  | .copy i =>
    match s.values[i]? with
    | none => s
    | some v => { s with values := s.values ++ [v] }
  | .append i frame =>
    match s.values[i]? with
    | none => s
    | some v =>
      match appendFrame s.heap v.frames frame with
      | none => { s with undefined := true }
      | some (heap, frames) =>
        { s with heap := heap, values := s.values.set i ⟨v.message, frames, v.steps ++ [frame]⟩ }
  | .drop i => { s with values := s.values.eraseIdx i }

def start : State := ⟨[], [], false⟩

end Machine

section Statements

/-- The frames of the value are those of its steps, in an allocated array. -/
def Intact (heap : Heap) (v : ErrorValue) : Prop :=
  match v.frames.ptr with
  | none => v.frames.len = 0 ∧ v.steps = []
  | some a => ∃ array, heap[a]? = some (some array) ∧ v.frames.len ≤ array.length ∧
      array.take v.frames.len = v.steps.map some

/-- Nothing that was released has been used, and every live value has its stack trace. -/
def TracesKept (s : State) : Prop := s.undefined = false ∧ ∀ v ∈ s.values, Intact s.heap v

/-- A frame is appended through a header that no other live value needs as it is: where the array is
    full, no other one has it; where it is not, each other one ends at the entry that is written, or
    has the same frame there. -/
def Exclusive (s : State) : Op → Prop
  | .append i frame => ∀ v w j, s.values[i]? = some v → s.values[j]? = some w → j ≠ i →
      v.frames.ptr ≠ none → w.frames.ptr = v.frames.ptr →
        v.frames.len ≠ v.frames.cap ∧
          (w.frames.len ≤ v.frames.len ∨ w.steps[v.frames.len]? = some frame)
  | _ => True

end Statements

section Invariant

/-- The array of a value has the size that its header says. -/
structure Whole (heap : Heap) (v : ErrorValue) : Prop where
  intact : Intact heap v
  le_cap : v.frames.len ≤ v.frames.cap
  null : v.frames.ptr = none → v.frames.cap = 0
  size : ∀ a array, v.frames.ptr = some a → heap[a]? = some (some array) →
    array.length = v.frames.cap

def Inv (s : State) : Prop := s.undefined = false ∧ ∀ v ∈ s.values, Whole s.heap v

variable {heap heap' : Heap} {v w : ErrorValue} {frame : Frame}

theorem Whole.steps_length (h : Whole heap v) : v.steps.length = v.frames.len := by
  have hi := h.intact
  unfold Intact at hi
  split at hi
  · simp [hi.1, hi.2]
  · obtain ⟨array, -, hle, htake⟩ := hi
    have hlength := congrArg List.length htake
    rw [List.length_take, List.length_map, Nat.min_eq_left hle] at hlength
    exact hlength.symm

/-- The array behind a value that has one. -/
theorem Whole.array (h : Whole heap v) {a : ℕ} (ha : v.frames.ptr = some a) :
    ∃ array, heap[a]? = some (some array) ∧ array.length = v.frames.cap ∧
      array.take v.frames.len = v.steps.map some := by
  have hi := h.intact
  rw [Intact, ha] at hi
  obtain ⟨array, harray, -, htake⟩ := hi
  exact ⟨array, harray, h.size a array ha harray, htake⟩

theorem whole_of_array {a : ℕ} (array : List (Option Frame)) (ha : v.frames.ptr = some a)
    (harray : heap[a]? = some (some array)) (hsize : array.length = v.frames.cap)
    (hle : v.frames.len ≤ v.frames.cap) (htake : array.take v.frames.len = v.steps.map some) :
    Whole heap v := by
  refine ⟨?_, hle, ?_, ?_⟩
  · rw [Intact, ha]
    exact ⟨array, harray, hsize ▸ hle, htake⟩
  · intro hnull
    rw [ha] at hnull
    cases hnull
  · intro b other hb hother
    rw [ha] at hb
    cases hb
    rw [harray] at hother
    cases hother
    exact hsize

/-- A value whose array is as before. -/
theorem Whole.same (h : Whole heap v)
    (hsame : ∀ a, v.frames.ptr = some a → heap'[a]? = heap[a]?) : Whole heap' v := by
  cases hptr : v.frames.ptr with
  | none =>
    have hi := h.intact
    rw [Intact, hptr] at hi
    refine ⟨?_, h.le_cap, h.null, fun a array ha => ?_⟩
    · rw [Intact, hptr]
      exact hi
    · rw [hptr] at ha
      cases ha
  | some a =>
    obtain ⟨array, harray, hsize, htake⟩ := h.array hptr
    rw [← hsame a hptr] at harray
    exact whole_of_array _ hptr harray hsize h.le_cap htake

/-- The entry at the end of the value's frames is written. -/
theorem take_set_succ {array : List (Option Frame)} {n : ℕ} {steps : List Frame}
    (hn : n < array.length) (htake : array.take n = steps.map some) :
    (array.set n (some frame)).take (n + 1) = (steps ++ [frame]).map some := by
  rw [List.take_add_one, List.take_set, htake, List.getElem?_set_self hn]
  have hlength : (steps.map some).length = n := by
    rw [← htake, List.length_take, Nat.min_eq_left (Nat.le_of_lt hn)]
  rw [List.set_eq_of_length_le (Nat.le_of_eq hlength)]
  simp

/-- An entry behind the frames of a value is written, or one that holds the frame already. -/
theorem take_set_other {array : List (Option Frame)} {n m : ℕ} {steps : List Frame}
    (htake : array.take m = steps.map some) (h : m ≤ n ∨ steps[n]? = some frame) :
    (array.set n (some frame)).take m = steps.map some := by
  rw [List.take_set, htake]
  rcases h with hle | hsame
  · have hlength : (steps.map some).length ≤ n := by
      rw [← htake, List.length_take]
      omega
    exact List.set_eq_of_length_le hlength
  · obtain ⟨hn, heq⟩ := List.getElem?_eq_some_iff.mp hsame
    rw [← heq, ← List.map_set, List.set_getElem_self]

end Invariant

section Appending
variable {heap : Heap} {v w : ErrorValue} {frame : Frame}

/-- A full array, or none: the value gets a new one. -/
theorem appendFrame_full (frame : Frame) (h : Whole heap v) (hfull : v.frames.len = v.frames.cap) :
    ∃ heap' frames, appendFrame heap v.frames frame = some (heap', frames) ∧
      Whole heap' ⟨v.message, frames, v.steps ++ [frame]⟩ ∧
      (∀ a, v.frames.ptr = some a → heap'[a]? = some none) ∧
      ∀ a, a < heap.length → v.frames.ptr ≠ some a → heap'[a]? = heap[a]? := by
  have hlength := h.steps_length
  cases hptr : v.frames.ptr with
  | none =>
    have hcap := h.null hptr
    have hzero : v.frames.len = 0 := hfull.trans hcap
    have hsteps : v.steps = [] := List.length_eq_zero_iff.mp (hlength.trans hzero)
    refine ⟨heap ++ [some [some frame, none, none, none]], ⟨some heap.length, 1, 4⟩, ?_, ?_, ?_, ?_⟩
    · rw [appendFrame, if_pos hfull, hcap, hptr, hzero]
      simp [realloc, writeFrame, List.replicate]
    · exact whole_of_array [some frame, none, none, none] rfl (by simp) rfl
        (Nat.le_of_ble_eq_true rfl) (by simp [hsteps])
    · intro a ha
      cases ha
    · intro a ha _
      exact List.getElem?_append_left ha
  | some a =>
    obtain ⟨array, harray, hsize, htake⟩ := h.array hptr
    have ha : a < heap.length := (List.getElem?_eq_some_iff.mp harray).1
    obtain ⟨count, hcount, hlt⟩ : ∃ count, (if v.frames.cap ≠ 0 then v.frames.cap * 2 else 4) =
        count ∧ v.frames.cap < count := by
      refine ⟨_, rfl, ?_⟩
      split <;> omega
    have hkept : array.take count = array := List.take_of_length_le (by omega)
    have hgrown : (array ++ List.replicate (count - array.length) none).length = count := by
      rw [List.length_append, List.length_replicate]
      omega
    have hgrown_take : (array ++ List.replicate (count - array.length) none).take v.frames.len =
        v.steps.map some := by
      rw [List.take_append_of_le_length (by omega), htake]
    have hroom : v.frames.len < (array ++ List.replicate (count - array.length) none).length := by
      omega
    have hrealloc : realloc heap (some a) count =
        some (heap.set a none ++ [some (array ++ List.replicate (count - array.length) none)],
          heap.length) := by
      simp [realloc, harray, hkept]
    refine ⟨heap.set a none ++ [some ((array ++ List.replicate (count - array.length) none).set
      v.frames.len (some frame))], ⟨some heap.length, v.frames.len + 1, count⟩, ?_, ?_, ?_, ?_⟩
    · rw [appendFrame, if_pos hfull, hptr]
      simp only [hcount, hrealloc]
      simp [writeFrame]
      omega
    · exact whole_of_array
        ((array ++ List.replicate (count - array.length) none).set v.frames.len (some frame)) rfl (by simp) (by rw [List.length_set, hgrown])
        (by simp only; omega) (take_set_succ hroom hgrown_take)
    · rintro b hb
      cases hb
      simp [List.getElem?_append_left, ha]
    · intro b hb hne
      have hba : a ≠ b := fun heq => hne (congrArg some heq)
      rw [List.getElem?_append_left (by rwa [List.length_set]), List.getElem?_set_ne hba]

/-- An array with room: the entry behind the value's frames is written. -/
theorem appendFrame_room (frame : Frame) (h : Whole heap v) (hroom : v.frames.len ≠ v.frames.cap) :
    ∃ a array, v.frames.ptr = some a ∧ heap[a]? = some (some array) ∧
      v.frames.len < array.length ∧
      appendFrame heap v.frames frame =
        some (heap.set a (some (array.set v.frames.len (some frame))),
          { v.frames with len := v.frames.len + 1 }) ∧
      Whole (heap.set a (some (array.set v.frames.len (some frame))))
        ⟨v.message, { v.frames with len := v.frames.len + 1 }, v.steps ++ [frame]⟩ := by
  have hle := h.le_cap
  cases hptr : v.frames.ptr with
  | none =>
    have hcap := h.null hptr
    omega
  | some a =>
    obtain ⟨array, harray, hsize, htake⟩ := h.array hptr
    have ha : a < heap.length := (List.getElem?_eq_some_iff.mp harray).1
    have hlt : v.frames.len < array.length := by omega
    refine ⟨a, array, rfl, harray, hlt, ?_, ?_⟩
    · rw [appendFrame, if_neg hroom, hptr]
      simp [writeFrame, harray, hlt, hptr]
    · refine whole_of_array (array.set v.frames.len (some frame)) hptr ?_ ?_ ?_
        (take_set_succ hlt htake)
      · simp [ha]
      · simpa using hsize
      · simp only
        omega

end Appending

section Steps
variable {s : State}

theorem mem_set_cases {α : Type} {l : List α} {i : ℕ} {x y : α} (h : y ∈ l.set i x) :
    y = x ∨ ∃ j, j ≠ i ∧ l[j]? = some y := by
  obtain ⟨j, hj⟩ := List.mem_iff_getElem?.mp h
  by_cases hji : j = i
  · subst hji
    rw [List.getElem?_set] at hj
    simp only [if_true] at hj
    split at hj
    · exact Or.inl (Option.some.inj hj).symm
    · cases hj
  · rw [List.getElem?_set_ne (Ne.symm hji)] at hj
    exact Or.inr ⟨j, hji, hj⟩

theorem Whole.lt_length {heap : Heap} {v : ErrorValue} (h : Whole heap v) {a : ℕ}
    (ha : v.frames.ptr = some a) : a < heap.length := by
  obtain ⟨array, harray, -⟩ := h.array ha
  exact (List.getElem?_eq_some_iff.mp harray).1

/-- Appending through the only header of an array, or behind the frames of the others. -/
theorem append_keeps {i : ℕ} {frame : Frame} (hs : Inv s) (hc : Exclusive s (.append i frame)) :
    Inv (step s (.append i frame)) := by
  rw [step]
  cases hv : s.values[i]? with
  | none => exact hs
  | some v =>
    have hwhole := hs.2 v (List.mem_of_getElem? hv)
    by_cases hfull : v.frames.len = v.frames.cap
    · obtain ⟨heap', frames, happend, hnew, -, hothers⟩ :=
        appendFrame_full frame hwhole hfull
      simp only [happend]
      refine ⟨hs.1, ?_⟩
      intro w hw
      rcases mem_set_cases hw with rfl | ⟨j, hji, hj⟩
      · exact hnew
      · have hw' := hs.2 w (List.mem_of_getElem? hj)
        refine hw'.same (fun a ha => hothers a (hw'.lt_length ha) ?_)
        intro hshared
        exact (hc v w j hv hj hji (by rw [hshared]; exact Option.some_ne_none a)
          (ha.trans hshared.symm)).1 hfull
    · obtain ⟨a, array, hptr, harray, hlt, happend, hnew⟩ :=
        appendFrame_room frame hwhole hfull
      simp only [happend]
      refine ⟨hs.1, ?_⟩
      intro w hw
      rcases mem_set_cases hw with rfl | ⟨j, hji, hj⟩
      · exact hnew
      · have hw' := hs.2 w (List.mem_of_getElem? hj)
        by_cases hshared : w.frames.ptr = some a
        · obtain ⟨array', harray', hsize, htake⟩ := hw'.array hshared
          rw [harray] at harray'
          cases harray'
          have hdisjoint := (hc v w j hv hj hji (by rw [hptr]; exact Option.some_ne_none a)
            (hshared.trans hptr.symm)).2
          refine whole_of_array (array.set v.frames.len (some frame)) hshared ?_ ?_
            hw'.le_cap (take_set_other htake hdisjoint)
          · simp [hw'.lt_length hshared]
          · simpa using hsize
        · refine hw'.same (fun b hb => List.getElem?_set_ne ?_)
          rintro rfl
          exact hshared hb

/-- Otherwise a live value loses its stack trace. -/
theorem append_breaks {i : ℕ} {frame : Frame} (hs : Inv s) (hc : ¬ Exclusive s (.append i frame)) :
    ¬ TracesKept (step s (.append i frame)) := by
  simp only [Exclusive, not_forall] at hc
  obtain ⟨v, w, j, hv, hw, hji, hnull, hshared, hclash⟩ := hc
  have hwhole := hs.2 v (List.mem_of_getElem? hv)
  have hother := hs.2 w (List.mem_of_getElem? hw)
  obtain ⟨a, ha⟩ := Option.ne_none_iff_exists'.mp hnull
  have hptr : w.frames.ptr = some a := hshared.trans ha
  have hstays {frames : Frames} {steps : List Frame} :
      w ∈ s.values.set i ⟨v.message, frames, steps⟩ := by
    refine List.mem_of_getElem? (i := j) ?_
    rw [List.getElem?_set_ne (Ne.symm hji)]
    exact hw
  rintro ⟨-, hkept⟩
  rw [step] at hkept
  simp only [hv] at hkept
  by_cases hfull : v.frames.len = v.frames.cap
  · obtain ⟨heap', frames, happend, -, hfreed, -⟩ :=
      appendFrame_full frame hwhole hfull
    simp only [happend] at hkept
    have hintact := hkept w hstays
    rw [Intact, hptr] at hintact
    obtain ⟨array, harray, -⟩ := hintact
    rw [hfreed a ha] at harray
    cases harray
  · obtain ⟨b, array, hb, harray, hlt, happend, -⟩ :=
      appendFrame_room frame hwhole hfull
    rw [ha] at hb
    cases hb
    simp only [happend] at hkept
    have hintact := hkept w hstays
    rw [Intact, hptr] at hintact
    obtain ⟨array', harray', hle, htake⟩ := hintact
    have hlength : a < s.heap.length := hother.lt_length hptr
    rw [List.getElem?_set_self hlength] at harray'
    cases harray'
    apply hclash
    refine ⟨hfull, ?_⟩
    by_cases hlong : w.frames.len ≤ v.frames.len
    · exact Or.inl hlong
    · right
      have hentry := congrArg (fun l => l[v.frames.len]?) htake
      simp only [List.getElem?_map] at hentry
      rw [List.getElem?_take_of_lt (by omega), List.getElem?_set_self hlt] at hentry
      cases hstep : w.steps[v.frames.len]? with
      | none =>
        rw [hstep] at hentry
        cases hentry
      | some f =>
        rw [hstep] at hentry
        exact congrArg some (Option.some.inj (Option.some.inj hentry)).symm

theorem step_keeps (op : Op) (hs : Inv s) (hc : Exclusive s op) : Inv (step s op) := by
  cases op with
  | create message =>
    refine ⟨hs.1, ?_⟩
    intro v hv
    rcases List.mem_append.mp hv with hold | hnew
    · exact hs.2 v hold
    · rw [List.mem_singleton.mp hnew]
      exact ⟨⟨rfl, rfl⟩, Nat.le_refl 0, fun _ => rfl, fun a _ ha => nomatch ha⟩
  | copy i =>
    rw [step]
    cases hv : s.values[i]? with
    | none => exact hs
    | some v =>
      refine ⟨hs.1, ?_⟩
      intro w hw
      rcases List.mem_append.mp hw with hold | hnew
      · exact hs.2 w hold
      · rw [List.mem_singleton.mp hnew]
        exact hs.2 v (List.mem_of_getElem? hv)
  | append i frame => exact append_keeps hs hc
  | drop i => exact ⟨hs.1, fun v hv => hs.2 v (List.mem_of_mem_eraseIdx hv)⟩

theorem step_breaks (op : Op) (hs : Inv s) (hc : ¬ Exclusive s op) : ¬ TracesKept (step s op) := by
  cases op with
  | create message => exact absurd trivial hc
  | copy i => exact absurd trivial hc
  | append i frame => exact append_breaks hs hc
  | drop i => exact absurd trivial hc

end Steps

section Runs

theorem start_inv : Inv start := ⟨rfl, fun _ hv => absurd hv List.not_mem_nil⟩

/-- Throughout a run the live error values have their stack traces exactly when no frame is appended
    through a header whose array another live value needs. -/
theorem traces_kept_iff_exclusive (ops : List Op) :
    Always step TracesKept start ops ↔ EachStep step Exclusive start ops :=
  always_iff_eachStep (fun _ hs => ⟨hs.1, fun v hv => (hs.2 v hv).intact⟩)
    (fun _ op hs => step_keeps op hs) (fun _ op hs => step_breaks op hs) ops start_inv

def frameOf (function : String) : Frame := ⟨function, "main.nc", 1, 1⟩

/-- `err?` binds an error that has come through four frames; `let kept = e`, and `err e`. -/
def reraised : List Op :=
  [.create "no", .append 0 (frameOf "a"), .append 0 (frameOf "b"), .append 0 (frameOf "c"),
    .append 0 (frameOf "d"), .copy 0, .append 1 (frameOf "e")]

theorem reraised_dangles : ¬ ∀ ops, Always step TracesKept start ops := by
  intro hall
  have hlast : TracesKept (reraised.foldl step start) := (hall reraised).2.2.2.2.2.2.2
  have hvalue : (⟨"no", ⟨some 0, 4, 4⟩, ["a", "b", "c", "d"].map frameOf⟩ : ErrorValue) ∈
      (reraised.foldl step start).values := by decide
  have hfreed : (reraised.foldl step start).heap[0]? = some none := by decide
  obtain ⟨array, harray, -⟩ := hlast.2 _ hvalue
  rw [hfreed] at harray
  cases harray

end Runs

end NewClLang.ErrorFrames
