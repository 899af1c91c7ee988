import NewClLang.IntrusiveQueue
import NewClLang.TimerPlaces

set_option autoImplicit false

/-!
# The queues of the scheduler in memory

The run queue and the wait queues of the mutexes of `runtime/ncrt.c` on their pointers: the link to
the next thread is the field `run_next` or `wait_next` of a thread, and a thread is freed when it
has come to its exit. On the lists that the links make up every step is that of the scheduler, and none
follows a pointer to a thread that is freed.
-/
namespace NewClLang.QueueLinks
open SchedulerModel ContextSwitching TimerPlaces IntrusiveQueue

section Model

/-- The scheduler with `run_head`, `run_tail` and the fields `head` and `tail` of the mutexes, and
    with the fields `run_next` and `wait_next` of the threads. -/
structure Linked (n k : ℕ) where
  workers : Fin n → Worker
  locked : Fin k → Bool
  waiting : Fin k → Queue ℕ
  run : Queue ℕ
  runNext : ℕ → Option ℕ
  waitNext : ℕ → Option ℕ
  timers : List Timer
  threads : ℕ → Option GreenThread
  liveCount : ℤ

def initLinked (n k : ℕ) : Linked n k :=
  ⟨fun _ => .idle, fun _ => false, fun _ => .empty, .empty, fun _ => none, fun _ => none, [],
    fun _ => none, 0⟩

variable {n k : ℕ}

def Linked.alive (l : Linked n k) (g : ℕ) : Bool := (l.threads g).isSome

def Linked.setWorker (l : Linked n k) (w : Fin n) (x : Worker) : Linked n k :=
  { l with workers := Function.update l.workers w x }

def Linked.setLocked (l : Linked n k) (m : Fin k) (locked : Bool) : Linked n k :=
  { l with locked := Function.update l.locked m locked }

def Linked.modifyThread (l : Linked n k) (g : ℕ) (f : GreenThread → GreenThread) : Linked n k :=
  { l with threads := Function.update l.threads g ((l.threads g).map f) }

def Linked.setState (l : Linked n k) (g : ℕ) (state : GState) : Linked n k :=
  l.modifyThread g (fun t => { t with state := state })

def Linked.leave (l : Linked n k) (w : Fin n) (g pos : ℕ) (state : GState) : Linked n k :=
  (l.modifyThread g (fun t => { t with state := state, suspended := pos + 1 })).setWorker w
    (.leaving g (pos + 1))

/-- `runq_push_existing` -/
def runqPushExisting (l : Linked n k) (g : ℕ) : Option (Linked n k) :=
  (push l.alive l.runNext l.run g).map fun (next, q) => { l with runNext := next, run := q }

/-- `runq_pop_locked` -/
def runqPopLocked (l : Linked n k) : Option (Option ℕ × Linked n k) :=
  (pop l.alive l.runNext l.run).map fun (g, next, q) => (g, { l with runNext := next, run := q })

/-- The part of `nc_mutex_park_and_unlock` before the switch. -/
def mutexPark (l : Linked n k) (m : Fin k) (g : ℕ) : Option (Linked n k) :=
  (append l.alive l.waitNext (l.waiting m) g).map fun (next, q) =>
    { l with waitNext := next, waiting := Function.update l.waiting m q }

def mutexLock (l : Linked n k) (w : Fin n) (m : Fin k) (g pos : ℕ) : Option (Linked n k) :=
  if l.locked m then (mutexPark l m g).map fun l => l.leave w g pos .waitMutex
  else some (l.setLocked m true)

def mutexUnlock (l : Linked n k) (m : Fin k) : Option (Linked n k) := do
  let (g, next, q) ← pop l.alive l.waitNext (l.waiting m)
  match g with
  | some g =>
      runqPushExisting
        (Linked.setState { l with waitNext := next, waiting := Function.update l.waiting m q } g
          .runnable) g
  | none => some (l.setLocked m false)

/-- `__nc_spawn` with `__nc_scheduler_submit` -/
def spawn (l : Linked n k) (g : ℕ) : Option (Linked n k) :=
  match l.threads g with
  | some _ => some l
  | none =>
      (runqPushExisting
        { l with threads := Function.update l.threads g (some ⟨.runnable, 0, 0⟩) } g).map
        fun l => { l with liveCount := l.liveCount + 1 }

def wakeExpiredTimers (now : ℕ) : List Timer → Linked n k → Option (Linked n k)
  | [], l => some { l with timers := [] }
  | t :: rest, l =>
      if t.deadline ≤ now then do
        let l ← runqPushExisting (l.setState t.g .runnable) t.g
        wakeExpiredTimers now rest l
      else some { l with timers := t :: rest }

def take (l : Linked n k) (w : Fin n) (now : ℕ) : Option (Linked n k) := do
  let l ← wakeExpiredTimers now l.timers l
  let (g, l) ← runqPopLocked l
  match g with
  | some g => some (l.setWorker w (.popped g))
  | none => some l

def reap (l : Linked n k) (w : Fin n) (g : ℕ) : Linked n k :=
  match l.threads g with
  | some ⟨.dead, _, _⟩ =>
    Linked.setWorker
      { l with
        liveCount := l.liveCount - 1
        threads := Function.update l.threads g none } w .idle
  | _ => l.setWorker w .idle

/-- One step. There is no result where a thread that is not allocated is accessed. -/
def linkedStep (l : Linked n k) : SchedOp n k → Option (Linked n k)
  | .spawn g => spawn l g
  | .work w =>
    match l.workers w with
    | .running g pos => some (l.setWorker w (.running g (pos + 1)))
    | _ => some l
  | .yield w =>
    match l.workers w with
    | .running g pos => (runqPushExisting l g).map fun l => l.leave w g pos .runnable
    | _ => some l
  | .sleep w deadline =>
    match l.workers w with
    | .running g pos =>
      some (Linked.leave { l with timers := insertTimer ⟨deadline, g⟩ l.timers } w g pos .waitTimer)
    | _ => some l
  | .lock w m =>
    match l.workers w with
    | .running g pos => mutexLock l w m g pos
    | _ => some l
  | .unlock w m =>
    match l.workers w with
    | .running _ _ => mutexUnlock l m
    | _ => some l
  | .exit w =>
    match l.workers w with
    | .running g pos =>
      some ((l.modifyThread g (fun t => { t with state := .dead, context := pos })).setWorker w
        (.returned g))
    | _ => some l
  | .switchOut w =>
    match l.workers w with
    | .leaving g pos =>
      some ((l.modifyThread g (fun t => { t with context := pos })).setWorker w (.returned g))
    | _ => some l
  | .take w now =>
    match l.workers w with
    | .idle => take l w now
    | _ => some l
  | .switchIn w =>
    match l.workers w with
    | .popped g =>
      some ((l.setState g .running).setWorker w
        (.running g (((l.threads g).map (·.context)).getD 0)))
    | _ => some l
  | .reap w =>
    match l.workers w with
    | .returned g => some (reap l w g)
    | _ => some l

end Model

section Representation
variable {n k : ℕ}

/-- The links make up the lists of the scheduler. -/
structure Represents (l : Linked n k) (s : Sched n k) : Prop where
  workers : l.workers = s.workers
  locked : ∀ m, l.locked m = (s.mutexes m).locked
  waiting : ∀ m, Holds l.waitNext (l.waiting m) (s.mutexes m).queue
  run : Holds l.runNext l.run s.runq
  timers : l.timers = s.timers
  threads : l.threads = s.threads
  liveCount : l.liveCount = s.liveCount

theorem represents_init (n k : ℕ) : Represents (initLinked n k) (initSched n k) where
  workers := rfl
  locked _ := rfl
  waiting _ := holds_empty _
  run := holds_empty _
  timers := rfl
  threads := rfl
  liveCount := rfl

variable {l : Linked n k} {s : Sched n k} {w : Fin n} {m : Fin k} {g pos : ℕ}

theorem Represents.setWorker (h : Represents l s) (w : Fin n) (x : Worker) :
    Represents (l.setWorker w x) (s.setWorker w x) :=
  { h with workers := by rw [Linked.setWorker, Sched.setWorker, h.workers] }

theorem Represents.modifyThread (h : Represents l s) (g : ℕ) (f : GreenThread → GreenThread) :
    Represents (l.modifyThread g f) (s.modifyThread g f) :=
  { h with threads := by rw [Linked.modifyThread, Sched.modifyThread, h.threads] }

theorem Represents.leave (h : Represents l s) (w : Fin n) (g pos : ℕ) (state : GState) :
    Represents (l.leave w g pos state) (s.leave w g pos state) :=
  (h.modifyThread g _).setWorker w _

theorem Represents.setTimers (h : Represents l s) (timers : List Timer) :
    Represents { l with timers := timers } { s with timers := timers } :=
  { h with timers := rfl }

theorem Represents.alive (h : Represents l s) (g : ℕ) : l.alive g = (s.threads g).isSome := by
  rw [Linked.alive, h.threads]

end Representation

section Placing
variable {n k : ℕ} {s : Sched n k} {g : ℕ} {x : GState}

theorem mem_runq (hg : g ∈ s.runq) : g ∈ places s .runnable :=
  Multiset.mem_add.mpr (Or.inl (Multiset.mem_coe.mpr hg))

theorem mem_queue {m : Fin k} (hg : g ∈ (s.mutexes m).queue) : g ∈ places s .waitMutex := by
  obtain ⟨r, hr, -⟩ := sum_split s.mutexes (fun m => (↑m.queue : Multiset ℕ)) m
  refine Multiset.mem_add.mpr (Or.inl ?_)
  rw [queuedAs, hr]
  exact Multiset.mem_add.mpr (Or.inl (Multiset.mem_coe.mpr hg))

theorem known (h : Placed s) (hg : g ∈ places s x) : (s.threads g).isSome = true := by
  obtain ⟨t, ht, -⟩ := h.state x g hg
  rw [ht]
  rfl

/-- No thread waits for two mutexes. -/
theorem queues_disjoint (h : Placed s) {m m' : Fin k} (hne : m' ≠ m)
    (hg : g ∈ (s.mutexes m).queue) : g ∉ (s.mutexes m').queue := by
  obtain ⟨r, hr, hx⟩ := sum_split s.mutexes (fun m => (↑m.queue : Multiset ℕ)) m
  intro hg'
  have hnodup := h.nodup .waitMutex
  have hrest : g ∈ r := by
    -- the rest is what is left when the queue of `m` is empty
    have hempty := hx ⟨false, []⟩
    rw [Multiset.coe_nil, zero_add] at hempty
    rw [← hempty]
    refine Multiset.mem_sum.mpr ⟨m', Finset.mem_univ m', ?_⟩
    rw [Function.update_of_ne hne]
    exact Multiset.mem_coe.mpr hg'
  rw [places, queuedAs, hr] at hnodup
  have hboth := (Multiset.nodup_add.mp (Multiset.nodup_add.mp hnodup).1).2.2
  exact Multiset.disjoint_left.mp hboth (Multiset.mem_coe.mpr hg) hrest

end Placing

section Queues
variable {n k : ℕ} {l : Linked n k} {s : Sched n k} {w : Fin n} {m : Fin k} {g pos : ℕ}

/-- The threads that stand in the run queue are allocated. -/
def RunAlive (s : Sched n k) : Prop := ∀ b ∈ s.runq, (s.threads b).isSome = true

theorem placed_runAlive (h : Placed s) : RunAlive s := fun _ hb => known h (mem_runq hb)

theorem runqPushExisting_represents (h : Represents l s) (halive : RunAlive s)
    (hg : (s.threads g).isSome = true) (hnew : g ∉ s.runq) :
    ∃ l', runqPushExisting l g = some l' ∧ Represents l' (s.push g) := by
  obtain ⟨next', q', hpush, hholds, -⟩ := push_holds h.run
    (fun b hb => (h.alive b).trans (halive b hb)) ((h.alive g).trans hg) hnew
  rw [runqPushExisting, hpush]
  exact ⟨_, rfl, { h with run := hholds }⟩

theorem mutexPark_represents (h : Represents l s) (hp : Placed s)
    (hrun : g ∈ places s .running) (locked : Bool) (hlocked : l.locked m = locked) :
    ∃ l', mutexPark l m g = some l' ∧
      Represents l' (s.setMutex m ⟨locked, (s.mutexes m).queue ++ [g]⟩) := by
  have hfree : ∀ m', g ∉ (s.mutexes m').queue := fun m' hin =>
    absurd (hp.apart (mem_queue hin) hrun) (by decide)
  obtain ⟨next', q', happend, hholds, hframe⟩ := append_holds (h.waiting m)
    (fun b hb => (h.alive b).trans (known hp (mem_queue hb))) ((h.alive g).trans (known hp hrun))
    (hfree m)
  rw [mutexPark, happend]
  refine ⟨_, rfl, { h with locked := ?_, waiting := ?_ }⟩
  · intro m'
    by_cases hm : m' = m
    · rw [hm, setMutex_self]
      exact hlocked
    · rw [setMutex_ne s _ hm]
      exact h.locked m'
  · intro m'
    by_cases hm : m' = m
    · rw [hm, setMutex_self]
      dsimp only
      rw [Function.update_self]
      exact hholds
    · rw [setMutex_ne s _ hm]
      dsimp only
      rw [Function.update_of_ne hm]
      refine (h.waiting m').congr fun b hb => hframe b ?_
      rw [List.mem_cons, not_or]
      refine ⟨?_, fun hin => queues_disjoint hp hm hin hb⟩
      rintro rfl
      exact hfree m' hb

theorem setLocked_represents (h : Represents l s) (m : Fin k) (locked : Bool) :
    Represents (l.setLocked m locked) (s.setMutex m ⟨locked, (s.mutexes m).queue⟩) := by
  refine { h with locked := ?_, waiting := ?_ }
  · intro m'
    by_cases hm : m' = m
    · rw [hm, setMutex_self]
      exact Function.update_self ..
    · rw [setMutex_ne s _ hm]
      exact (Function.update_of_ne hm ..).trans (h.locked m')
  · intro m'
    by_cases hm : m' = m
    · rw [hm, setMutex_self]
      exact h.waiting m
    · rw [setMutex_ne s _ hm]
      exact h.waiting m'

theorem runqPopLocked_nil (h : Represents l s) (hrunq : s.runq = []) :
    runqPopLocked l = some (none, l) := by
  have hrun := h.run
  rw [hrunq] at hrun
  rw [runqPopLocked, pop_nil hrun]
  rfl

theorem runqPopLocked_cons {rest : List ℕ} (h : Represents l s) (hp : Placed s)
    (hrunq : s.runq = g :: rest) :
    ∃ l', runqPopLocked l = some (some g, l') ∧ Represents l' { s with runq := rest } := by
  have hrun := h.run
  rw [hrunq] at hrun
  have hg : g ∈ s.runq := hrunq ▸ List.mem_cons_self
  obtain ⟨next', q', hpop, hholds, -⟩ :=
    pop_cons hrun ((h.alive g).trans (known hp (mem_runq hg)))
  rw [runqPopLocked, hpop]
  exact ⟨_, rfl, { h with run := hholds }⟩

end Queues

section Steps
variable {n k : ℕ} {l : Linked n k} {s : Sched n k} {w : Fin n} {m : Fin k} {g pos : ℕ}

theorem setState_isSome (s : Sched n k) (g b : ℕ) (state : GState) :
    ((s.setState g state).threads b).isSome = (s.threads b).isSome := by
  by_cases hb : b = g
  · rw [hb, Sched.setState, modifyThread_self, Option.isSome_map]
  · rw [Sched.setState, modifyThread_ne s _ hb]

/-- A thread that has waited becomes runnable. -/
theorem resume_represents (h : Represents l s) (halive : RunAlive s)
    (hg : (s.threads g).isSome = true) (hnew : g ∉ s.runq) :
    ∃ l', runqPushExisting (l.setState g .runnable) g = some l' ∧
      Represents l' ((s.setState g .runnable).push g) :=
  runqPushExisting_represents (h.modifyThread g _)
    (fun b hb => (setState_isSome s g b .runnable).trans (halive b hb))
    ((setState_isSome s g g .runnable).trans hg) hnew

theorem spawn_represents (h : Represents l s) (hp : Placed s) (g : ℕ) :
    ∃ l', spawn l g = some l' ∧ Represents l' (spawnStep s g) := by
  rw [spawn, spawnStep, h.threads]
  cases hg : s.threads g with
  | some t => exact ⟨l, rfl, h⟩
  | none =>
    have hnew : g ∉ s.runq := fun hin => by
      have hsome := known hp (mem_runq hin)
      rw [hg] at hsome
      cases hsome
    have hthreads : Represents
        { l with threads := Function.update s.threads g (some ⟨.runnable, 0, 0⟩) }
        { s with threads := Function.update s.threads g (some ⟨.runnable, 0, 0⟩) } :=
      { h with threads := rfl }
    have hold : ∀ b ∈ s.runq,
        (Function.update s.threads g (some ⟨.runnable, 0, 0⟩) b).isSome = true := by
      intro b hb
      rw [Function.update_of_ne (ne_of_mem_of_not_mem hb hnew)]
      exact known hp (mem_runq hb)
    have hself : (Function.update s.threads g (some ⟨.runnable, 0, 0⟩) g).isSome = true := by
      rw [Function.update_self]
      rfl
    obtain ⟨l', hpush, hl'⟩ := runqPushExisting_represents hthreads hold hself hnew
    rw [hpush]
    exact ⟨_, rfl, { hl' with liveCount := congrArg (· + 1) hl'.liveCount }⟩

theorem mutexLock_represents (h : Represents l s) (hp : Placed s)
    (hw : s.workers w = .running g pos) (m : Fin k) :
    ∃ l', mutexLock l w m g pos = some l' ∧ Represents l' (lockStep s w m g pos) := by
  rw [mutexLock, lockStep, h.locked m]
  by_cases hlocked : (s.mutexes m).locked = true
  · rw [if_pos hlocked, if_pos hlocked]
    obtain ⟨l', hpark, hl'⟩ := mutexPark_represents h hp (held_running_mem hw) true
      ((h.locked m).trans hlocked)
    rw [hpark]
    exact ⟨_, rfl, hl'.leave w g pos .waitMutex⟩
  · rw [if_neg hlocked, if_neg hlocked]
    exact ⟨_, rfl, setLocked_represents h m true⟩

theorem mutexUnlock_represents (h : Represents l s) (hp : Placed s) (m : Fin k) :
    ∃ l', mutexUnlock l m = some l' ∧ Represents l' (unlockStep s m) := by
  have hwaiting := h.waiting m
  rw [mutexUnlock, unlockStep]
  dsimp only
  cases hqueue : (s.mutexes m).queue with
  | nil =>
    rw [hqueue] at hwaiting
    rw [pop_nil hwaiting]
    have hset := setLocked_represents h m false
    rw [hqueue] at hset
    exact ⟨_, rfl, hset⟩
  | cons g rest =>
    have hg : g ∈ (s.mutexes m).queue := hqueue ▸ List.mem_cons_self
    have hknown := known hp (mem_queue hg)
    rw [hqueue] at hwaiting
    obtain ⟨next', q', hpop, hholds, hframe⟩ := pop_cons hwaiting ((h.alive g).trans hknown)
    rw [hpop]
    have hnew : g ∉ s.runq := fun hin =>
      absurd (hp.apart (mem_runq hin) (mem_queue hg)) (by decide)
    have hpopped : Represents
        { l with waitNext := next', waiting := Function.update l.waiting m q' }
        (s.setMutex m ⟨(s.mutexes m).locked, rest⟩) := by
      refine { h with locked := ?_, waiting := ?_ }
      · intro m'
        by_cases hm : m' = m
        · rw [hm, setMutex_self]
          exact h.locked m
        · rw [setMutex_ne s _ hm]
          exact h.locked m'
      · intro m'
        by_cases hm : m' = m
        · rw [hm, setMutex_self]
          dsimp only
          rw [Function.update_self]
          exact hholds
        · rw [setMutex_ne s _ hm]
          dsimp only
          rw [Function.update_of_ne hm]
          refine (h.waiting m').congr fun b hb => hframe b ?_
          rw [List.mem_singleton]
          rintro rfl
          exact queues_disjoint hp hm hg hb
    have halive := placed_runAlive hp
    exact resume_represents hpopped halive hknown hnew

theorem wakeExpiredTimers_represents (now : ℕ) (timers : List Timer) (l : Linked n k)
    (s : Sched n k) (h : Represents l s) (hp : Placed { s with timers := timers }) :
    ∃ l', wakeExpiredTimers now timers l = some l' ∧ Represents l' (wakeTimers now timers s) := by
  induction timers generalizing l s with
  | nil => exact ⟨_, rfl, h.setTimers []⟩
  | cons t rest ih =>
    rw [wakeExpiredTimers, wakeTimers]
    by_cases hdue : t.deadline ≤ now
    · rw [if_pos hdue, if_pos hdue]
      have hwait : t.g ∈ places { s with timers := t :: rest } .waitTimer :=
        Multiset.mem_add.mpr (Or.inl (Multiset.mem_coe.mpr List.mem_cons_self))
      have hnew : t.g ∉ s.runq := fun hin =>
        absurd (hp.apart (mem_runq hin) hwait) (by decide)
      have halive := placed_runAlive hp
      have hknown := known hp hwait
      obtain ⟨l', hpush, hl'⟩ := resume_represents h halive hknown hnew
      rw [hpush]
      exact ih l' _ hl' (wake_placed hp)
    · rw [if_neg hdue, if_neg hdue]
      exact ⟨_, rfl, h.setTimers (t :: rest)⟩

theorem take_represents (h : Represents l s) (hp : Placed s) (w : Fin n) (now : ℕ) :
    ∃ l', take l w now = some l' ∧ Represents l' (takeStep s w now) := by
  obtain ⟨l₁, hwake, hl₁⟩ := wakeExpiredTimers_represents now s.timers l s h hp
  have hp₁ : Placed (wakeExpired s now) := wakeTimers_placed now s.timers s hp
  rw [take, takeStep, h.timers, hwake]
  change ∃ l', ((runqPopLocked l₁).bind _) = some l' ∧ _
  rw [← wakeExpired] at hl₁
  dsimp only
  cases hrunq : (wakeExpired s now).runq with
  | nil =>
    rw [runqPopLocked_nil hl₁ hrunq]
    exact ⟨l₁, rfl, hl₁⟩
  | cons g rest =>
    obtain ⟨l₂, hpop, hl₂⟩ := runqPopLocked_cons hl₁ hp₁ hrunq
    rw [hpop]
    exact ⟨_, rfl, hl₂.setWorker w _⟩

theorem reap_represents (h : Represents l s) (w : Fin n) (g : ℕ) :
    Represents (reap l w g) (reapStep s w g) := by
  rw [reap, reapStep, h.threads]
  have hother : Represents (l.setWorker w .idle) (s.setWorker w .idle) := h.setWorker w _
  cases hg : s.threads g with
  | none => exact hother
  | some t =>
    obtain ⟨state, context, suspended⟩ := t
    cases state with
    | dead =>
      exact
        { hother with
          threads := rfl
          liveCount := congrArg (· - 1) h.liveCount }
    | _ => exact hother

/-- A step on the links is the step on the lists. -/
theorem linkedStep_represents (h : Represents l s) (hp : Placed s) (op : SchedOp n k) :
    ∃ l', linkedStep l op = some l' ∧ Represents l' (schedStep s op) := by
  cases op with
  | spawn g => exact spawn_represents h hp g
  | work w =>
    rw [linkedStep, schedStep, h.workers]
    cases hw : s.workers w with
    | running g pos => exact ⟨_, rfl, h.setWorker w _⟩
    | _ => exact ⟨_, rfl, h⟩
  | yield w =>
    rw [linkedStep, schedStep, h.workers]
    cases hw : s.workers w with
    | running g pos =>
      have hrunning := held_running_mem hw
      obtain ⟨l', hpush, hl'⟩ := runqPushExisting_represents h (placed_runAlive hp)
        (known hp hrunning) fun hin => absurd (hp.apart (mem_runq hin) hrunning) (by decide)
      dsimp only
      rw [hpush]
      exact ⟨_, rfl, hl'.leave w g pos .runnable⟩
    | _ => exact ⟨_, rfl, h⟩
  | sleep w deadline =>
    rw [linkedStep, schedStep, h.workers, h.timers]
    cases hw : s.workers w with
    | running g pos =>
      have hset : Represents
          { l with workers := s.workers, timers := insertTimer ⟨deadline, g⟩ s.timers }
          { s with timers := insertTimer ⟨deadline, g⟩ s.timers } :=
        { h with workers := rfl, timers := rfl }
      exact ⟨_, rfl, hset.leave w g pos .waitTimer⟩
    | _ => exact ⟨_, rfl, h⟩
  | lock w m =>
    rw [linkedStep, schedStep, h.workers]
    cases hw : s.workers w with
    | running g pos => exact mutexLock_represents h hp hw m
    | _ => exact ⟨_, rfl, h⟩
  | unlock w m =>
    rw [linkedStep, schedStep, h.workers]
    cases hw : s.workers w with
    | running g pos => exact mutexUnlock_represents h hp m
    | _ => exact ⟨_, rfl, h⟩
  | exit w =>
    rw [linkedStep, schedStep, h.workers]
    cases hw : s.workers w with
    | running g pos => exact ⟨_, rfl, (h.modifyThread _ _).setWorker w _⟩
    | _ => exact ⟨_, rfl, h⟩
  | switchOut w =>
    rw [linkedStep, schedStep, h.workers]
    cases hw : s.workers w with
    | leaving g pos => exact ⟨_, rfl, (h.modifyThread _ _).setWorker w _⟩
    | _ => exact ⟨_, rfl, h⟩
  | take w now =>
    rw [linkedStep, schedStep, h.workers]
    cases hw : s.workers w with
    | idle => exact take_represents h hp w now
    | _ => exact ⟨_, rfl, h⟩
  | switchIn w =>
    rw [linkedStep, schedStep, h.workers, h.threads]
    cases hw : s.workers w with
    | popped g => exact ⟨_, rfl, (h.modifyThread _ _).setWorker w _⟩
    | _ => exact ⟨_, rfl, h⟩
  | reap w =>
    rw [linkedStep, schedStep, h.workers]
    cases hw : s.workers w with
    | returned g => exact ⟨_, rfl, reap_represents h w _⟩
    | _ => exact ⟨_, rfl, h⟩

theorem linkedRun_represents (ops : List (SchedOp n k)) {l : Linked n k} {s : Sched n k}
    (h : Represents l s) (hp : Placed s) :
    ∃ l', ops.foldlM linkedStep l = some l' ∧ Represents l' (ops.foldl schedStep s) := by
  induction ops generalizing l s with
  | nil => exact ⟨l, rfl, h⟩
  | cons op rest ih =>
    obtain ⟨l₁, hstep, hl₁⟩ := linkedStep_represents h hp op
    rw [List.foldlM_cons, hstep, List.foldl_cons]
    exact ih hl₁ (schedStep_placed hp op)

end Steps

end NewClLang.QueueLinks
