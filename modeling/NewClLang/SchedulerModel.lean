import Mathlib.Data.Fintype.BigOperators
import Mathlib.Data.Multiset.AddSub

set_option autoImplicit false

/-!
# The green-thread scheduler

The scheduler of `runtime/ncrt.c` over `n` workers and `k` mutexes. One step is one critical
section of the scheduler lock or of a mutex's internal lock, or one context switch; a thread that
suspends itself is published in the first and switched away from in a later one.
-/
namespace NewClLang.SchedulerModel

inductive GState where
  | runnable
  | running
  | waitMutex
  | waitTimer
  | dead
  deriving DecidableEq, Repr

/-- A green thread. Its registers are the number of steps it has executed: `context` is what
    `__nc_g_switch` last saved, `suspended` what it has to have saved since the last suspension. -/
structure GreenThread where
  state : GState
  context : ℕ
  suspended : ℕ
  deriving DecidableEq, Repr

/-- Where a worker is in `worker_loop`; `pos` are the registers it runs the thread with. -/
inductive Worker where
  | idle
  /-- `runq_pop_locked` gave it a thread and the lock is released. -/
  | popped (g : ℕ)
  | running (g pos : ℕ)
  /-- The thread has published itself, and `__nc_g_switch` has not saved it yet. -/
  | leaving (g pos : ℕ)
  /-- Back in the loop with `current_g` cleared, before it reads the thread's state. -/
  | returned (g : ℕ)
  deriving DecidableEq, Repr

structure NcMutex where
  locked : Bool
  queue : List ℕ
  deriving DecidableEq, Repr

structure Timer where
  deadline : ℕ
  g : ℕ
  deriving DecidableEq, Repr

structure Sched (n k : ℕ) where
  workers : Fin n → Worker
  mutexes : Fin k → NcMutex
  runq : List ℕ
  timers : List Timer
  threads : ℕ → Option GreenThread
  liveCount : ℤ

def initSched (n k : ℕ) : Sched n k :=
  ⟨fun _ => .idle, fun _ => ⟨false, []⟩, [], [], fun _ => none, 0⟩

inductive SchedOp (n k : ℕ) where
  | spawn (g : ℕ)
  | work (w : Fin n)
  | yield (w : Fin n)
  | sleep (w : Fin n) (deadline : ℕ)
  | lock (w : Fin n) (m : Fin k)
  | unlock (w : Fin n) (m : Fin k)
  | exit (w : Fin n)
  | switchOut (w : Fin n)
  | take (w : Fin n) (now : ℕ)
  | switchIn (w : Fin n)
  | reap (w : Fin n)

section Steps
variable {n k : ℕ}

def Sched.setWorker (s : Sched n k) (w : Fin n) (x : Worker) : Sched n k :=
  { s with workers := Function.update s.workers w x }

def Sched.setMutex (s : Sched n k) (m : Fin k) (x : NcMutex) : Sched n k :=
  { s with mutexes := Function.update s.mutexes m x }

def Sched.modifyThread (s : Sched n k) (g : ℕ) (f : GreenThread → GreenThread) : Sched n k :=
  { s with threads := Function.update s.threads g ((s.threads g).map f) }

def Sched.setState (s : Sched n k) (g : ℕ) (state : GState) : Sched n k :=
  s.modifyThread g (fun t => { t with state := state })

@[simp] theorem setWorker_self (s : Sched n k) (w : Fin n) (x : Worker) :
    (s.setWorker w x).workers w = x := Function.update_self ..

theorem setWorker_ne (s : Sched n k) {w w' : Fin n} (x : Worker) (h : w' ≠ w) :
    (s.setWorker w x).workers w' = s.workers w' := Function.update_of_ne h ..

@[simp] theorem setWorker_threads (s : Sched n k) (w : Fin n) (x : Worker) :
    (s.setWorker w x).threads = s.threads := rfl

theorem setMutex_self (s : Sched n k) (m : Fin k) (x : NcMutex) :
    (s.setMutex m x).mutexes m = x := Function.update_self ..

theorem setMutex_ne (s : Sched n k) {m m' : Fin k} (x : NcMutex) (h : m' ≠ m) :
    (s.setMutex m x).mutexes m' = s.mutexes m' := Function.update_of_ne h ..

@[simp] theorem modifyThread_self (s : Sched n k) (g : ℕ) (f : GreenThread → GreenThread) :
    (s.modifyThread g f).threads g = (s.threads g).map f := Function.update_self ..

theorem modifyThread_ne (s : Sched n k) {g g' : ℕ} (f : GreenThread → GreenThread) (h : g' ≠ g) :
    (s.modifyThread g f).threads g' = s.threads g' := Function.update_of_ne h ..

@[simp] theorem modifyThread_workers (s : Sched n k) (g : ℕ) (f : GreenThread → GreenThread) :
    (s.modifyThread g f).workers = s.workers := rfl

def Sched.push (s : Sched n k) (g : ℕ) : Sched n k := { s with runq := s.runq ++ [g] }

/-- The insertion by deadline in `__nc_sleep`: after the timers that are due no later. -/
def insertTimer (t : Timer) : List Timer → List Timer
  | [] => [t]
  | t' :: rest => if t'.deadline ≤ t.deadline then t' :: insertTimer t rest else t :: t' :: rest

/-- The loop of `wake_expired_timers`, over the timers it is called with. -/
def wakeTimers (now : ℕ) : List Timer → Sched n k → Sched n k
  | [], s => { s with timers := [] }
  | t :: rest, s =>
    if t.deadline ≤ now then wakeTimers now rest ((s.setState t.g .runnable).push t.g)
    else { s with timers := t :: rest }

def wakeExpired (s : Sched n k) (now : ℕ) : Sched n k := wakeTimers now s.timers s

/-- The end of the section in which thread `g` published itself: it has one more step behind it,
    its context still has to be saved, and its worker goes on to `__nc_g_switch`. -/
def Sched.leave (s : Sched n k) (w : Fin n) (g pos : ℕ) (state : GState) : Sched n k :=
  (s.modifyThread g (fun t => { t with state := state, suspended := pos + 1 })).setWorker w
    (.leaving g (pos + 1))

/-- `__nc_spawn`: a thread whose initial stack is its saved context, then submitted. -/
def spawnStep (s : Sched n k) (g : ℕ) : Sched n k :=
  match s.threads g with
  | some _ => s
  | none =>
    { s with
      threads := Function.update s.threads g (some ⟨.runnable, 0, 0⟩)
      runq := s.runq ++ [g]
      liveCount := s.liveCount + 1 }

/-- `__nc_mutex_lock`, which parks in `nc_mutex_park_and_unlock` when the lock is held. -/
def lockStep (s : Sched n k) (w : Fin n) (m : Fin k) (g pos : ℕ) : Sched n k :=
  let mutex := s.mutexes m
  if mutex.locked then
    (s.setMutex m ⟨true, mutex.queue ++ [g]⟩).leave w g pos .waitMutex
  else s.setMutex m ⟨true, mutex.queue⟩

def unlockStep (s : Sched n k) (m : Fin k) : Sched n k :=
  let mutex := s.mutexes m
  match mutex.queue with
  | g :: rest => ((s.setMutex m ⟨mutex.locked, rest⟩).setState g .runnable).push g
  | [] => s.setMutex m ⟨false, []⟩

def takeStep (s : Sched n k) (w : Fin n) (now : ℕ) : Sched n k :=
  let s := wakeExpired s now
  match s.runq with
  | g :: rest => { s with runq := rest }.setWorker w (.popped g)
  | [] => s

/-- The read of `g->state` after the switch, `g_finish_dead` and `__nc_g_free`. -/
def reapStep (s : Sched n k) (w : Fin n) (g : ℕ) : Sched n k :=
  match s.threads g with
  | some ⟨.dead, _, _⟩ =>
    { s with
      liveCount := s.liveCount - 1
      threads := Function.update s.threads g none }.setWorker w .idle
  | _ => s.setWorker w .idle

/-- One step; an operation its worker is not ready for changes nothing. -/
def schedStep (s : Sched n k) : SchedOp n k → Sched n k
  | .spawn g => spawnStep s g
  | .work w =>
    match s.workers w with
    | .running g pos => s.setWorker w (.running g (pos + 1))
    | _ => s
  | .yield w =>
    match s.workers w with
    | .running g pos => (s.push g).leave w g pos .runnable
    | _ => s
  | .sleep w deadline =>
    match s.workers w with
    | .running g pos =>
      { s with timers := insertTimer ⟨deadline, g⟩ s.timers }.leave w g pos .waitTimer
    | _ => s
  | .lock w m =>
    match s.workers w with
    | .running g pos => lockStep s w m g pos
    | _ => s
  | .unlock w m =>
    match s.workers w with
    | .running _ _ => unlockStep s m
    | _ => s
  | .exit w =>
    match s.workers w with
    | .running g pos =>
      (s.modifyThread g (fun t => { t with state := .dead, context := pos })).setWorker w
        (.returned g)
    | _ => s
  | .switchOut w =>
    match s.workers w with
    | .leaving g pos =>
      (s.modifyThread g (fun t => { t with context := pos })).setWorker w (.returned g)
    | _ => s
  | .take w now =>
    match s.workers w with
    | .idle => takeStep s w now
    | _ => s
  | .switchIn w =>
    match s.workers w with
    | .popped g =>
      (s.setState g .running).setWorker w (.running g (((s.threads g).map (·.context)).getD 0))
    | _ => s
  | .reap w =>
    match s.workers w with
    | .returned g => reapStep s w g
    | _ => s

end Steps

end NewClLang.SchedulerModel
