import NewClLang.SchedulerModel

set_option autoImplicit false

/-!
# The runtime around the scheduler

The main thread, the drain and the reaping of threads, over the scheduler of `SchedulerModel`. A
green thread publishes itself and switches away in one step. A thread's number is never used
again after the thread has been freed; what a worker reads of a freed thread is arbitrary.
-/
namespace NewClLang.RuntimeMachine
open SchedulerModel

inductive Crash where
  /-- `abort()` in `g_finish_dead`. -/
  | noLiveThread
  /-- `__nc_sleep` or `__nc_g_yield` called outside the scheduler. -/
  | outsideScheduler
  /-- `nc_mutex_park_and_unlock` read a field of a null `current_worker`. -/
  | nullWorker
  /-- `all green threads are asleep - deadlock`. -/
  | deadlock
  deriving DecidableEq, Repr

/-- Where the OS thread that called `main` is. -/
inductive MainThread (n : ℕ) where
  | body
  | draining (deadline : ℕ)
  | joining
  | exited
  /-- In `__nc_scheduler_run`, as worker `w`; `empty` once a pop has found no thread. -/
  | inline (w : Fin n) (empty : Bool)
  deriving DecidableEq, Repr

/-- `submitted`, `exitedOn` and `finished` are the history: the threads given to
    `__nc_scheduler_submit`, the worker that ran a thread's `__nc_g_exit`, and the calls of
    `g_finish_dead` and `__nc_g_free`. -/
structure Runtime (n k : ℕ) where
  sched : Sched n k
  main : MainThread n
  accepting : Bool
  stopped : Fin n → Bool
  submitted : List ℕ
  exitedOn : ℕ → Option (Fin n)
  finished : List ℕ
  crashed : Option Crash

/-- In the body of `main`, after `__nc_scheduler_init` has started the workers `started`. -/
def initRuntime (n k : ℕ) (started : Fin n → Bool) : Runtime n k :=
  ⟨initSched n k, .body, true, fun w => !started w, [], fun _ => none, [], none⟩

/-- What a running thread does next. -/
inductive ThreadOp (k : ℕ) where
  | work
  | yield
  | sleep (deadline : ℕ)
  | lock (m : Fin k)
  | unlock (m : Fin k)
  deriving DecidableEq, Repr

/-- The runtime's functions as the main thread calls them from the body of `main`. -/
inductive MainOp (k : ℕ) where
  | lock (m : Fin k)
  | unlock (m : Fin k)
  | sleep
  | yield
  | checkYield
  deriving DecidableEq, Repr

inductive RuntimeOp (n k : ℕ) where
  /-- `caller` is the worker whose thread calls `__nc_spawn`, `none` the main thread. -/
  | spawn (caller : Option (Fin n)) (g : ℕ)
  | thread (w : Fin n) (op : ThreadOp k)
  | exit (w : Fin n)
  | take (w : Fin n) (now : ℕ)
  | switchIn (w : Fin n)
  /-- `seen` is what the read of `g->state` gives when the thread has been freed. -/
  | reap (w : Fin n) (seen : GState)
  | main (op : MainOp k)
  | shutdown (now : ℕ)
  | poll (now reset : ℕ)
  | join
  | run (w : Fin n)
  | check
  deriving DecidableEq, Repr

section Steps
variable {n k : ℕ}

def Runtime.ended (s : Runtime n k) : Bool :=
  s.crashed.isSome || decide (s.main = .exited)

def Runtime.crash (s : Runtime n k) (c : Crash) : Runtime n k := { s with crashed := some c }

/-- Publication and `__nc_g_switch` as one step. -/
def suspend (s : Sched n k) (w : Fin n) (publish : SchedOp n k) : Sched n k :=
  schedStep (schedStep s publish) (.switchOut w)

def threadStep (s : Sched n k) (w : Fin n) : ThreadOp k → Sched n k
  | .work => schedStep s (.work w)
  | .yield => suspend s w (.yield w)
  | .sleep deadline => suspend s w (.sleep w deadline)
  | .lock m => suspend s w (.lock w m)
  | .unlock m => schedStep s (.unlock w m)

def isRunning : Worker → Bool
  | .running _ _ => true
  | _ => false

def canSpawn (s : Runtime n k) : Option (Fin n) → Bool
  | none => decide (s.main = .body)
  | some w => isRunning (s.sched.workers w)

def spawn (s : Runtime n k) (caller : Option (Fin n)) (g : ℕ) : Runtime n k :=
  if canSpawn s caller ∧ g ∉ s.submitted then
    { s with sched := spawnStep s.sched g, submitted := s.submitted ++ [g] }
  else s

/-- `__nc_g_exit`. -/
def gExit (s : Runtime n k) (w : Fin n) : Runtime n k :=
  match s.sched.workers w with
  | .running g _ =>
    { s with
      sched := schedStep s.sched (.exit w)
      exitedOn := Function.update s.exitedOn g (some w) }
  | _ => s

/-- The end of the critical section in which worker `w` found no thread. -/
def noThread (s : Runtime n k) (w : Fin n) : Runtime n k :=
  if ∃ empty, s.main = .inline w empty then { s with main := .inline w true }
  else if s.accepting = false ∧ s.sched.timers = [] then
    { s with stopped := Function.update s.stopped w true }
  else s

/-- The first critical section of a round of `worker_loop` or of `__nc_scheduler_run`. -/
def workerTake (s : Runtime n k) (w : Fin n) (now : ℕ) : Runtime n k :=
  if s.stopped w ∨ s.main = .inline w true then s
  else
    match s.sched.workers w with
    | .idle =>
      let s := { s with sched := takeStep s.sched w now }
      match s.sched.workers w with
      | .popped _ => s
      | _ => noThread s w
    | _ => s

/-- `g_finish_dead` and `__nc_g_free`. -/
def finishDead (s : Runtime n k) (w : Fin n) (g : ℕ) : Runtime n k :=
  if s.sched.liveCount ≤ 0 then s.crash .noLiveThread
  else
    { s with
      sched := { s.sched with
        liveCount := s.sched.liveCount - 1
        threads := Function.update s.sched.threads g none }.setWorker w .idle
      finished := s.finished ++ [g] }

def readState (s : Runtime n k) (g : ℕ) (seen : GState) : GState :=
  match s.sched.threads g with
  | some t => t.state
  | none => seen

/-- What a worker does after the switch back to its loop. -/
def workerReap (s : Runtime n k) (w : Fin n) (seen : GState) : Runtime n k :=
  match s.sched.workers w with
  | .returned g =>
    if readState s g seen = .dead then finishDead s w g
    else { s with sched := s.sched.setWorker w .idle }
  | _ => s

/-- A call from the body of `main`, whose `current_worker` is null. -/
def mainCall (s : Runtime n k) : MainOp k → Runtime n k
  | .lock m =>
    if (s.sched.mutexes m).locked then s.crash .nullWorker
    else { s with sched := s.sched.setMutex m ⟨true, (s.sched.mutexes m).queue⟩ }
  | .unlock m => { s with sched := unlockStep s.sched m }
  | .sleep => s.crash .outsideScheduler
  | .yield => s.crash .outsideScheduler
  | .checkYield => s

/-- The head of the loop in `__nc_scheduler_shutdown`. -/
def drain (s : Runtime n k) (deadline : ℕ) : Runtime n k :=
  { s with main := if s.sched.liveCount > 0 then .draining deadline else .joining }

def beginShutdown (s : Runtime n k) (now : ℕ) : Runtime n k :=
  drain { s with accepting := false } (now + 5000)

/-- One round of the drain, after its timed wait. -/
def pollDrain (s : Runtime n k) (deadline now reset : ℕ) : Runtime n k :=
  if s.sched.liveCount > 0 ∧ now > deadline then
    if s.sched.runq = [] ∧ s.sched.timers = [] then s.crash .deadlock
    else drain s (reset + 5000)
  else drain s deadline

/-- `__nc_scheduler_run`, with the main thread as the worker `w` that no OS thread is. -/
def beginRun (s : Runtime n k) (w : Fin n) : Runtime n k :=
  { s with
    main := .inline w false
    accepting := true
    stopped := Function.update s.stopped w false }

/-- The second critical section of a round of `__nc_scheduler_run` that found no thread. -/
def checkPending (s : Runtime n k) (w : Fin n) : Runtime n k :=
  if s.sched.timers ≠ [] then { s with main := .inline w false }
  else if s.sched.liveCount > 0 then s.crash .deadlock
  else
    { s with
      main := .body
      accepting := false
      stopped := Function.update s.stopped w true }

/-- One step of a process that has neither crashed nor exited. -/
def liveStep (s : Runtime n k) : RuntimeOp n k → Runtime n k
  | .spawn caller g => spawn s caller g
  | .thread w op => { s with sched := threadStep s.sched w op }
  | .exit w => gExit s w
  | .take w now => workerTake s w now
  | .switchIn w => { s with sched := schedStep s.sched (.switchIn w) }
  | .reap w seen => workerReap s w seen
  | .main op => if s.main = .body then mainCall s op else s
  | .shutdown now => if s.main = .body then beginShutdown s now else s
  | .poll now reset =>
    match s.main with
    | .draining deadline => pollDrain s deadline now reset
    | _ => s
  | .join => if s.main = .joining ∧ ∀ w, s.stopped w then { s with main := .exited } else s
  | .run w => if s.main = .body ∧ s.stopped w then beginRun s w else s
  | .check =>
    match s.main with
    | .inline w true => checkPending s w
    | _ => s

def runtimeStep (s : Runtime n k) (op : RuntimeOp n k) : Runtime n k :=
  if s.ended then s else liveStep s op

end Steps

end NewClLang.RuntimeMachine
