import NewClLang.RuntimeMachine
import NewClLang.TransitionRuns
import Mathlib.Tactic.SplitIfs
import Mathlib.Tactic.Push

set_option autoImplicit false

/-!
# Waiting for timers

How long a worker waits on the condition variable. `wake_expired_timers` and
`timer_next_deadline_ms` read the clock one after the other, and a timeout of 0 stands for no
timer.
-/
namespace NewClLang.TimedWaits
open SchedulerModel RuntimeMachine TransitionRuns

/-- What `timer_next_deadline_ms` answers at a time. -/
def timerNextDeadline (now : ℕ) : List Timer → ℕ
  | [] => 0
  | t :: _ => if t.deadline ≤ now then 0 else t.deadline - now

/-- A wait: the timers at that moment, the time to which the timeout was computed, and the timeout,
    if there is one. -/
structure Wait where
  timers : List Timer
  now : ℕ
  timeout : Option ℕ
  deriving DecidableEq, Repr

/-- The runtime with the monotonic clock, and the waits so far. -/
structure Loops (n k : ℕ) where
  runtime : Runtime n k
  clock : ℕ
  waits : List Wait

def initLoops (n k : ℕ) (started : Fin n → Bool) : Loops n k := ⟨initRuntime n k started, 0, []⟩

/-- A step of the runtime some time later. A worker that looks for a thread reads the clock twice,
    with some time between. -/
inductive LoopOp (n k : ℕ) where
  | look (w : Fin n) (elapsed between : ℕ)
  | step (op : RuntimeOp n k) (elapsed : ℕ)

section Steps
variable {n k : ℕ}

def isInline (s : Runtime n k) (w : Fin n) : Bool :=
  match s.main with
  | .inline w' _ => decide (w' = w)
  | _ => false

def isIdle : Worker → Bool
  | .idle => true
  | _ => false

/-- At the head of the loop in `worker_loop`. -/
def looks (s : Runtime n k) (w : Fin n) : Bool :=
  !s.ended && !s.stopped w && isIdle (s.sched.workers w) && !isInline s w

/-- The condition of the inner loop, once the expired timers have been woken. -/
def mustWait (s : Runtime n k) (woken : Sched n k) : Bool :=
  woken.runq.isEmpty && (s.accepting || !woken.timers.isEmpty)

/-- The branch of the inner loop on the timeout. -/
def waitFor (timers : List Timer) (now : ℕ) : Wait :=
  ⟨timers, now,
    if timerNextDeadline now timers > 0 then some (timerNextDeadline now timers) else none⟩

def loopStep (s : Loops n k) : LoopOp n k → Loops n k
  | .look w elapsed between =>
    let wake := s.clock + elapsed
    let now := wake + between
    let woken := wakeExpired s.runtime.sched wake
    { runtime := runtimeStep s.runtime (.take w wake)
      clock := now
      waits :=
        if looks s.runtime w && mustWait s.runtime woken then waitFor woken.timers now :: s.waits
        else s.waits }
  | .step (.take _ _) elapsed => { s with clock := s.clock + elapsed }
  | .step op elapsed => { s with runtime := runtimeStep s.runtime op, clock := s.clock + elapsed }

end Steps

/-- A wait without a timeout when there is no timer, or with one that ends no later than the
    earliest deadline. -/
def Prompt (r : Wait) : Prop :=
  match r.timeout with
  | none => r.timers = []
  | some ms => ∀ t ∈ r.timers, r.now + ms ≤ t.deadline

def AllPrompt {n k : ℕ} (s : Loops n k) : Prop := ∀ r ∈ s.waits, Prompt r

/-- A worker that goes on to wait reads the clock in `timer_next_deadline_ms` before the earliest
    deadline that `wake_expired_timers` has left. -/
def NoExpiry {n k : ℕ} (s : Loops n k) : LoopOp n k → Prop
  | .look w elapsed between =>
    looks s.runtime w = true →
      mustWait s.runtime (wakeExpired s.runtime.sched (s.clock + elapsed)) = true →
      ∀ t ∈ (wakeExpired s.runtime.sched (s.clock + elapsed)).timers.head?,
        s.clock + elapsed + between < t.deadline
  | .step _ _ => True

/-- The timers by deadline. -/
def Ordered (timers : List Timer) : Prop :=
  timers.Pairwise (fun t t' => t.deadline ≤ t'.deadline)

section Order
variable {n k : ℕ}

theorem mem_insertTimer {t t' : Timer} {timers : List Timer} (h : t' ∈ insertTimer t timers) :
    t' = t ∨ t' ∈ timers := by
  induction timers with
  | nil => exact Or.inl (List.mem_singleton.1 h)
  | cons first rest ih =>
    rw [insertTimer] at h
    split_ifs at h
    · rcases List.mem_cons.1 h with heq | h
      · exact Or.inr (List.mem_cons.2 (Or.inl heq))
      · exact (ih h).imp_right (List.mem_cons_of_mem first)
    · exact List.mem_cons.1 h

theorem insertTimer_ordered (t : Timer) {timers : List Timer} (h : Ordered timers) :
    Ordered (insertTimer t timers) := by
  induction timers with
  | nil => exact List.pairwise_singleton _ t
  | cons first rest ih =>
    obtain ⟨hfirst, hrest⟩ := List.pairwise_cons.1 h
    rw [insertTimer]
    split_ifs with hle
    · refine List.Pairwise.cons (fun t' ht' => ?_) (ih hrest)
      rcases mem_insertTimer ht' with rfl | ht'
      · exact hle
      · exact hfirst t' ht'
    · refine List.Pairwise.cons (fun t' ht' => ?_) h
      rcases List.mem_cons.1 ht' with rfl | ht'
      · omega
      · have hlater := hfirst t' ht'
        omega

theorem wakeTimers_ordered (now : ℕ) {timers : List Timer} (h : Ordered timers) (s : Sched n k) :
    Ordered (wakeTimers now timers s).timers := by
  induction timers generalizing s with
  | nil => exact List.Pairwise.nil
  | cons t rest ih =>
    rw [wakeTimers]
    split_ifs
    · exact ih (List.pairwise_cons.1 h).right _
    · exact h

theorem takeStep_timers (s : Sched n k) (w : Fin n) (now : ℕ) :
    (takeStep s w now).timers = (wakeExpired s now).timers := by
  rw [takeStep]
  split <;> rfl

theorem spawnStep_timers (s : Sched n k) (g : ℕ) : (spawnStep s g).timers = s.timers := by
  rw [spawnStep]
  split <;> rfl

theorem lockStep_timers (s : Sched n k) (w : Fin n) (m : Fin k) (g pos : ℕ) :
    (lockStep s w m g pos).timers = s.timers := by
  rw [lockStep]
  split_ifs <;> rfl

theorem unlockStep_timers (s : Sched n k) (m : Fin k) : (unlockStep s m).timers = s.timers := by
  rw [unlockStep]
  split <;> rfl

theorem reapStep_timers (s : Sched n k) (w : Fin n) (g : ℕ) :
    (reapStep s w g).timers = s.timers := by
  rw [reapStep]
  split <;> rfl

theorem schedStep_ordered {s : Sched n k} (h : Ordered s.timers) (op : SchedOp n k) :
    Ordered (schedStep s op).timers := by
  cases op with
  | spawn g =>
    rw [schedStep, spawnStep_timers]
    exact h
  | sleep w deadline =>
    rw [schedStep]
    split
    · exact insertTimer_ordered _ h
    · exact h
  | lock w m =>
    rw [schedStep]
    split
    · rw [lockStep_timers]
      exact h
    · exact h
  | unlock w m =>
    rw [schedStep]
    split
    · rw [unlockStep_timers]
      exact h
    · exact h
  | take w now =>
    rw [schedStep]
    split
    · rw [takeStep_timers]
      exact wakeTimers_ordered now h s
    · exact h
  | reap w =>
    rw [schedStep]
    split
    · rw [reapStep_timers]
      exact h
    · exact h
  | _ =>
    rw [schedStep]
    split <;> exact h

theorem threadStep_ordered {s : Sched n k} (h : Ordered s.timers) (w : Fin n) (op : ThreadOp k) :
    Ordered (threadStep s w op).timers := by
  cases op with
  | work => exact schedStep_ordered h _
  | unlock m => exact schedStep_ordered h _
  | _ => exact schedStep_ordered (schedStep_ordered h _) _

theorem noThread_timers (s : Runtime n k) (w : Fin n) :
    (noThread s w).sched.timers = s.sched.timers := by
  rw [noThread]
  split_ifs <;> rfl

theorem workerTake_ordered {s : Runtime n k} (h : Ordered s.sched.timers) (w : Fin n) (now : ℕ) :
    Ordered (workerTake s w now).sched.timers := by
  have htake : Ordered (takeStep s.sched w now).timers := by
    rw [takeStep_timers]
    exact wakeTimers_ordered now h s.sched
  rw [workerTake]
  split_ifs
  · exact h
  · split
    · dsimp only
      split
      · exact htake
      · rw [noThread_timers]
        exact htake
    · exact h

theorem workerReap_ordered {s : Runtime n k} (h : Ordered s.sched.timers) (w : Fin n)
    (seen : GState) : Ordered (workerReap s w seen).sched.timers := by
  rw [workerReap]
  split
  · rw [finishDead]
    split_ifs <;> exact h
  · exact h

theorem mainCall_ordered {s : Runtime n k} (h : Ordered s.sched.timers) (op : MainOp k) :
    Ordered (mainCall s op).sched.timers := by
  cases op with
  | lock m =>
    rw [mainCall]
    split_ifs <;> exact h
  | unlock m =>
    rw [mainCall, unlockStep_timers]
    exact h
  | _ => exact h

theorem runtimeStep_ordered {s : Runtime n k} (h : Ordered s.sched.timers) (op : RuntimeOp n k) :
    Ordered (runtimeStep s op).sched.timers := by
  rw [runtimeStep]
  split_ifs
  · exact h
  cases op with
  | spawn caller g =>
    rw [liveStep, spawn]
    split_ifs
    · rw [spawnStep_timers]
      exact h
    · exact h
  | thread w op => exact threadStep_ordered h w op
  | exit w =>
    rw [liveStep, gExit]
    split
    · exact schedStep_ordered h _
    · exact h
  | take w now => exact workerTake_ordered h w now
  | switchIn w => exact schedStep_ordered h _
  | reap w seen => exact workerReap_ordered h w seen
  | main op =>
    rw [liveStep]
    split_ifs
    · exact mainCall_ordered h op
    · exact h
  | poll now reset =>
    rw [liveStep]
    split
    · rw [pollDrain]
      split_ifs <;> exact h
    · exact h
  | check =>
    rw [liveStep]
    split
    · rw [checkPending]
      split_ifs <;> exact h
    · exact h
  | _ =>
    rw [liveStep]
    split_ifs <;> exact h

end Order

section Waits
variable {n k : ℕ}

/-- What the clock has not reached yet has a positive timeout. -/
theorem waitFor_prompt_iff {timers : List Timer} (h : Ordered timers) (now : ℕ) :
    Prompt (waitFor timers now) ↔ ∀ t ∈ timers.head?, now < t.deadline := by
  cases timers with
  | nil => exact iff_of_true rfl (fun t ht => by cases ht)
  | cons first rest =>
    have hfirst := (List.pairwise_cons.1 h).left
    by_cases hdue : first.deadline ≤ now
    · have hwait : waitFor (first :: rest) now = ⟨first :: rest, now, none⟩ := by
        rw [waitFor, timerNextDeadline, if_pos hdue]
        rfl
      rw [hwait]
      refine iff_of_false (fun hempty => by cases hempty) (fun hall => ?_)
      have hnot := hall first rfl
      omega
    · have hwait : waitFor (first :: rest) now =
          ⟨first :: rest, now, some (first.deadline - now)⟩ := by
        rw [waitFor, timerNextDeadline, if_neg hdue, if_pos (by omega)]
      rw [hwait]
      refine iff_of_true (fun t ht => ?_) (fun t ht => ?_)
      · change now + (first.deadline - now) ≤ t.deadline
        rcases List.mem_cons.1 ht with rfl | ht
        · omega
        · have hlater := hfirst t ht
          omega
      · cases ht
        omega

theorem loopStep_look (s : Loops n k) (w : Fin n) (elapsed between : ℕ)
    (h : (looks s.runtime w &&
      mustWait s.runtime (wakeExpired s.runtime.sched (s.clock + elapsed))) = true) :
    (loopStep s (.look w elapsed between)).waits =
      waitFor (wakeExpired s.runtime.sched (s.clock + elapsed)).timers
        (s.clock + elapsed + between) :: s.waits := by
  rw [loopStep]
  exact if_pos h

theorem loopStep_ordered {s : Loops n k} (h : Ordered s.runtime.sched.timers) (op : LoopOp n k) :
    Ordered (loopStep s op).runtime.sched.timers := by
  cases op with
  | look w elapsed between => exact runtimeStep_ordered h _
  | step op elapsed =>
    cases op with
    | take w now => exact h
    | _ => exact runtimeStep_ordered h _

theorem step_waits (s : Loops n k) (op : RuntimeOp n k) (elapsed : ℕ) :
    (loopStep s (.step op elapsed)).waits = s.waits := by
  cases op <;> rfl

theorem loopStep_prompt {s : Loops n k} (h : Ordered s.runtime.sched.timers) (hs : AllPrompt s)
    (op : LoopOp n k) (hop : NoExpiry s op) : AllPrompt (loopStep s op) := by
  cases op with
  | look w elapsed between =>
    by_cases hwait : (looks s.runtime w &&
        mustWait s.runtime (wakeExpired s.runtime.sched (s.clock + elapsed))) = true
    · rw [AllPrompt, loopStep_look s w elapsed between hwait]
      obtain ⟨hlooks, hmust⟩ := Bool.and_eq_true_iff.1 hwait
      refine List.forall_mem_cons.2 ⟨?_, hs⟩
      exact (waitFor_prompt_iff (wakeTimers_ordered _ h _) _).2 (hop hlooks hmust)
    · rw [AllPrompt, loopStep]
      dsimp only
      rw [if_neg hwait]
      exact hs
  | step op elapsed =>
    rw [AllPrompt, step_waits]
    exact hs

theorem expiry_breaks {s : Loops n k} (h : Ordered s.runtime.sched.timers) (op : LoopOp n k)
    (hop : ¬NoExpiry s op) : ¬AllPrompt (loopStep s op) := by
  cases op with
  | look w elapsed between =>
    simp only [NoExpiry, Classical.not_imp] at hop
    obtain ⟨hlooks, hmust, hdue⟩ := hop
    intro hall
    rw [AllPrompt, loopStep_look s w elapsed between (Bool.and_eq_true_iff.2 ⟨hlooks, hmust⟩)]
      at hall
    have hprompt := hall _ List.mem_cons_self
    exact hdue ((waitFor_prompt_iff (wakeTimers_ordered _ h _) _).1 hprompt)
  | step op elapsed => exact absurd trivial hop

/-- In every run the workers wait no longer than to the earliest deadline exactly when no deadline
    passes between the two reads of the clock before a wait. -/
theorem waits_prompt_iff (n k : ℕ) (started : Fin n → Bool) (ops : List (LoopOp n k)) :
    Always loopStep AllPrompt (initLoops n k started) ops ↔
      EachStep loopStep NoExpiry (initLoops n k started) ops := by
  refine always_iff_eachStep
    (I := fun s : Loops n k => Ordered s.runtime.sched.timers ∧ AllPrompt s) (fun _ h => h.2)
    (fun s op h hop => ⟨loopStep_ordered h.1 op, loopStep_prompt h.1 h.2 op hop⟩)
    (fun s op h hop => expiry_breaks h.1 op hop) ops ⟨List.Pairwise.nil, ?_⟩
  exact fun r hr => absurd hr List.not_mem_nil

/-- A thread sleeps until 5. Its worker finds the timer pending at 4 and expired at 5, and waits
    without a timeout. -/
theorem expired_between_reads :
    ¬Always loopStep AllPrompt (initLoops 1 0 (fun _ => true))
      [.step (.spawn none 0) 0, .look 0 0 0, .step (.switchIn 0) 0, .step (.thread 0 (.sleep 5)) 0,
        .step (.reap 0 .waitTimer) 0, .look 0 4 1] := by
  rintro ⟨-, -, -, -, -, -, hall⟩
  have hwait : (⟨[⟨5, 0⟩], 5, none⟩ : Wait) ∈
      (loopStep (loopStep (loopStep (loopStep (loopStep (loopStep
        (initLoops 1 0 (fun _ => true)) (.step (.spawn none 0) 0)) (.look 0 0 0))
        (.step (.switchIn 0) 0)) (.step (.thread 0 (.sleep 5)) 0))
        (.step (.reap 0 .waitTimer) 0)) (.look 0 4 1)).waits := by decide
  have hprompt := hall _ hwait
  cases hprompt

end Waits

end NewClLang.TimedWaits
