import NewClLang.MainCalls

set_option autoImplicit false

/-!
# Deadlock reports

`__nc_scheduler_shutdown` and `__nc_scheduler_run` look at the run queue, the timers and the count
of live threads, and at no worker.
-/
namespace NewClLang.DeadlockReports
open SchedulerModel ContextSwitching RuntimeMachine ThreadPlaces ThreadLifecycle MainCalls
  TransitionRuns

variable {n k : ℕ}

/-- A live thread, none on a worker, none in the run queue and no timer. -/
structure Asleep (s : Runtime n k) : Prop where
  live : ∃ g ∈ s.submitted, g ∉ s.finished
  workers : ∀ w, held (s.sched.workers w) = 0
  runq : s.sched.runq = []
  timers : s.sched.timers = []

def TrueReport (s : Runtime n k) : Prop := s.crashed = some .deadlock → Asleep s

/-- Where the checks of the queues, the timers and the count pass, no worker has taken a thread
    that it has not given back; in `__nc_scheduler_run`, the run queue has stayed empty since the
    pop besides. -/
def NoneTaken (s : Runtime n k) : RuntimeOp n k → Prop
  | .poll now _ => s.ended = false → ∀ deadline, s.main = .draining deadline → now > deadline →
      s.sched.liveCount > 0 → s.sched.runq = [] → s.sched.timers = [] →
      ∀ w, held (s.sched.workers w) = 0
  | .check => s.ended = false → ∀ w, s.main = .inline w true → s.sched.timers = [] →
      s.sched.liveCount > 0 → s.sched.runq = [] ∧ ∀ w', held (s.sched.workers w') = 0
  | _ => True

theorem live_of_count {s : Runtime n k} (h : Kept s) (hlive : s.sched.liveCount > 0) :
    ∃ g ∈ s.submitted, g ∉ s.finished := by
  by_contra hall
  push Not at hall
  have hlength : s.submitted.length ≤ s.finished.length :=
    (List.subperm_of_subset h.nodup hall).length_le
  have hcount := h.count
  omega

theorem crashStep_report {s : Runtime n k} (h : Kept s) {op : RuntimeOp n k}
    (hc : CrashStep s op .deadlock) (hended : s.ended = false) (hop : NoneTaken s op) :
    Asleep s := by
  cases hc with
  | poll deadline now reset hmain hlive hnow hrunq htimers =>
    exact ⟨live_of_count h hlive, hop hended deadline hmain hnow hlive hrunq htimers, hrunq,
      htimers⟩
  | check w hmain htimers hlive =>
    obtain ⟨hrunq, hheld⟩ := hop hended w hmain htimers hlive
    exact ⟨live_of_count h hlive, hheld, hrunq, htimers⟩

theorem runtimeStep_report {s : Runtime n k} (h : Kept s) (ht : TrueReport s)
    (op : RuntimeOp n k) (hop : NoneTaken s op) : TrueReport (runtimeStep s op) := by
  cases hended : s.ended with
  | true =>
    rw [runtimeStep, hended, if_pos rfl]
    exact ht
  | false =>
    rcases runtimeStep_crashed hended op with hnone | ⟨c, hc, hs⟩
    · intro hdead
      rw [hnone] at hdead
      cases hdead
    · rw [hs]
      intro hdead
      obtain rfl : c = .deadlock := Option.some.inj hdead
      obtain ⟨hlive, hworkers, hrunq, htimers⟩ := crashStep_report h hc hended hop
      exact ⟨hlive, hworkers, hrunq, htimers⟩

theorem poll_crashes {s : Runtime n k} (hended : s.ended = false) {deadline now reset : ℕ}
    (hmain : s.main = .draining deadline) (hnow : now > deadline)
    (hlive : s.sched.liveCount > 0) (hrunq : s.sched.runq = []) (htimers : s.sched.timers = []) :
    runtimeStep s (.poll now reset) = s.crash .deadlock := by
  rw [runtimeStep, hended, if_neg Bool.false_ne_true]
  simp only [liveStep, hmain]
  rw [pollDrain, if_pos ⟨hlive, hnow⟩, if_pos ⟨hrunq, htimers⟩]

theorem check_crashes {s : Runtime n k} (hended : s.ended = false) {w : Fin n}
    (hmain : s.main = .inline w true) (htimers : s.sched.timers = [])
    (hlive : s.sched.liveCount > 0) : runtimeStep s .check = s.crash .deadlock := by
  rw [runtimeStep, hended, if_neg Bool.false_ne_true]
  simp only [liveStep, hmain]
  rw [checkPending, if_neg (not_not.mpr htimers), if_pos hlive]

theorem taken_breaks {s : Runtime n k} (op : RuntimeOp n k) (hop : ¬ NoneTaken s op) :
    ¬ TrueReport (runtimeStep s op) := by
  cases op with
  | poll now reset =>
    simp only [NoneTaken, Classical.not_imp, not_forall] at hop
    obtain ⟨hended, deadline, hmain, hnow, hlive, hrunq, htimers, w, hheld⟩ := hop
    rw [poll_crashes hended hmain hnow hlive hrunq htimers]
    exact fun ht => hheld ((ht rfl).workers w)
  | check =>
    simp only [NoneTaken, Classical.not_imp, not_forall] at hop
    obtain ⟨hended, w, hmain, htimers, hlive, hno⟩ := hop
    rw [check_crashes hended hmain htimers hlive]
    exact fun ht => hno ⟨(ht rfl).runq, (ht rfl).workers⟩
  | _ => exact absurd trivial hop

end NewClLang.DeadlockReports
