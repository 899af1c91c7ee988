import NewClLang.ThreadLifecycle

set_option autoImplicit false

/-!
# Calls from the main thread

`main` is called by the C entry function and not spawned, so its thread has no `current_worker`.
-/
namespace NewClLang.MainCalls
open SchedulerModel RuntimeMachine ThreadLifecycle TransitionRuns

variable {n k : ℕ}

/-- The steps that end the process, with the reason. -/
inductive CrashStep (s : Runtime n k) : RuntimeOp n k → Crash → Prop
  | finish (w : Fin n) (seen : GState) : CrashStep s (.reap w seen) .noLiveThread
  | lock (m : Fin k) (hbody : s.main = .body) (hlocked : (s.sched.mutexes m).locked = true) :
    CrashStep s (.main (.lock m)) .nullWorker
  | sleep (hbody : s.main = .body) : CrashStep s (.main .sleep) .outsideScheduler
  | yield (hbody : s.main = .body) : CrashStep s (.main .yield) .outsideScheduler
  | poll (deadline now reset : ℕ) (hmain : s.main = .draining deadline)
    (hlive : s.sched.liveCount > 0) (hnow : now > deadline) (hrunq : s.sched.runq = [])
    (htimers : s.sched.timers = []) : CrashStep s (.poll now reset) .deadlock
  | check (w : Fin n) (hmain : s.main = .inline w true) (htimers : s.sched.timers = [])
    (hlive : s.sched.liveCount > 0) : CrashStep s .check .deadlock

theorem running_of_not_ended {s : Runtime n k} (h : s.ended = false) : s.crashed = none := by
  rw [Runtime.ended, Bool.or_eq_false_iff] at h
  exact Option.not_isSome_iff_eq_none.mp (by rw [h.1]; exact Bool.false_ne_true)

theorem noThread_crashed (s : Runtime n k) (w : Fin n) : (noThread s w).crashed = s.crashed := by
  rw [noThread]
  split_ifs <;> rfl

theorem workerTake_crashed (s : Runtime n k) (w : Fin n) (now : ℕ) :
    (workerTake s w now).crashed = s.crashed := by
  rw [workerTake]
  split_ifs
  · rfl
  · cases s.sched.workers w with
    | idle =>
      simp only
      split
      · rfl
      · exact noThread_crashed _ w
    | _ => rfl

theorem runtimeStep_crashed {s : Runtime n k} (hended : s.ended = false) (op : RuntimeOp n k) :
    (runtimeStep s op).crashed = none ∨ ∃ c, CrashStep s op c ∧ runtimeStep s op = s.crash c := by
  have hnone := running_of_not_ended hended
  rw [runtimeStep, hended, if_neg Bool.false_ne_true]
  cases op with
  | spawn caller g =>
    rw [liveStep, spawn]
    split_ifs <;> exact Or.inl hnone
  | thread w op => exact Or.inl hnone
  | exit w =>
    rw [liveStep, gExit]
    split <;> exact Or.inl hnone
  | take w now => exact Or.inl ((workerTake_crashed s w now).trans hnone)
  | switchIn w => exact Or.inl hnone
  | reap w seen =>
    rw [liveStep]
    cases hw : s.sched.workers w with
    | returned g =>
      rcases workerReap_cases hw seen with ⟨-, hs⟩ | ⟨-, -, hs⟩ | ⟨-, -, hs⟩
      · exact Or.inl (hs ▸ hnone)
      · exact Or.inr ⟨_, .finish w seen, hs⟩
      · exact Or.inl (hs ▸ hnone)
    | _ =>
      simp only [workerReap, hw]
      exact Or.inl hnone
  | main op =>
    rw [liveStep]
    split_ifs with hbody
    · cases op with
      | lock m =>
        rw [mainCall]
        split_ifs with hlocked
        · exact Or.inr ⟨_, .lock m hbody hlocked, rfl⟩
        · exact Or.inl hnone
      | unlock m => exact Or.inl hnone
      | sleep => exact Or.inr ⟨_, .sleep hbody, rfl⟩
      | yield => exact Or.inr ⟨_, .yield hbody, rfl⟩
      | checkYield => exact Or.inl hnone
    · exact Or.inl hnone
  | shutdown now =>
    rw [liveStep]
    split_ifs <;> exact Or.inl hnone
  | poll now reset =>
    rw [liveStep]
    split
    · rename_i deadline hmain
      rw [pollDrain]
      split_ifs with hlate hempty
      · exact Or.inr ⟨_, .poll deadline now reset hmain hlate.1 hlate.2 hempty.1 hempty.2, rfl⟩
      · exact Or.inl hnone
      · exact Or.inl hnone
    · exact Or.inl hnone
  | join =>
    rw [liveStep]
    split_ifs <;> exact Or.inl hnone
  | run w =>
    rw [liveStep]
    split_ifs <;> exact Or.inl hnone
  | check =>
    rw [liveStep]
    split
    · rename_i w hmain
      rw [checkPending]
      split_ifs with htimers hlive
      · exact Or.inl hnone
      · exact Or.inr ⟨_, .check w hmain (not_not.mp htimers) hlive, rfl⟩
      · exact Or.inl hnone
    · exact Or.inl hnone

/-- The process has not ended in a call from outside the scheduler. -/
def Inside (s : Runtime n k) : Prop :=
  s.crashed ≠ some .outsideScheduler ∧ s.crashed ≠ some .nullWorker

/-- A call from the body of `main` returns, `lock` with the mutex. -/
def Completes (s : Runtime n k) : RuntimeOp n k → Prop
  | .main op => s.ended = false → s.main = .body →
      (runtimeStep s (.main op)).crashed = none ∧ (runtimeStep s (.main op)).main = .body ∧
      ∀ m, op = .lock m → ((runtimeStep s (.main op)).sched.mutexes m).locked = true
  | _ => True

/-- The main thread locks only a mutex that is free, and neither sleeps nor yields. -/
def MainNeverBlocks (s : Runtime n k) : RuntimeOp n k → Prop
  | .main (.lock m) => s.ended = false → s.main = .body → (s.sched.mutexes m).locked = false
  | .main .sleep | .main .yield => s.ended = false → s.main ≠ .body
  | _ => True

theorem crashStep_inside {s : Runtime n k} {op : RuntimeOp n k} {c : Crash}
    (hc : CrashStep s op c) (hended : s.ended = false) (hop : MainNeverBlocks s op) :
    c ≠ .outsideScheduler ∧ c ≠ .nullWorker := by
  cases hc with
  | finish w seen => exact ⟨by decide, by decide⟩
  | lock m hbody hlocked =>
    have hfree := hop hended hbody
    rw [hlocked] at hfree
    cases hfree
  | sleep hbody => exact absurd hbody (hop hended)
  | yield hbody => exact absurd hbody (hop hended)
  | poll deadline now reset hmain hlive hnow hrunq htimers => exact ⟨by decide, by decide⟩
  | check w hmain htimers hlive => exact ⟨by decide, by decide⟩

theorem runtimeStep_inside {s : Runtime n k} (h : Inside s) (op : RuntimeOp n k)
    (hop : MainNeverBlocks s op) : Inside (runtimeStep s op) := by
  cases hended : s.ended with
  | true =>
    rw [runtimeStep, hended, if_pos rfl]
    exact h
  | false =>
    rcases runtimeStep_crashed hended op with hnone | ⟨c, hc, hs⟩
    · constructor
      · rw [hnone]
        exact (Option.some_ne_none _).symm
      · rw [hnone]
        exact (Option.some_ne_none _).symm
    · obtain ⟨hout, hnull⟩ := crashStep_inside hc hended hop
      rw [hs]
      exact ⟨fun heq => hout (Option.some.inj heq), fun heq => hnull (Option.some.inj heq)⟩

theorem blocking_breaks {s : Runtime n k} (op : RuntimeOp n k) (hop : ¬ MainNeverBlocks s op) :
    ¬ Inside (runtimeStep s op) := by
  have hstep : ∀ call, s.ended = false → s.main = .body →
      runtimeStep s (.main call) = mainCall s call := by
    intro call hended hbody
    rw [runtimeStep, hended, if_neg Bool.false_ne_true, liveStep, if_pos hbody]
  cases op with
  | main call =>
    cases call with
    | lock m =>
      simp only [MainNeverBlocks, Classical.not_imp, Bool.not_eq_false] at hop
      obtain ⟨hended, hbody, hlocked⟩ := hop
      rw [hstep _ hended hbody, mainCall, if_pos hlocked]
      exact fun hinside => hinside.2 rfl
    | sleep =>
      simp only [MainNeverBlocks, Classical.not_imp, not_not] at hop
      rw [hstep _ hop.1 hop.2]
      exact fun hinside => hinside.1 rfl
    | yield =>
      simp only [MainNeverBlocks, Classical.not_imp, not_not] at hop
      rw [hstep _ hop.1 hop.2]
      exact fun hinside => hinside.1 rfl
    | _ => exact absurd trivial hop
  | _ => exact absurd trivial hop

theorem main_completes (s : Runtime n k) (op : RuntimeOp n k) (hop : MainNeverBlocks s op) :
    Completes s op := by
  cases op with
  | main call =>
    intro hended hbody
    have hnone := running_of_not_ended hended
    have hstep : runtimeStep s (.main call) = mainCall s call := by
      rw [runtimeStep, hended, if_neg Bool.false_ne_true, liveStep, if_pos hbody]
    rw [hstep]
    cases call with
    | lock m =>
      have hfree := hop hended hbody
      rw [mainCall, hfree, if_neg Bool.false_ne_true]
      refine ⟨hnone, hbody, fun m' heq => ?_⟩
      cases heq
      exact congrArg NcMutex.locked (setMutex_self s.sched m _)
    | unlock m => exact ⟨hnone, hbody, fun m' heq => by cases heq⟩
    | sleep => exact absurd hbody (hop hended)
    | yield => exact absurd hbody (hop hended)
    | checkYield => exact ⟨hnone, hbody, fun m' heq => by cases heq⟩
  | _ => trivial

/-- In every run, no call from `main` ends the process outside the scheduler and each completes,
    exactly when `main` never calls `sleep` or `yield` and locks only a mutex that is free. -/
theorem main_calls_safe_iff (n k : ℕ) (started : Fin n → Bool) (ops : List (RuntimeOp n k)) :
    (Always runtimeStep Inside (initRuntime n k started) ops ∧
      EachStep runtimeStep Completes (initRuntime n k started) ops) ↔
      EachStep runtimeStep MainNeverBlocks (initRuntime n k started) ops := by
  have hinit : Inside (initRuntime n k started) := by
    constructor
    · exact (Option.some_ne_none _).symm
    · exact (Option.some_ne_none _).symm
  have hiff : Always runtimeStep Inside (initRuntime n k started) ops ↔
      EachStep runtimeStep MainNeverBlocks (initRuntime n k started) ops :=
    always_iff_eachStep (I := Inside) (fun _ h => h) (fun _ op h => runtimeStep_inside h op)
      (fun _ op _ => blocking_breaks op) ops hinit
  constructor
  · exact fun h => hiff.mp h.1
  · intro h
    refine ⟨hiff.mpr h, ?_⟩
    exact EachStep.imp (I := Inside) (fun _ op hs => runtimeStep_inside hs op)
      (fun s op _ => main_completes s op) hinit h

/-- A green thread has locked the mutex when `main` calls `lock`. -/
theorem main_lock_contended :
    ¬ (Always runtimeStep Inside (initRuntime 1 1 fun _ => true)
        [.spawn none 0, .take 0 0, .switchIn 0, .thread 0 (.lock 0), .main (.lock 0)] ∧
      EachStep runtimeStep Completes (initRuntime 1 1 fun _ => true)
        [.spawn none 0, .take 0 0, .switchIn 0, .thread 0 (.lock 0), .main (.lock 0)]) := by
  rintro ⟨⟨-, -, -, -, -, hlast⟩, -⟩
  exact hlast.2 rfl

end NewClLang.MainCalls
