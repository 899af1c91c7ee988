import NewClLang.RuntimeMachine
import NewClLang.TransitionRuns
import Mathlib.Tactic.SplitIfs

set_option autoImplicit false

/-!
# Joining the workers

The end of `__nc_scheduler_shutdown`: once no thread is live, the main thread reads how many workers
have not left their loop, joins as many handles, from the first on, and frees the handles.
-/
namespace NewClLang.WorkerJoin
open SchedulerModel RuntimeMachine TransitionRuns

/-- The main thread after the drain, with the number of handles that it joins. -/
inductive Joiner where
  | before
  | joining (workers next : ℕ)
  | returned (workers : ℕ)
  deriving DecidableEq, Repr

/-- A program with `n` workers: `sched.live_workers`, which OS threads have terminated, and the
    handles that have been joined. -/
structure Process (n k : ℕ) where
  runtime : Runtime n k
  liveWorkers : ℕ
  joiner : Joiner
  terminated : Fin n → Bool
  joined : List ℕ

/-- After `__nc_scheduler_init`. -/
def initProcess (n k : ℕ) : Process n k :=
  ⟨initRuntime n k (fun _ => true), n, .before, fun _ => false, []⟩

inductive ProcessOp (n k : ℕ) where
  | runtime (op : RuntimeOp n k)
  | terminate (w : Fin n)
  | join

section Steps
variable {n k : ℕ}

/-- A compiled `main` does not call `__nc_scheduler_run`, and joins in steps of its own. -/
def ofMain : RuntimeOp n k → Bool
  | .run _ => false
  | .join => false
  | _ => true

/-- The worker that has left its loop in a step. -/
def leaves (s s' : Runtime n k) : RuntimeOp n k → Bool
  | .take w _ => !s.stopped w && s'.stopped w
  | _ => false

/-- The end of the critical section of the drain. -/
def reads (s s' : Runtime n k) : Bool := decide (s.main ≠ .joining ∧ s'.main = .joining)

def advance (s : Process n k) (op : RuntimeOp n k) : Process n k :=
  let runtime := runtimeStep s.runtime op
  { s with
    runtime := runtime
    liveWorkers := if leaves s.runtime runtime op then s.liveWorkers - 1 else s.liveWorkers
    joiner := if reads s.runtime runtime then .joining s.liveWorkers 0 else s.joiner }

/-- One call of `pthread_join`, or the return. -/
def joinNext (s : Process n k) : Process n k :=
  match s.joiner with
  | .joining workers next =>
    if next < workers then
      if ∃ w : Fin n, w.val = next ∧ s.terminated w = true then
        { s with joiner := .joining workers (next + 1), joined := s.joined ++ [next] }
      else s
    else { s with joiner := .returned workers }
  | _ => s

def processStep (s : Process n k) : ProcessOp n k → Process n k
  | .runtime op => if ofMain op then advance s op else s
  | .terminate w =>
    if s.runtime.stopped w then { s with terminated := Function.update s.terminated w true } else s
  | .join => joinNext s

end Steps

section Properties
variable {n k : ℕ}

def Returned (s : Process n k) : Prop := ∃ workers, s.joiner = .returned workers

/-- Every worker has terminated and its handle has been joined once. -/
structure AllJoined (s : Process n k) : Prop where
  terminated : ∀ w, s.terminated w = true
  once : ∀ w : Fin n, s.joined.count w.val = 1

/-- No worker has left its loop when the main thread reads how many there are. -/
def NoneLeft (s : Process n k) : ProcessOp n k → Prop
  | .runtime op => ofMain op = true → reads s.runtime (runtimeStep s.runtime op) = true →
      ∀ w, s.runtime.stopped w = false
  | _ => True

/-- How far the main thread has come with joining. -/
def Progress (s : Process n k) : Prop :=
  match s.joiner with
  | .before => s.runtime.main ≠ .joining ∧ s.joined = []
  | .joining workers next =>
    s.runtime.main = .joining ∧ next ≤ workers ∧ workers ≤ n ∧ s.joined = List.range next ∧
      ∀ w : Fin n, w.val < next → s.terminated w = true
  | .returned workers =>
    s.runtime.main = .joining ∧ workers ≤ n ∧ s.joined = List.range workers ∧
      ∀ w : Fin n, w.val < workers → s.terminated w = true

/-- The invariant: `live_workers` counts the workers that have not left. -/
structure Accounted (s : Process n k) : Prop where
  inline : ∀ w empty, s.runtime.main ≠ .inline w empty
  count : s.liveWorkers + (Finset.univ.filter (fun w => s.runtime.stopped w = true)).card = n
  progress : Progress s

end Properties

section Runtime
variable {n k : ℕ}

/-- What a step of the runtime does to the main thread. -/
inductive MainMoves (s s' : Runtime n k) : Prop where
  | stays (h : s'.main = s.main)
  | drains (hbefore : s.main ≠ .joining) (deadline : ℕ) (h : s'.main = .draining deadline)
  | joins (hbefore : s.main ≠ .joining) (h : s'.main = .joining)

theorem drain_moves (s : Runtime n k) {accepting : Bool} (deadline : ℕ) (h : s.main ≠ .joining) :
    MainMoves s (drain { s with accepting := accepting } deadline) := by
  by_cases hlive : s.sched.liveCount > 0
  · exact .drains h deadline (by rw [drain, if_pos hlive])
  · exact .joins h (by rw [drain, if_neg hlive])

theorem noThread_main {s : Runtime n k} (h : ∀ w empty, s.main ≠ .inline w empty) (w : Fin n) :
    (noThread s w).main = s.main := by
  have hno : ¬∃ empty, s.main = .inline w empty := fun ⟨empty, hmain⟩ => h w empty hmain
  rw [noThread, if_neg hno]
  split_ifs <;> rfl

theorem noThread_stopped {s : Runtime n k} (h : ∀ w empty, s.main ≠ .inline w empty) (w : Fin n) :
    (noThread s w).stopped = s.stopped ∨
      (noThread s w).stopped = Function.update s.stopped w true := by
  have hno : ¬∃ empty, s.main = .inline w empty := fun ⟨empty, hmain⟩ => h w empty hmain
  rw [noThread, if_neg hno]
  split_ifs
  · exact Or.inr rfl
  · exact Or.inl rfl

theorem workerTake_main {s : Runtime n k} (h : ∀ w empty, s.main ≠ .inline w empty) (w : Fin n)
    (now : ℕ) : (workerTake s w now).main = s.main := by
  rw [workerTake]
  split_ifs
  · rfl
  · split
    · dsimp only
      split
      · rfl
      · exact noThread_main (s := { s with sched := takeStep s.sched w now }) h w
    · rfl

theorem workerTake_stopped {s : Runtime n k} (h : ∀ w empty, s.main ≠ .inline w empty) (w : Fin n)
    (now : ℕ) : (workerTake s w now).stopped = s.stopped ∨
      (s.stopped w = false ∧ (workerTake s w now).stopped = Function.update s.stopped w true) := by
  rw [workerTake]
  split_ifs with hno
  · exact Or.inl rfl
  · have hw : s.stopped w = false := by
      cases hw : s.stopped w with
      | false => rfl
      | true => exact absurd (Or.inl hw) hno
    split
    · dsimp only
      split
      · exact Or.inl rfl
      · exact (noThread_stopped (s := { s with sched := takeStep s.sched w now }) h w).imp_right
          (fun hstopped => ⟨hw, hstopped⟩)
    · exact Or.inl rfl

theorem runtimeStep_moves {s : Runtime n k} (h : ∀ w empty, s.main ≠ .inline w empty)
    {op : RuntimeOp n k} (hop : ofMain op = true) : MainMoves s (runtimeStep s op) := by
  rw [runtimeStep]
  split_ifs
  · exact .stays rfl
  cases op with
  | spawn caller g =>
    rw [liveStep, spawn]
    split_ifs
    · exact .stays rfl
    · exact .stays rfl
  | exit w =>
    rw [liveStep, gExit]
    split
    · exact .stays rfl
    · exact .stays rfl
  | take w now => exact .stays (workerTake_main h w now)
  | reap w seen =>
    rw [liveStep, workerReap]
    split
    · rw [finishDead]
      split_ifs <;> exact .stays rfl
    · exact .stays rfl
  | main op =>
    rw [liveStep]
    split_ifs
    · cases op with
      | lock m =>
        rw [mainCall]
        split_ifs <;> exact .stays rfl
      | _ => exact .stays rfl
    · exact .stays rfl
  | shutdown now =>
    rw [liveStep]
    split_ifs with hbody
    · exact drain_moves s _ (by rw [hbody]; exact fun hno => by cases hno)
    · exact .stays rfl
  | poll now reset =>
    rw [liveStep]
    split
    · rename_i deadline hmain
      have hbefore : s.main ≠ .joining := by
        rw [hmain]
        exact fun hno => by cases hno
      rw [pollDrain]
      split_ifs
      · exact .stays rfl
      · exact drain_moves s _ hbefore
      · exact drain_moves s _ hbefore
    · exact .stays rfl
  | run w => cases hop
  | join => cases hop
  | check =>
    rw [liveStep]
    split
    · rename_i w hmain
      exact absurd hmain (h w true)
    · exact .stays rfl
  | _ => exact .stays rfl

/-- The only step in which a worker leaves its loop is its own. -/
theorem runtimeStep_stopped {s : Runtime n k} (h : ∀ w empty, s.main ≠ .inline w empty)
    {op : RuntimeOp n k} (hop : ofMain op = true) : (runtimeStep s op).stopped = s.stopped ∨
      ∃ w now, op = .take w now ∧ s.stopped w = false ∧
        (runtimeStep s op).stopped = Function.update s.stopped w true := by
  rw [runtimeStep]
  split_ifs
  · exact Or.inl rfl
  cases op with
  | spawn caller g =>
    rw [liveStep, spawn]
    split_ifs <;> exact Or.inl rfl
  | exit w =>
    rw [liveStep, gExit]
    split <;> exact Or.inl rfl
  | take w now =>
    exact (workerTake_stopped h w now).imp_right (fun hstopped => ⟨w, now, rfl, hstopped⟩)
  | reap w seen =>
    rw [liveStep, workerReap]
    split
    · rw [finishDead]
      split_ifs <;> exact Or.inl rfl
    · exact Or.inl rfl
  | main op =>
    rw [liveStep]
    split_ifs
    · cases op with
      | lock m =>
        rw [mainCall]
        split_ifs <;> exact Or.inl rfl
      | _ => exact Or.inl rfl
    · exact Or.inl rfl
  | shutdown now =>
    rw [liveStep]
    split_ifs <;> exact Or.inl rfl
  | poll now reset =>
    rw [liveStep]
    split
    · rw [pollDrain]
      split_ifs <;> exact Or.inl rfl
    · exact Or.inl rfl
  | run w => cases hop
  | join => cases hop
  | check =>
    rw [liveStep]
    split
    · rename_i w hmain
      exact absurd hmain (h w true)
    · exact Or.inl rfl
  | _ => exact Or.inl rfl

end Runtime

section Counting
variable {n k : ℕ}

theorem card_update (stopped : Fin n → Bool) {w : Fin n} (hw : stopped w = false) :
    (Finset.univ.filter (fun x => Function.update stopped w true x = true)).card =
      (Finset.univ.filter (fun x => stopped x = true)).card + 1 := by
  have hinsert : Finset.univ.filter (fun x => Function.update stopped w true x = true) =
      insert w (Finset.univ.filter (fun x => stopped x = true)) := by
    ext x
    by_cases hx : x = w
    · simp [hx]
    · simp [hx]
  rw [hinsert, Finset.card_insert_of_notMem]
  simp [hw]

theorem leaves_same {s s' : Runtime n k} (h : s'.stopped = s.stopped) (op : RuntimeOp n k) :
    leaves s s' op = false := by
  cases op with
  | take w now =>
    rw [leaves, h]
    cases s.stopped w <;> rfl
  | _ => rfl

theorem advance_count {s : Process n k} (h : Accounted s) {op : RuntimeOp n k}
    (hop : ofMain op = true) :
    (advance s op).liveWorkers +
      (Finset.univ.filter (fun w => (advance s op).runtime.stopped w = true)).card = n := by
  have hcount := h.count
  change (if leaves s.runtime (runtimeStep s.runtime op) op then s.liveWorkers - 1
    else s.liveWorkers) + (Finset.univ.filter
      (fun w => (runtimeStep s.runtime op).stopped w = true)).card = n
  rcases runtimeStep_stopped h.inline hop with hsame | ⟨w, now, rfl, hw, hstopped⟩
  · rw [leaves_same hsame, hsame]
    exact hcount
  · have hleaves : leaves s.runtime (runtimeStep s.runtime (.take w now)) (.take w now) = true := by
      rw [leaves, hstopped, hw, Function.update_self]
      rfl
    have hcard := card_update s.runtime.stopped hw
    have hle := Finset.card_le_univ
      (Finset.univ.filter (fun x => Function.update s.runtime.stopped w true x = true))
    rw [Fintype.card_fin] at hle
    rw [hleaves, if_pos rfl, hstopped, hcard]
    omega

theorem reads_iff {s s' : Runtime n k} :
    reads s s' = true ↔ s.main ≠ .joining ∧ s'.main = .joining := decide_eq_true_iff

theorem advance_reads {s : Process n k} {op : RuntimeOp n k}
    (h : reads s.runtime (runtimeStep s.runtime op) = true) :
    (advance s op).joiner = .joining s.liveWorkers 0 := if_pos h

theorem advance_same {s : Process n k} {op : RuntimeOp n k}
    (h : reads s.runtime (runtimeStep s.runtime op) = false) : (advance s op).joiner = s.joiner :=
  if_neg (by rw [h]; exact Bool.false_ne_true)

/-- The main thread reads once. -/
theorem before_of_reads {s : Process n k} (h : Accounted s) {op : RuntimeOp n k}
    (hreads : reads s.runtime (runtimeStep s.runtime op) = true) :
    s.joiner = .before ∧ s.joined = [] := by
  have hmain := (reads_iff.1 hreads).left
  have hprogress := h.progress
  rw [Progress] at hprogress
  cases hjoiner : s.joiner with
  | before =>
    rw [hjoiner] at hprogress
    exact ⟨rfl, hprogress.right⟩
  | joining workers next =>
    rw [hjoiner] at hprogress
    exact absurd hprogress.left hmain
  | returned workers =>
    rw [hjoiner] at hprogress
    exact absurd hprogress.left hmain

theorem joining_stays {s s' : Runtime n k} (h : MainMoves s s') (hmain : s.main = .joining) :
    s'.main = .joining := by
  cases h with
  | stays h => exact h.trans hmain
  | drains hbefore deadline h => exact absurd hmain hbefore
  | joins hbefore h => exact h

theorem advance_progress {s : Process n k} (h : Accounted s) {op : RuntimeOp n k}
    (hop : ofMain op = true) : Progress (advance s op) := by
  have hmoves := runtimeStep_moves h.inline hop
  cases hreads : reads s.runtime (runtimeStep s.runtime op) with
  | true =>
    have hcount := h.count
    rw [Progress, advance_reads hreads]
    refine ⟨(reads_iff.1 hreads).right, Nat.zero_le _, ?_, ?_, ?_⟩
    · omega
    · exact (before_of_reads h hreads).right
    · exact fun w hw => absurd hw (Nat.not_lt_zero _)
  | false =>
    have hprogress := h.progress
    rw [Progress] at hprogress ⊢
    rw [advance_same hreads]
    cases hjoiner : s.joiner with
    | before =>
      rw [hjoiner] at hprogress
      refine ⟨fun hjoining => ?_, hprogress.right⟩
      exact Bool.false_ne_true (hreads.symm.trans (reads_iff.2 ⟨hprogress.left, hjoining⟩))
    | joining workers next =>
      rw [hjoiner] at hprogress
      exact ⟨joining_stays hmoves hprogress.left, hprogress.right⟩
    | returned workers =>
      rw [hjoiner] at hprogress
      exact ⟨joining_stays hmoves hprogress.left, hprogress.right⟩

theorem advance_accounted {s : Process n k} (h : Accounted s) {op : RuntimeOp n k}
    (hop : ofMain op = true) : Accounted (advance s op) where
  inline w empty hmain := by
    change (runtimeStep s.runtime op).main = .inline w empty at hmain
    cases runtimeStep_moves h.inline hop with
    | stays hsame => exact h.inline w empty (hsame.symm.trans hmain)
    | drains hbefore deadline hdrains =>
      rw [hdrains] at hmain
      cases hmain
    | joins hbefore hjoins =>
      rw [hjoins] at hmain
      cases hmain
  count := advance_count h hop
  progress := advance_progress h hop

theorem joinNext_accounted {s : Process n k} (h : Accounted s) : Accounted (joinNext s) := by
  have hprogress := h.progress
  rw [Progress] at hprogress
  rw [joinNext]
  cases hjoiner : s.joiner with
  | before => exact h
  | returned workers => exact h
  | joining workers next =>
    rw [hjoiner] at hprogress
    obtain ⟨hmain, hnext, hworkers, hjoined, hterminated⟩ := hprogress
    dsimp only
    split_ifs with hless hready
    · obtain ⟨w, hw, hdone⟩ := hready
      refine ⟨h.inline, h.count, hmain, hless, hworkers, ?_, fun w' hw' => ?_⟩
      · rw [List.range_succ, ← hjoined]
      · rcases Nat.lt_succ_iff_lt_or_eq.1 hw' with hw' | hw'
        · exact hterminated w' hw'
        · rwa [Fin.ext (hw'.trans hw.symm)]
    · exact h
    · obtain rfl : next = workers := Nat.le_antisymm hnext (Nat.le_of_not_lt hless)
      exact ⟨h.inline, h.count, hmain, hworkers, hjoined, hterminated⟩

theorem terminate_accounted {s : Process n k} (h : Accounted s) (w : Fin n) :
    Accounted { s with terminated := Function.update s.terminated w true } := by
  have hmono : ∀ w', s.terminated w' = true → Function.update s.terminated w true w' = true := by
    intro w' hw'
    by_cases heq : w' = w
    · rw [heq, Function.update_self]
    · rwa [Function.update_of_ne heq]
  have hprogress := h.progress
  rw [Progress] at hprogress
  refine ⟨h.inline, h.count, ?_⟩
  rw [Progress]
  cases hjoiner : s.joiner with
  | before =>
    rw [hjoiner] at hprogress
    exact hprogress
  | joining workers next =>
    rw [hjoiner] at hprogress
    obtain ⟨hmain, hnext, hworkers, hjoined, hterminated⟩ := hprogress
    exact ⟨hmain, hnext, hworkers, hjoined, fun w' hw' => hmono w' (hterminated w' hw')⟩
  | returned workers =>
    rw [hjoiner] at hprogress
    obtain ⟨hmain, hworkers, hjoined, hterminated⟩ := hprogress
    exact ⟨hmain, hworkers, hjoined, fun w' hw' => hmono w' (hterminated w' hw')⟩

theorem processStep_accounted {s : Process n k} (h : Accounted s) (op : ProcessOp n k) :
    Accounted (processStep s op) := by
  cases op with
  | runtime op =>
    rw [processStep]
    split_ifs with hop
    · exact advance_accounted h hop
    · exact h
  | terminate w =>
    rw [processStep]
    split_ifs
    · exact terminate_accounted h w
    · exact h
  | join => exact joinNext_accounted h

theorem initProcess_accounted (n k : ℕ) : Accounted (initProcess n k) where
  inline w empty hmain := by cases hmain
  count := by simp [initProcess, initRuntime]
  progress := ⟨(fun hmain => by cases hmain), rfl⟩

end Counting

section Shutdown
variable {n k : ℕ}

/-- How many handles the main thread joins, once it has read it. -/
def toJoin : Joiner → Option ℕ
  | .before => none
  | .joining workers _ => some workers
  | .returned workers => some workers

def run (s : Process n k) (ops : List (ProcessOp n k)) : Process n k := ops.foldl processStep s

theorem run_accounted {s : Process n k} (h : Accounted s) (ops : List (ProcessOp n k)) :
    Accounted (run s ops) := by
  induction ops generalizing s with
  | nil => exact h
  | cons op rest ih => exact ih (processStep_accounted h op)

/-- A step in which the main thread does not read leaves the number as it is. -/
theorem toJoin_processStep {s : Process n k} (op : ProcessOp n k)
    (h : ∀ op', op = .runtime op' → ofMain op' = true →
      reads s.runtime (runtimeStep s.runtime op') = false) :
    toJoin (processStep s op).joiner = toJoin s.joiner := by
  cases op with
  | runtime op =>
    rw [processStep]
    split_ifs with hop
    · rw [advance_same (h op rfl hop)]
    · rfl
  | terminate w =>
    rw [processStep]
    split_ifs <;> rfl
  | join =>
    rw [processStep, joinNext]
    cases hjoiner : s.joiner with
    | joining workers next =>
      dsimp only
      split_ifs
      · rfl
      · rw [hjoiner]
      · rfl
    | _ => exact congrArg toJoin hjoiner

theorem not_reads_again {s : Process n k} (h : Accounted s) {workers : ℕ}
    (hworkers : toJoin s.joiner = some workers) (op : RuntimeOp n k) :
    reads s.runtime (runtimeStep s.runtime op) = false := by
  cases hreads : reads s.runtime (runtimeStep s.runtime op) with
  | false => rfl
  | true =>
    rw [(before_of_reads h hreads).left] at hworkers
    cases hworkers

/-- Once it has been read the number stays, and no step has a condition any more. -/
theorem run_read {s : Process n k} (h : Accounted s) {workers : ℕ}
    (hworkers : toJoin s.joiner = some workers) (ops : List (ProcessOp n k)) :
    toJoin (run s ops).joiner = some workers ∧ EachStep processStep NoneLeft s ops := by
  induction ops generalizing s with
  | nil => exact ⟨hworkers, trivial⟩
  | cons op rest ih =>
    have hnext : toJoin (processStep s op).joiner = some workers :=
      (toJoin_processStep op (fun op' _ _ => not_reads_again h hworkers op')).trans hworkers
    obtain ⟨hfinal, hrest⟩ := ih (processStep_accounted h op) hnext
    refine ⟨hfinal, ?_, hrest⟩
    cases op with
    | runtime op =>
      intro _ hreads
      rw [not_reads_again h hworkers op] at hreads
      cases hreads
    | _ => trivial

theorem all_running_iff {s : Process n k} (h : Accounted s) :
    s.liveWorkers = n ↔ ∀ w, s.runtime.stopped w = false := by
  have hcount := h.count
  have hempty : (Finset.univ.filter (fun w => s.runtime.stopped w = true)).card = 0 ↔
      ∀ w, s.runtime.stopped w = false := by
    rw [Finset.card_eq_zero, Finset.filter_eq_empty_iff]
    exact ⟨fun hall w => Bool.not_eq_true _ ▸ hall (Finset.mem_univ w),
      fun hall w _ => by rw [hall w]; exact Bool.false_ne_true⟩
  rw [← hempty]
  omega

/-- The main thread joins every handle exactly when no worker had left as it read. -/
theorem joins_all_iff {s : Process n k} (h : Accounted s) (hbefore : toJoin s.joiner = none)
    (ops : List (ProcessOp n k)) {workers : ℕ} (hfinal : toJoin (run s ops).joiner = some workers) :
    workers = n ↔ EachStep processStep NoneLeft s ops := by
  induction ops generalizing s with
  | nil =>
    rw [run, List.foldl_nil, hbefore] at hfinal
    cases hfinal
  | cons op rest ih =>
    by_cases hread : ∃ op', op = .runtime op' ∧ ofMain op' = true ∧
        reads s.runtime (runtimeStep s.runtime op') = true
    · obtain ⟨op', rfl, hop, hreads⟩ := hread
      have hstep : processStep s (.runtime op') = advance s op' := by
        rw [processStep, if_pos hop]
      have hnext : toJoin (processStep s (.runtime op')).joiner = some s.liveWorkers := by
        rw [hstep, advance_reads hreads]
        rfl
      obtain ⟨hlast, hrest⟩ := run_read (processStep_accounted h (.runtime op')) hnext rest
      obtain rfl : s.liveWorkers = workers := Option.some.inj (hlast.symm.trans hfinal)
      rw [all_running_iff h]
      exact ⟨fun hall => ⟨fun _ _ => hall, hrest⟩, fun hsteps => hsteps.1 hop hreads⟩
    · have hno : ∀ op', op = .runtime op' → ofMain op' = true →
          reads s.runtime (runtimeStep s.runtime op') = false := by
        intro op' heq hop
        rw [← Bool.not_eq_true]
        exact fun hreads => hread ⟨op', heq, hop, hreads⟩
      have hnext := (toJoin_processStep op hno).trans hbefore
      rw [ih (processStep_accounted h op) hnext hfinal]
      refine ⟨fun hrest => ⟨?_, hrest⟩, fun hsteps => hsteps.2⟩
      cases op with
      | runtime op =>
        intro hop hreads
        rw [hno op rfl hop] at hreads
        cases hreads
      | _ => trivial

theorem allJoined_iff {s : Process n k} (h : Accounted s) {workers : ℕ}
    (hreturned : s.joiner = .returned workers) : AllJoined s ↔ workers = n := by
  have hprogress := h.progress
  rw [Progress, hreturned] at hprogress
  obtain ⟨-, hworkers, hjoined, hterminated⟩ := hprogress
  have hcount : ∀ i, s.joined.count i = if i < workers then 1 else 0 := by
    intro i
    rw [hjoined, List.count_range]
  constructor
  · intro hall
    by_contra hne
    have hless : workers < n := by omega
    have honce := hall.once ⟨workers, hless⟩
    rw [hcount, if_neg (Nat.lt_irrefl workers)] at honce
    cases honce
  · rintro rfl
    exact ⟨fun w => hterminated w w.isLt, fun w => by rw [hcount, if_pos w.isLt]⟩

/-- When `__nc_scheduler_shutdown` has returned, all workers have terminated and have been joined
    exactly when no worker had left its loop as the main thread read how many there are. -/
theorem shutdown_joins_iff (n k : ℕ) (ops : List (ProcessOp n k))
    (hreturned : Returned (run (initProcess n k) ops)) :
    AllJoined (run (initProcess n k) ops) ↔
      EachStep processStep NoneLeft (initProcess n k) ops := by
  obtain ⟨workers, hworkers⟩ := hreturned
  have haccounted := initProcess_accounted n k
  rw [allJoined_iff (run_accounted haccounted ops) hworkers]
  apply joins_all_iff haccounted rfl
  rw [hworkers]
  rfl

theorem one_worker_joined :
    AllJoined (run (initProcess 1 0)
        [.runtime (.shutdown 0), .runtime (.take 0 0), .terminate 0, .join, .join]) ↔
      EachStep processStep NoneLeft (initProcess 1 0)
        [.runtime (.shutdown 0), .runtime (.take 0 0), .terminate 0, .join, .join] :=
  shutdown_joins_iff 1 0 _ ⟨1, by decide⟩

/-- Worker 0 leaves while worker 1 runs the last thread. The main thread joins one handle, that of
    worker 0, and returns while worker 1 is still in its loop. -/
theorem early_leaver_not_joined :
    ¬∀ (n k : ℕ) (ops : List (ProcessOp n k)), Returned (run (initProcess n k) ops) →
      AllJoined (run (initProcess n k) ops) := by
  intro h
  have hall := h 2 0
    [.runtime (.spawn none 0), .runtime (.take 1 0), .runtime (.switchIn 1),
      .runtime (.shutdown 0), .runtime (.take 0 0), .terminate 0, .runtime (.exit 1),
      .runtime (.reap 1 .dead), .runtime (.poll 0 0), .join, .join] ⟨1, by decide⟩
  have hrunning := hall.terminated 1
  revert hrunning
  decide

end Shutdown

end NewClLang.WorkerJoin
