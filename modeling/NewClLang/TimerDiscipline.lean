import NewClLang.TimedWaits
import NewClLang.TimerLinks
import NewClLang.TimerPlaces

set_option autoImplicit false

/-!
# The discipline of the timers

The scheduler with its timers in memory and a clock. In every run the list is sorted, holds each
sleeping thread once, and gives no thread away before its deadline.
-/
namespace NewClLang.TimerDiscipline
open SchedulerModel ContextSwitching TimedWaits TimerLinks TimerPlaces

section System
variable {n k : ℕ}

/-- The scheduler, whose timers are nodes in memory: the field `timers` of `sched` is not used. The
    timers that are pending, in the order in which they were inserted, are written down beside. -/
structure TimerSystem (n k : ℕ) where
  sched : Sched n k
  heap : TimerHeap
  clock : ℕ
  pending : List Timer

def initTimers (n k clock : ℕ) : TimerSystem n k :=
  ⟨initSched n k, ⟨none, fun _ => none⟩, clock, []⟩

inductive TimerOp (n k : ℕ) where
  | tick (elapsed : ℕ)
  /-- `__nc_sleep(ms)`: the clock was read a while ago, and `malloc` returns the address. -/
  | sleep (w : Fin n) (ago ms address : ℕ)
  | wake
  | pop (w : Fin n)
  /-- A step that has nothing to do with timers. -/
  | other (op : SchedOp n k)

def touchesTimers : SchedOp n k → Bool
  | .sleep _ _ | .take _ _ => true
  | _ => false

/-- One step, all of it under the lock. `malloc` does not return a block that is allocated. -/
def timerStep (fuel : ℕ) (s : TimerSystem n k) : TimerOp n k → Option (TimerSystem n k)
  | .tick elapsed => some { s with clock := s.clock + elapsed }
  | .sleep w ago ms address =>
    match s.sched.workers w with
    | .running g pos =>
      if (s.heap.nodes address).isSome then some s
      else
        let deadline := s.clock - ago + ms
        match insertNode fuel s.heap address (deadline % 2 ^ 64) g with
        | none => none
        | some heap =>
          some
            { s with
              heap := heap
              sched := s.sched.leave w g pos .waitTimer
              pending := s.pending ++ [⟨deadline, g⟩] }
    | _ => some s
  | .wake =>
    match wakeNodes s.clock fuel s.heap s.sched with
    | none => none
    | some (heap, sched) =>
      some
        { s with
          heap := heap
          sched := sched
          pending := s.pending.filter (fun t => s.clock < t.deadline) }
  | .pop w =>
    match s.sched.workers w with
    | .idle => some { s with sched := popStep s.sched w }
    | _ => some s
  | .other op =>
    if touchesTimers op then some s else some { s with sched := schedStep s.sched op }

def runTimers (fuel : ℕ) : TimerSystem n k → List (TimerOp n k) → Option (TimerSystem n k)
  | s, [] => some s
  | s, op :: ops =>
    match timerStep fuel s op with
    | none => none
    | some s => runTimers fuel s ops

def opClock (clock : ℕ) : TimerOp n k → ℕ
  | .tick elapsed => clock + elapsed
  | _ => clock

/-- No deadline is beyond the range of the clock. -/
def Fits : ℕ → List (TimerOp n k) → Prop
  | _, [] => True
  | clock, op :: ops =>
    (∀ w ago ms address, op = .sleep w ago ms address → clock - ago + ms < 2 ^ 64) ∧
      Fits (opClock clock op) ops

end System

section Lists
variable {n k : ℕ} {timers : List Timer}

theorem filter_insertTimer (h : Ordered timers) (t : Timer) (d : ℕ) :
    (insertTimer t timers).filter (fun t => t.deadline = d) =
      timers.filter (fun t => t.deadline = d) ++ [t].filter (fun t => t.deadline = d) := by
  induction timers with
  | nil => rfl
  | cons first rest ih =>
    obtain ⟨hfirst, hrest⟩ := List.pairwise_cons.mp h
    rw [insertTimer]
    by_cases hle : first.deadline ≤ t.deadline
    · rw [if_pos hle, List.filter_cons, List.filter_cons, ih hrest]
      split_ifs <;> rfl
    · rw [if_neg hle]
      by_cases hd : t.deadline = d
      · -- Those behind are due later, so that none of them has the deadline of the new timer.
        have hnone : (first :: rest).filter (fun t => t.deadline = d) = [] := by
          rw [List.filter_eq_nil_iff]
          intro t' ht'
          have hlater : first.deadline ≤ t'.deadline := by
            rcases List.mem_cons.mp ht' with rfl | ht'
            · exact Nat.le_refl _
            · exact hfirst t' ht'
          simp only [decide_eq_true_eq]
          omega
        rw [List.filter_cons, if_pos (by simpa using hd), hnone]
        simp [hd]
      · rw [List.filter_cons, if_neg (by simpa using hd)]
        simp [hd]

theorem filter_swap (p q : Timer → Bool) (timers : List Timer) :
    (timers.filter p).filter q = (timers.filter q).filter p := by
  have hswap : (fun t => q t && p t) = fun t => p t && q t := by
    funext t
    exact Bool.and_comm ..
  rw [List.filter_filter, List.filter_filter, hswap]

theorem dropWhile_eq_filter (h : Ordered timers) (now : ℕ) :
    timers.dropWhile (fun t => t.deadline ≤ now) = timers.filter (fun t => now < t.deadline) := by
  induction timers with
  | nil => rfl
  | cons t rest ih =>
    obtain ⟨hfirst, hrest⟩ := List.pairwise_cons.mp h
    by_cases hdue : t.deadline ≤ now
    · rw [List.dropWhile_cons_of_pos (by simpa using hdue), ih hrest, List.filter_cons,
        if_neg (by simpa using hdue)]
    · rw [List.dropWhile_cons_of_neg (by simpa using hdue)]
      symm
      rw [List.filter_eq_self]
      intro t' ht'
      rcases List.mem_cons.mp ht' with rfl | ht'
      · simpa using hdue
      · have hlater := hfirst t' ht'
        simp only [decide_eq_true_eq]
        omega

theorem wakeTimers_runq (h : Ordered timers) (now : ℕ) (s : Sched n k) :
    (wakeTimers now timers s).runq =
      s.runq ++ (timers.filter (fun t => t.deadline ≤ now)).map Timer.g := by
  induction timers generalizing s with
  | nil => exact (List.append_nil _).symm
  | cons t rest ih =>
    obtain ⟨hfirst, hrest⟩ := List.pairwise_cons.mp h
    rw [wakeTimers]
    by_cases hdue : t.deadline ≤ now
    · rw [if_pos hdue, ih hrest, List.filter_cons, if_pos (by simpa using hdue), List.map_cons]
      exact List.append_assoc s.runq [t.g] _
    · have hnone : (t :: rest).filter (fun t => t.deadline ≤ now) = [] := by
        rw [List.filter_eq_nil_iff]
        intro t' ht'
        rcases List.mem_cons.mp ht' with rfl | ht'
        · simpa using hdue
        · have hlater := hfirst t' ht'
          simp only [decide_eq_true_eq]
          omega
      rw [if_neg hdue, hnone]
      exact (List.append_nil _).symm

theorem pendingCells_timers {cells : List Cell} (h : Ordered (cells.map Prod.snd)) (now : ℕ) :
    (pendingCells now cells).map Prod.snd =
      (cells.map Prod.snd).filter (fun t => now < t.deadline) := by
  rw [← dropWhile_eq_filter h, pendingCells, List.dropWhile_map]
  rfl

/-- A step that has nothing to do with timers does not see them. -/
theorem schedStep_timers (s : Sched n k) {op : SchedOp n k} (h : touchesTimers op = false)
    (timers : List Timer) :
    schedStep { s with timers := timers } op = { schedStep s op with timers := timers } := by
  cases op with
  | sleep w deadline => cases h
  | take w now => cases h
  | spawn g =>
    simp only [schedStep, spawnStep]
    cases s.threads g <;> rfl
  | lock w m =>
    simp only [schedStep]
    cases s.workers w with
    | running g pos =>
      simp only [lockStep]
      by_cases hlocked : (s.mutexes m).locked = true
      · rw [if_pos hlocked, if_pos hlocked]
        rfl
      · rw [if_neg hlocked, if_neg hlocked]
        rfl
    | _ => rfl
  | unlock w m =>
    simp only [schedStep]
    cases s.workers w with
    | running g pos =>
      simp only [unlockStep]
      cases (s.mutexes m).queue <;> rfl
    | _ => rfl
  | reap w =>
    simp only [schedStep]
    cases s.workers w with
    | returned g =>
      simp only [reapStep]
      cases hthread : s.threads g with
      | none => rfl
      | some t =>
        obtain ⟨state, context, suspended⟩ := t
        cases state <;> rfl
    | _ => rfl
  | work w | yield w | exit w | switchOut w | switchIn w =>
    simp only [schedStep]
    cases s.workers w <;> rfl

theorem popStep_timers (s : Sched n k) (w : Fin n) (timers : List Timer) :
    popStep { s with timers := timers } w = { popStep s w with timers := timers } := by
  obtain ⟨workers, mutexes, runq, _, threads, liveCount⟩ := s
  cases runq <;> rfl

end Lists

section Steps
variable {n k : ℕ} {s : TimerSystem n k} {cells : List Cell} {fuel : ℕ}

/-- The scheduler with the timers that are in memory. -/
def view (s : TimerSystem n k) (cells : List Cell) : Sched n k :=
  { s.sched with timers := cells.map Prod.snd }

structure Kept (s : TimerSystem n k) (cells : List Cell) : Prop where
  represents : Represents s.heap cells
  placed : Placed (view s cells)
  ordered : Ordered (cells.map Prod.snd)
  stable : ∀ d, (cells.map Prod.snd).filter (fun t => t.deadline = d) =
    s.pending.filter (fun t => t.deadline = d)

/-- What a step comes to. A timer that is due later than the clock stays. -/
structure Stepped (s s' : TimerSystem n k) (cells cells' : List Cell) : Prop where
  kept : Kept s' cells'
  length : cells'.length ≤ cells.length + 1
  clock : s.clock ≤ s'.clock
  patient : ∀ t ∈ cells.map Prod.snd, s'.clock < t.deadline → t ∈ cells'.map Prod.snd

theorem Kept.stepped (h : Kept s cells) : Stepped s s cells cells :=
  ⟨h, Nat.le_succ _, Nat.le_refl _, fun _ ht _ => ht⟩

theorem sleep_kept (h : Kept s cells) (hfuel : cells.length < fuel) {w : Fin n}
    {ago ms address : ℕ} (hrange : s.clock - ago + ms < 2 ^ 64) :
    ∃ s' cells', timerStep fuel s (.sleep w ago ms address) = some s' ∧ s'.clock = s.clock ∧
      Stepped s s' cells cells' := by
  rw [timerStep]
  cases hw : s.sched.workers w with
  | running g pos =>
    by_cases hused : (s.heap.nodes address).isSome = true
    · refine ⟨s, cells, ?_, rfl, h.stepped⟩
      simp only [if_pos hused]
    · have hfree : s.heap.nodes address = none := by
        simpa using hused
      have hinserted : ∃ heap, insertNode fuel s.heap address (s.clock - ago + ms) g = some heap ∧
          Represents heap (insertCell (address, ⟨s.clock - ago + ms, g⟩) cells) :=
        insertNode_represents h.represents hfree hfuel
      obtain ⟨heap, hinsert, hheap⟩ := hinserted
      have htimers := insertCell_timers (address, ⟨s.clock - ago + ms, g⟩) cells
      have hplaced := schedStep_placed h.placed (.sleep w (s.clock - ago + ms))
      have hworker : (view s cells).workers w = .running g pos := hw
      rw [schedStep, hworker] at hplaced
      refine ⟨⟨s.sched.leave w g pos .waitTimer, heap, s.clock,
        s.pending ++ [⟨s.clock - ago + ms, g⟩]⟩,
        insertCell (address, ⟨s.clock - ago + ms, g⟩) cells, ?_, rfl, ?_⟩
      · simp only [if_neg hused, Nat.mod_eq_of_lt hrange, hinsert]
      · refine ⟨⟨hheap, ?_, ?_, ?_⟩, ?_, Nat.le_refl _, ?_⟩
        · rw [view, htimers]
          exact hplaced
        · rw [htimers]
          exact insertTimer_ordered _ h.ordered
        · intro d
          rw [htimers, filter_insertTimer h.ordered, h.stable, List.filter_append]
        · rw [(insertCell_perm _ cells).length_eq, List.length_cons]
        · intro t ht _
          rw [htimers]
          exact (insertTimer_perm _ _).mem_iff.mpr (List.mem_cons_of_mem _ ht)
  | _ => exact ⟨s, cells, rfl, rfl, h.stepped⟩

theorem wakeNodes_timers (h : Kept s cells) (hfuel : cells.length < fuel) :
    ∃ heap sched, wakeNodes s.clock fuel s.heap s.sched = some (heap, sched) ∧
      Represents heap (pendingCells s.clock cells) ∧
      wakeTimers s.clock (cells.map Prod.snd) s.sched =
        { sched with timers := (pendingCells s.clock cells).map Prod.snd } :=
  wakeNodes_represents h.represents hfuel s.sched

theorem wake_kept (h : Kept s cells) (hfuel : cells.length < fuel) :
    ∃ s' cells', timerStep fuel s .wake = some s' ∧ s'.clock = s.clock ∧
      Stepped s s' cells cells' := by
  obtain ⟨heap, sched, hwake, hheap, hsched⟩ := wakeNodes_timers h hfuel
  have htimers := pendingCells_timers h.ordered s.clock
  have hplaced := wakeTimers_placed s.clock (cells.map Prod.snd) s.sched h.placed
  refine ⟨⟨sched, heap, s.clock, s.pending.filter (fun t => s.clock < t.deadline)⟩,
    pendingCells s.clock cells, ?_, rfl, ?_⟩
  · simp only [timerStep, hwake]
  · refine ⟨⟨hheap, ?_, ?_, ?_⟩, ?_, Nat.le_refl _, ?_⟩
    · rw [view, ← hsched]
      exact hplaced
    · rw [htimers]
      exact List.Pairwise.filter _ h.ordered
    · intro d
      rw [htimers, filter_swap, h.stable, filter_swap]
    · exact Nat.le_succ_of_le (List.dropWhile_sublist _).length_le
    · intro t ht hlate
      rw [htimers, List.mem_filter]
      exact ⟨ht, by simpa using hlate⟩

theorem timerStep_kept (h : Kept s cells) (hfuel : cells.length < fuel) (op : TimerOp n k)
    (hfits : ∀ w ago ms address, op = .sleep w ago ms address → s.clock - ago + ms < 2 ^ 64) :
    ∃ s' cells', timerStep fuel s op = some s' ∧ s'.clock = opClock s.clock op ∧
      Stepped s s' cells cells' := by
  cases op with
  | tick elapsed =>
    refine ⟨_, cells, rfl, rfl, ⟨h.represents, h.placed, h.ordered, h.stable⟩, Nat.le_succ _,
      Nat.le_add_right _ _, fun _ ht _ => ht⟩
  | sleep w ago ms address => exact sleep_kept h hfuel (hfits w ago ms address rfl)
  | wake => exact wake_kept h hfuel
  | pop w =>
    rw [timerStep]
    cases hw : s.sched.workers w with
    | idle =>
      have hidle : (view s cells).workers w = .idle := hw
      have hplaced := popStep_placed h.placed hidle
      rw [view, popStep_timers] at hplaced
      exact ⟨_, cells, rfl, rfl, ⟨h.represents, hplaced, h.ordered, h.stable⟩, Nat.le_succ _,
        Nat.le_refl _, fun _ ht _ => ht⟩
    | _ => exact ⟨s, cells, rfl, rfl, h.stepped⟩
  | other op =>
    rw [timerStep]
    by_cases htouches : touchesTimers op = true
    · refine ⟨s, cells, ?_, rfl, h.stepped⟩
      rw [if_pos htouches]
    · have hplaced := schedStep_placed h.placed op
      rw [view, schedStep_timers s.sched (by simpa using htouches)] at hplaced
      refine ⟨_, cells, if_neg htouches, rfl, ⟨h.represents, hplaced, h.ordered, h.stable⟩,
        Nat.le_succ _, Nat.le_refl _, fun _ ht _ => ht⟩

end Steps

section Runs
variable {n k : ℕ} {s : TimerSystem n k} {cells : List Cell} {fuel : ℕ}

theorem initTimers_kept (n k clock : ℕ) : Kept (initTimers n k clock) [] where
  represents := ⟨.nil, List.nodup_nil⟩
  placed := initSched_placed n k
  ordered := List.Pairwise.nil
  stable _ := rfl

/-- Every step adds a timer at most, and a run leaves the timers that are due after its end. -/
theorem runTimers_kept (h : Kept s cells) (ops : List (TimerOp n k)) (hfits : Fits s.clock ops)
    (hfuel : cells.length + ops.length < fuel) :
    ∃ s' cells', runTimers fuel s ops = some s' ∧ Kept s' cells' ∧
      cells'.length ≤ cells.length + ops.length ∧ s'.clock = ops.foldl opClock s.clock ∧
      s.clock ≤ s'.clock ∧
      ∀ t ∈ cells.map Prod.snd, s'.clock < t.deadline → t ∈ cells'.map Prod.snd := by
  induction ops generalizing s cells with
  | nil => exact ⟨s, cells, rfl, h, Nat.le_refl _, rfl, Nat.le_refl _, fun _ ht _ => ht⟩
  | cons op ops ih =>
    rw [List.length_cons] at hfuel
    have hroom : cells.length < fuel := by omega
    obtain ⟨s₁, cells₁, hstep, hclock, hkept, hlength, hlater, hpatient⟩ :=
      timerStep_kept h hroom op hfits.1
    have hrest : Fits s₁.clock ops := by
      rw [hclock]
      exact hfits.2
    obtain ⟨s₂, cells₂, hrun, hkept₂, hlength₂, hclock₂, hlater₂, hpatient₂⟩ :=
      ih hkept hrest (by omega)
    refine ⟨s₂, cells₂, ?_, hkept₂, ?_, ?_, Nat.le_trans hlater hlater₂, ?_⟩
    · rw [runTimers, hstep]
      exact hrun
    · rw [List.length_cons]
      omega
    · rw [hclock₂, hclock]
      rfl
    · intro t ht hdue
      exact hpatient₂ t (hpatient t ht (by omega)) hdue

theorem fits_append {clock : ℕ} {ops later : List (TimerOp n k)} (h : Fits clock (ops ++ later)) :
    Fits clock ops ∧ Fits (ops.foldl opClock clock) later := by
  induction ops generalizing clock with
  | nil => exact ⟨trivial, h⟩
  | cons op ops ih =>
    obtain ⟨hops, hlater⟩ := ih h.2
    exact ⟨⟨h.1, hops⟩, hlater⟩

end Runs

section Discipline
variable {n k : ℕ}

/-- The list of timers in a state: by deadline, those of one deadline in the order of insertion, and
    each thread that sleeps in one timer and nowhere else. -/
structure Disciplined (s : TimerSystem n k) (timers : List Timer) : Prop where
  sorted : timers.Pairwise (fun t t' => t.deadline ≤ t'.deadline)
  insertion : ∀ d, timers.filter (fun t => t.deadline = d) =
    s.pending.filter (fun t => t.deadline = d)
  sleeping : ∀ g, StateIs s.sched g .waitTimer ↔ g ∈ timers.map Timer.g
  once : (timers.map Timer.g).Nodup
  nowhere : ∀ g ∈ timers.map Timer.g, g ∉ s.sched.runq ∧
    (∀ m, g ∉ (s.sched.mutexes m).queue) ∧
    ∀ w, s.sched.workers w ≠ .popped g ∧ ∀ pos, s.sched.workers w ≠ .running g pos

/-- `wake_expired_timers` moves to the run queue the threads whose deadline is not after the clock,
    in the order of the list. -/
def WakesDue (fuel : ℕ) (s : TimerSystem n k) (timers : List Timer) : Prop :=
  ∃ heap sched cells, wakeNodes s.clock fuel s.heap s.sched = some (heap, sched) ∧
    Represents heap cells ∧
    cells.map Prod.snd = timers.filter (fun t => s.clock < t.deadline) ∧
    sched.runq = s.sched.runq ++ (timers.filter (fun t => t.deadline ≤ s.clock)).map Timer.g ∧
    ∀ g ∈ sched.runq, StateIs sched g .runnable

variable {s : TimerSystem n k} {cells : List Cell} {fuel : ℕ}

theorem timer_place (s : TimerSystem n k) (cells : List Cell) :
    places (view s cells) .waitTimer = ↑((cells.map Prod.snd).map Timer.g) := by
  have hheld : ∀ w, heldAs .waitTimer ((view s cells).workers w) = 0 := by
    intro w
    cases (view s cells).workers w <;> rfl
  rw [places, Finset.sum_congr rfl fun w _ => hheld w, Finset.sum_const_zero, add_zero]
  rfl

theorem held_place {x : GState} {g : ℕ} {w : Fin n} (s : Sched n k)
    (h : g ∈ heldAs x (s.workers w)) : g ∈ places s x :=
  Multiset.mem_add.mpr (Or.inr (Multiset.mem_sum.mpr ⟨w, Finset.mem_univ w, h⟩))

theorem Kept.disciplined (h : Kept s cells) : Disciplined s (cells.map Prod.snd) := by
  have hplace : ∀ g, g ∈ (cells.map Prod.snd).map Timer.g ↔
      g ∈ places (view s cells) .waitTimer := by
    intro g
    rw [timer_place, Multiset.mem_coe]
  refine ⟨h.ordered, h.stable, ?_, ?_, ?_⟩
  · intro g
    rw [hplace]
    exact ⟨h.placed.waiting g, h.placed.state .waitTimer g⟩
  · have hnodup := h.placed.nodup .waitTimer
    rw [timer_place] at hnodup
    exact Multiset.coe_nodup.mp hnodup
  · intro g hg
    have hwaits := (hplace g).mp hg
    -- A thread in another place has another state.
    have hother : ∀ x, x ≠ .waitTimer → g ∉ places (view s cells) x :=
      fun x hne hin => hne (h.placed.apart hin hwaits)
    refine ⟨?_, ?_, ?_⟩
    · intro hin
      exact hother .runnable (by decide) (Multiset.mem_add.mpr (Or.inl (Multiset.mem_coe.mpr hin)))
    · intro m hin
      refine hother .waitMutex (by decide) (Multiset.mem_add.mpr (Or.inl ?_))
      exact Multiset.mem_sum.mpr ⟨m, Finset.mem_univ m, Multiset.mem_coe.mpr hin⟩
    · intro w
      constructor
      · intro hw
        have hworker : (view s cells).workers w = .popped g := hw
        refine hother .runnable (by decide) (held_place (w := w) _ ?_)
        rw [hworker]
        exact Multiset.mem_singleton_self g
      · intro pos hw
        have hworker : (view s cells).workers w = .running g pos := hw
        refine hother .running (by decide) (held_place (w := w) _ ?_)
        rw [hworker]
        exact Multiset.mem_singleton_self g

theorem Kept.wakes (h : Kept s cells) (hfuel : cells.length < fuel) :
    WakesDue fuel s (cells.map Prod.snd) := by
  obtain ⟨heap, sched, hwake, hheap, hsched⟩ := wakeNodes_timers h hfuel
  have hplaced := wakeTimers_placed s.clock (cells.map Prod.snd) s.sched h.placed
  have hrunq := wakeTimers_runq h.ordered s.clock s.sched
  rw [hsched] at hplaced hrunq
  refine ⟨heap, sched, pendingCells s.clock cells, hwake, hheap,
    pendingCells_timers h.ordered s.clock, hrunq, ?_⟩
  intro g hg
  exact hplaced.state .runnable g (Multiset.mem_add.mpr (Or.inl (Multiset.mem_coe.mpr hg)))

/-- In every state of every run the timers are disciplined and a call of `wake_expired_timers` moves
    those that are due. A thread whose deadline is after the clock sleeps still, however the run goes
    on. -/
theorem timers_disciplined (fuel clock : ℕ) (ops later : List (TimerOp n k))
    (hfits : Fits clock (ops ++ later)) (hfuel : (ops ++ later).length < fuel) :
    ∃ s cells s' cells', runTimers fuel (initTimers n k clock) ops = some s ∧
      Represents s.heap cells ∧ Disciplined s (cells.map Prod.snd) ∧
      WakesDue fuel s (cells.map Prod.snd) ∧
      runTimers fuel s later = some s' ∧ Represents s'.heap cells' ∧ s.clock ≤ s'.clock ∧
      ∀ t ∈ cells.map Prod.snd, s'.clock < t.deadline →
        t ∈ cells'.map Prod.snd ∧ StateIs s'.sched t.g .waitTimer := by
  rw [List.length_append] at hfuel
  obtain ⟨hops, hlater⟩ := fits_append hfits
  have hroom : ([] : List Cell).length + ops.length < fuel := by
    rw [List.length_nil]
    omega
  obtain ⟨s, cells, hrun, hkept, hlength, hclock, _, _⟩ :=
    runTimers_kept (initTimers_kept n k clock) ops hops hroom
  rw [List.length_nil, Nat.zero_add] at hlength
  have hrest : Fits s.clock later := by
    rw [hclock]
    exact hlater
  have hroom' : cells.length + later.length < fuel := by omega
  obtain ⟨s', cells', hrun', hkept', _, _, hle, hpatient⟩ :=
    runTimers_kept hkept later hrest hroom'
  refine ⟨s, cells, s', cells', hrun, hkept.represents, hkept.disciplined,
    hkept.wakes (by omega), hrun', hkept'.represents, hle, ?_⟩
  intro t ht hdue
  have hstays := hpatient t ht hdue
  exact ⟨hstays, (hkept'.disciplined.sleeping t.g).mpr (List.mem_map_of_mem hstays)⟩

/-- Two threads that sleep for one deadline on one worker, and wake in their order. -/
def nap : List (TimerOp 1 1) :=
  [.other (.spawn 0), .other (.spawn 1), .pop 0, .other (.switchIn 0), .sleep 0 0 5 100,
    .other (.switchOut 0), .other (.reap 0), .pop 0, .other (.switchIn 0), .sleep 0 0 5 200]

theorem timers_disciplined_nap :
    ∃ s cells s' cells', runTimers 20 (initTimers 1 1 0) nap = some s ∧
      Represents s.heap cells ∧ Disciplined s (cells.map Prod.snd) ∧
      WakesDue 20 s (cells.map Prod.snd) ∧
      runTimers 20 s [.tick 3, .wake] = some s' ∧ Represents s'.heap cells' ∧ s.clock ≤ s'.clock ∧
      ∀ t ∈ cells.map Prod.snd, s'.clock < t.deadline →
        t ∈ cells'.map Prod.snd ∧ StateIs s'.sched t.g .waitTimer :=
  timers_disciplined 20 0 nap [.tick 3, .wake]
    (by simp [nap, Fits, opClock]) (by decide)

end Discipline

end NewClLang.TimerDiscipline
