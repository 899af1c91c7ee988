import NewClLang.ContextSwitching

set_option autoImplicit false

/-!
# The place of a thread

The state of a thread says in which queue it stands. Each thread stands in one queue, or is with one
worker, in every run of the scheduler.
-/
namespace NewClLang.TimerPlaces
open SchedulerModel ContextSwitching

section Definitions
variable {n k : ℕ}

/-- The thread that a worker has taken or runs, by its state. -/
def heldAs : GState → Worker → Multiset ℕ
  | .runnable, .popped g => {g}
  | .running, .running g _ => {g}
  | _, _ => 0

/-- The threads in the queue for a state. -/
def queuedAs (s : Sched n k) : GState → Multiset ℕ
  | .runnable => ↑s.runq
  | .waitTimer => ↑(s.timers.map Timer.g)
  | .waitMutex => ∑ m, (↑(s.mutexes m).queue : Multiset ℕ)
  | .running | .dead => 0

def places (s : Sched n k) (x : GState) : Multiset ℕ :=
  queuedAs s x + ∑ w, heldAs x (s.workers w)

def StateIs (s : Sched n k) (g : ℕ) (x : GState) : Prop :=
  ∃ t, s.threads g = some t ∧ t.state = x

/-- Each thread stands in one place, that of its state. -/
structure Placed (s : Sched n k) : Prop where
  nodup : ∀ x, (places s x).Nodup
  state : ∀ x g, g ∈ places s x → StateIs s g x
  waiting : ∀ g, StateIs s g .waitTimer → g ∈ places s .waitTimer

theorem StateIs.unique {s : Sched n k} {g : ℕ} {x y : GState} (h : StateIs s g x)
    (h' : StateIs s g y) : x = y := by
  obtain ⟨t, ht, rfl⟩ := h
  obtain ⟨t', ht', rfl⟩ := h'
  rw [ht] at ht'
  cases ht'
  rfl

theorem Placed.apart {s : Sched n k} (h : Placed s) {g : ℕ} {x y : GState} (hx : g ∈ places s x)
    (hy : g ∈ places s y) : x = y := (h.state x g hx).unique (h.state y g hy)

end Definitions

section Moves
variable {n k : ℕ} {s s' : Sched n k} {g : ℕ} {x y : GState}

theorem places_dead (s : Sched n k) : places s .dead = 0 := by
  have hheld : ∀ w, heldAs .dead (s.workers w) = 0 := by
    intro w
    cases s.workers w <;> rfl
  rw [places, Finset.sum_congr rfl fun w _ => hheld w, Finset.sum_const_zero]
  rfl

theorem Placed.same (h : Placed s) (hplaces : ∀ x, places s' x = places s x)
    (hstates : ∀ g x, x ≠ .dead → (StateIs s' g x ↔ StateIs s g x)) : Placed s' where
  nodup x := hplaces x ▸ h.nodup x
  state x g hg := by
    have hdead : x ≠ .dead := by
      rintro rfl
      rw [places_dead] at hg
      exact Multiset.notMem_zero g hg
    exact (hstates g x hdead).mpr (h.state x g (hplaces x ▸ hg))
  waiting g hg := by
    rw [hplaces]
    exact h.waiting g ((hstates g .waitTimer (by decide)).mp hg)

/-- A thread that was in no place enters one. -/
theorem Placed.enter (h : Placed s) (hy : y ≠ .waitTimer) (hfresh : s.threads g = none)
    (hplaces : ∀ x, places s' x = if x = y then {g} + places s x else places s x)
    (hstate : StateIs s' g y) (hstates : ∀ g' z, g' ≠ g → (StateIs s' g' z ↔ StateIs s g' z)) :
    Placed s' := by
  have hnot : ∀ x, g ∉ places s x := by
    intro x hin
    obtain ⟨t, ht, _⟩ := h.state x g hin
    rw [hfresh] at ht
    cases ht
  constructor
  case nodup =>
    intro x
    rw [hplaces]
    by_cases hx : x = y
    · rw [if_pos hx, Multiset.singleton_add, Multiset.nodup_cons]
      exact ⟨hnot x, h.nodup x⟩
    · rw [if_neg hx]
      exact h.nodup x
  case state =>
    intro x g' hin
    rw [hplaces] at hin
    by_cases hx : x = y
    · rw [if_pos hx, Multiset.mem_add, Multiset.mem_singleton] at hin
      by_cases hg : g' = g
      · rw [hg, hx]
        exact hstate
      · exact (hstates g' x hg).mpr (h.state x g' (hin.resolve_left hg))
    · rw [if_neg hx] at hin
      have hg : g' ≠ g := by
        rintro rfl
        exact hnot x hin
      exact (hstates g' x hg).mpr (h.state x g' hin)
  case waiting =>
    intro g' hwait
    have hg : g' ≠ g := by
      rintro rfl
      exact hy (hstate.unique hwait)
    rw [hplaces, if_neg hy.symm]
    exact h.waiting g' ((hstates g' _ hg).mp hwait)

/-- A thread goes from one place to another, and its state with it. -/
structure Moves (s s' : Sched n k) (g : ℕ) (x y : GState) : Prop where
  differ : x ≠ y
  left : places s x = {g} + places s' x
  entered : y ≠ .dead → places s' y = {g} + places s y
  gone : y = .dead → places s' y = 0
  others : ∀ z, z ≠ x → z ≠ y → places s' z = places s z
  state : StateIs s' g y
  states : ∀ g' z, g' ≠ g → (StateIs s' g' z ↔ StateIs s g' z)

theorem Placed.move (h : Placed s) (hm : Moves s s' g x y) : Placed s' := by
  have hold : g ∈ places s x := by
    rw [hm.left]
    exact Multiset.mem_add.mpr (Or.inl (Multiset.mem_singleton_self g))
  have hnodup := h.nodup x
  rw [hm.left, Multiset.singleton_add, Multiset.nodup_cons] at hnodup
  -- The thread was in one place only, so that it is new where it comes to.
  have hnew : ∀ z, z ≠ y → g ∉ places s' z := by
    intro z hzy hin
    by_cases hzx : z = x
    · subst hzx
      exact hnodup.1 hin
    · rw [hm.others z hzx hzy] at hin
      exact hzx (h.apart hin hold)
  have hback : ∀ z g', g' ≠ g → (g' ∈ places s' z ↔ g' ∈ places s z ∧ (z = y → y ≠ .dead)) := by
    intro z g' hne
    by_cases hzx : z = x
    · subst hzx
      rw [hm.left, Multiset.mem_add, Multiset.mem_singleton]
      constructor
      · exact fun hin => ⟨Or.inr hin, fun heq => absurd heq hm.differ⟩
      · exact fun hin => hin.1.resolve_left hne
    · by_cases hzy : z = y
      · subst hzy
        by_cases hdead : z = .dead
        · rw [hm.gone hdead]
          exact ⟨fun hin => absurd hin (Multiset.notMem_zero g'), fun hin => absurd hdead (hin.2 rfl)⟩
        · rw [hm.entered hdead, Multiset.mem_add, Multiset.mem_singleton]
          exact ⟨fun hin => ⟨hin.resolve_left hne, fun _ => hdead⟩, fun hin => Or.inr hin.1⟩
      · rw [hm.others z hzx hzy]
        exact ⟨fun hin => ⟨hin, fun heq => absurd heq hzy⟩, fun hin => hin.1⟩
  constructor
  case nodup =>
    intro z
    by_cases hzx : z = x
    · subst hzx
      exact hnodup.2
    · by_cases hzy : z = y
      · subst hzy
        by_cases hdead : z = .dead
        · rw [hm.gone hdead]
          exact Multiset.nodup_zero
        · rw [hm.entered hdead, Multiset.singleton_add, Multiset.nodup_cons]
          exact ⟨fun hin => hm.differ (h.apart hold hin), h.nodup z⟩
      · rw [hm.others z hzx hzy]
        exact h.nodup z
  case state =>
    intro z g' hin
    by_cases hg : g' = g
    · subst hg
      by_cases hzy : z = y
      · subst hzy
        exact hm.state
      · exact absurd hin (hnew z hzy)
    · exact (hm.states g' z hg).mpr (h.state z g' ((hback z g' hg).mp hin).1)
  case waiting =>
    intro g' hwait
    by_cases hg : g' = g
    · subst hg
      have hy : y = .waitTimer := hm.state.unique hwait
      subst hy
      rw [hm.entered (by decide)]
      exact Multiset.mem_add.mpr (Or.inl (Multiset.mem_singleton_self g'))
    · have hin := h.waiting g' ((hm.states g' _ hg).mp hwait)
      refine (hback _ g' hg).mpr ⟨hin, ?_⟩
      rintro rfl
      decide

end Moves

section Steps
variable {n k : ℕ} {s : Sched n k} {w : Fin n} {g pos : ℕ}

/-- What one worker holds, and the rest. -/
theorem places_split (s : Sched n k) (w : Fin n) : ∃ r : GState → Multiset ℕ,
    (∀ z, places s z = queuedAs s z + (heldAs z (s.workers w) + r z)) ∧
      ∀ (s₁ : Sched n k) x, s₁.workers = Function.update s.workers w x →
        ∀ z, places s₁ z = queuedAs s₁ z + (heldAs z x + r z) := by
  choose r hr hx using fun z => sum_split s.workers (heldAs z) w
  refine ⟨r, fun z => by rw [places, hr], ?_⟩
  intro s₁ x hworkers z
  rw [places, hworkers, hx]

theorem held_running_mem (hw : s.workers w = .running g pos) : g ∈ places s .running := by
  obtain ⟨r, hr, _⟩ := places_split s w
  rw [hr, hw]
  simp [heldAs]

theorem held_popped_mem (hw : s.workers w = .popped g) : g ∈ places s .runnable := by
  obtain ⟨r, hr, _⟩ := places_split s w
  rw [hr, hw]
  simp [heldAs]

theorem stateIs_modify {x y : GState} {f : GreenThread → GreenThread} (h : StateIs s g x)
    (hf : ∀ t, (f t).state = y) : StateIs (s.modifyThread g f) g y := by
  obtain ⟨t, ht, _⟩ := h
  exact ⟨f t, by rw [modifyThread_self, ht]; rfl, hf t⟩

theorem stateIs_modify_ne {f : GreenThread → GreenThread} {g' : ℕ} (hne : g' ≠ g) (z : GState) :
    StateIs (s.modifyThread g f) g' z ↔ StateIs s g' z := by
  rw [StateIs, StateIs, modifyThread_ne s f hne]

theorem stateIs_modify_keep {f : GreenThread → GreenThread} (hf : ∀ t, (f t).state = t.state)
    (g' : ℕ) (z : GState) : StateIs (s.modifyThread g f) g' z ↔ StateIs s g' z := by
  by_cases hne : g' = g
  · subst hne
    rw [StateIs, StateIs, modifyThread_self]
    cases s.threads g' with
    | none => simp
    | some t => simp [hf]
  · exact stateIs_modify_ne hne z

/-- A running thread leaves its worker for a queue. -/
theorem leave_placed (h : Placed s) (hw : s.workers w = .running g pos) (s₁ : Sched n k)
    (hworkers : s₁.workers = s.workers) (hthreads : s₁.threads = s.threads) {y : GState}
    (hy : y ≠ .running) (hdead : y ≠ .dead)
    (hqueue : ∀ z, queuedAs s₁ z = if z = y then {g} + queuedAs s z else queuedAs s z) :
    Placed (s₁.leave w g pos y) := by
  obtain ⟨r, hr, hx⟩ := places_split s w
  have hafter : ∀ z, places (s₁.leave w g pos y) z = queuedAs s₁ z + (0 + r z) := by
    intro z
    have hmoved := hx (s₁.leave w g pos y) (.leaving g (pos + 1)) (by rw [← hworkers]; rfl) z
    have hnone : heldAs z (.leaving g (pos + 1)) = 0 := by cases z <;> rfl
    rw [hmoved, hnone]
    rfl
  have hbefore : ∀ z, places s z = queuedAs s z + (heldAs z (.running g pos) + r z) := by
    intro z
    rw [hr, hw]
  have hrest : ∀ z, z ≠ .running → heldAs z (.running g pos) = 0 := by
    intro z hz
    cases z <;> first | rfl | exact absurd rfl hz
  have hstate : StateIs s g .running := h.state _ g (held_running_mem hw)
  refine h.move (g := g) (x := .running) (y := y) ⟨hy.symm, ?_, ?_, ?_, ?_, ?_, ?_⟩
  · rw [hbefore, hafter, hqueue, if_neg hy.symm]
    change 0 + ({g} + r .running) = {g} + (0 + (0 + r .running))
    simp only [zero_add]
  · intro _
    rw [hbefore, hafter, hqueue, if_pos rfl, hrest y hy]
    simp only [zero_add, add_assoc]
  · exact fun hgone => absurd hgone hdead
  · intro z hz hzy
    rw [hbefore, hafter, hqueue, if_neg hzy, hrest z hz]
  · have hstate₁ : StateIs s₁ g .running := by
      rw [StateIs, hthreads]
      exact hstate
    exact stateIs_modify hstate₁ fun t => rfl
  · intro g' z hne
    have hkeep := stateIs_modify_ne (s := s₁)
      (f := fun t => { t with state := y, suspended := pos + 1 }) hne z
    refine hkeep.trans ?_
    rw [StateIs, StateIs, hthreads]

/-- A change of a worker that holds the same thread as before. -/
theorem setWorker_placed (h : Placed s) {x : Worker}
    (hx : ∀ z, heldAs z x = heldAs z (s.workers w)) : Placed (s.setWorker w x) := by
  obtain ⟨r, hr, hafter⟩ := places_split s w
  refine h.same ?_ fun _ _ _ => Iff.rfl
  intro z
  rw [hafter (s.setWorker w x) x rfl, hr, hx]
  rfl

theorem spawnStep_placed (h : Placed s) (g : ℕ) : Placed (spawnStep s g) := by
  rw [spawnStep]
  cases hg : s.threads g with
  | some t => exact h
  | none =>
    refine h.enter (g := g) (y := .runnable) (by decide) hg ?_ ?_ ?_
    · intro z
      cases z with
      | runnable =>
        rw [if_pos rfl, places, places, queuedAs, queuedAs, ← Multiset.coe_add,
          Multiset.coe_singleton]
        abel
      | _ => rfl
    · exact ⟨_, Function.update_self .., rfl⟩
    · intro g' z hne
      rw [StateIs, StateIs]
      simp only [Function.update_of_ne hne]

theorem lockStep_placed (h : Placed s) (m : Fin k) (hw : s.workers w = .running g pos) :
    Placed (lockStep s w m g pos) := by
  obtain ⟨r, hr, hx⟩ := sum_split s.mutexes (fun m => (↑m.queue : Multiset ℕ)) m
  rw [lockStep]
  by_cases hlocked : (s.mutexes m).locked = true
  · rw [if_pos hlocked]
    refine leave_placed h hw (s.setMutex m ⟨true, (s.mutexes m).queue ++ [g]⟩) rfl rfl
      (by decide) (by decide) ?_
    intro z
    cases z with
    | waitMutex =>
      have hafter := hx ⟨true, (s.mutexes m).queue ++ [g]⟩
      rw [if_pos rfl]
      change ∑ i, (↑(Function.update s.mutexes m _ i).queue : Multiset ℕ) = _
      rw [hafter, queuedAs, hr, ← Multiset.coe_add, Multiset.coe_singleton]
      abel
    | _ => rfl
  · rw [if_neg hlocked]
    refine h.same ?_ fun _ _ _ => Iff.rfl
    intro z
    cases z with
    | waitMutex =>
      have hafter := hx ⟨true, (s.mutexes m).queue⟩
      rw [places, places]
      congr 1
      change ∑ i, (↑(Function.update s.mutexes m _ i).queue : Multiset ℕ) = _
      rw [hafter, queuedAs, hr]
    | _ => rfl

theorem unlockStep_placed (h : Placed s) (m : Fin k) : Placed (unlockStep s m) := by
  obtain ⟨r, hr, hx⟩ := sum_split s.mutexes (fun m => (↑m.queue : Multiset ℕ)) m
  rw [unlockStep]
  cases hqueue : (s.mutexes m).queue with
  | nil =>
    refine h.same ?_ fun _ _ _ => Iff.rfl
    intro z
    cases z with
    | waitMutex =>
      have hafter := hx ⟨false, []⟩
      rw [places, places]
      congr 1
      change ∑ i, (↑(Function.update s.mutexes m _ i).queue : Multiset ℕ) = _
      rw [hafter, queuedAs, hr, hqueue]
    | _ => rfl
  | cons g rest =>
    have hwait : places s .waitMutex = {g} + (↑rest + r + ∑ w, heldAs .waitMutex (s.workers w)) := by
      rw [places, queuedAs, hr, hqueue, ← Multiset.cons_coe, ← Multiset.singleton_add]
      abel
    have hstate : StateIs s g .waitMutex := by
      refine h.state _ g ?_
      rw [hwait]
      exact Multiset.mem_add.mpr (Or.inl (Multiset.mem_singleton_self g))
    refine h.move (g := g) (x := .waitMutex) (y := .runnable)
      ⟨by decide, ?_, ?_, (fun hdead => by cases hdead), ?_, ?_, ?_⟩
    · have hafter := hx ⟨(s.mutexes m).locked, rest⟩
      rw [hwait, places]
      change _ = {g} + (∑ i, (↑(Function.update s.mutexes m _ i).queue : Multiset ℕ) + _)
      rw [hafter]
      rfl
    · intro _
      rw [places, places, queuedAs, queuedAs]
      change ((s.runq ++ [g] : List ℕ) : Multiset ℕ) + _ = _
      rw [← Multiset.coe_add, Multiset.coe_singleton, add_comm (s.runq : Multiset ℕ),
        add_assoc]
      rfl
    · intro z hz hzy
      cases z with
      | runnable => exact absurd rfl hzy
      | waitMutex => exact absurd rfl hz
      | _ => rfl
    · exact stateIs_modify hstate fun _ => rfl
    · exact fun g' z hne => stateIs_modify_ne hne z

theorem exit_placed (h : Placed s) (hw : s.workers w = .running g pos)
    {f : GreenThread → GreenThread} (hf : ∀ t, (f t).state = .dead) :
    Placed ((s.modifyThread g f).setWorker w (.returned g)) := by
  obtain ⟨r, hr, hx⟩ := places_split s w
  have hafter := hx ((s.modifyThread g f).setWorker w (.returned g)) (.returned g) rfl
  have hnone : ∀ z, heldAs z (.returned g) = 0 := by
    intro z
    cases z <;> rfl
  refine h.move (g := g) (x := .running) (y := .dead)
    ⟨by decide, ?_, fun hne => absurd rfl hne, fun _ => places_dead _, ?_, ?_, ?_⟩
  · rw [hafter, hr, hw, hnone]
    change 0 + ({g} + r .running) = {g} + (0 + (0 + r .running))
    simp only [zero_add]
  · intro z hz _
    have hheld : heldAs z (.running g pos) = 0 := by
      cases z <;> first | rfl | exact absurd rfl hz
    rw [hafter, hr, hw, hnone, hheld]
    rfl
  · exact stateIs_modify (h.state _ g (held_running_mem hw)) hf
  · exact fun g' z hne => stateIs_modify_ne hne z

theorem switchIn_placed (h : Placed s) (hw : s.workers w = .popped g) (pos : ℕ) :
    Placed ((s.setState g .running).setWorker w (.running g pos)) := by
  obtain ⟨r, hr, hx⟩ := places_split s w
  have hafter := hx ((s.setState g .running).setWorker w (.running g pos)) (.running g pos) rfl
  refine h.move (g := g) (x := .runnable) (y := .running)
    ⟨by decide, ?_, ?_, (nomatch ·), ?_, ?_, ?_⟩
  · rw [hafter, hr, hw]
    change ↑s.runq + ({g} + r .runnable) = {g} + (↑s.runq + (0 + r .runnable))
    abel
  · intro _
    rw [hafter, hr, hw]
    change 0 + ({g} + r .running) = {g} + (0 + (0 + r .running))
    abel
  · intro z hz hzy
    rw [hafter, hr, hw]
    cases z with
    | runnable => exact absurd rfl hz
    | running => exact absurd rfl hzy
    | _ => rfl
  · exact stateIs_modify (h.state _ g (held_popped_mem hw)) fun _ => rfl
  · exact fun g' z hne => stateIs_modify_ne hne z

/-- A timer that has expired hands its thread to the run queue. -/
theorem wake_placed {t : Timer} {rest : List Timer} (h : Placed { s with timers := t :: rest }) :
    Placed { (s.setState t.g .runnable).push t.g with timers := rest } := by
  have hwait : places { s with timers := t :: rest } .waitTimer =
      {t.g} + places { (s.setState t.g .runnable).push t.g with timers := rest } .waitTimer := by
    rw [places, places, queuedAs, queuedAs, List.map_cons, ← Multiset.cons_coe,
      ← Multiset.singleton_add, add_assoc]
    rfl
  have hstate : StateIs { s with timers := t :: rest } t.g .waitTimer := by
    refine h.state _ t.g ?_
    rw [hwait]
    exact Multiset.mem_add.mpr (Or.inl (Multiset.mem_singleton_self t.g))
  refine h.move (g := t.g) (x := .waitTimer) (y := .runnable)
    ⟨by decide, hwait, ?_, (nomatch ·), ?_, ?_, ?_⟩
  · intro _
    rw [places, places, queuedAs, queuedAs]
    change ((s.runq ++ [t.g] : List ℕ) : Multiset ℕ) + _ = _
    rw [← Multiset.coe_add, Multiset.coe_singleton, add_comm (s.runq : Multiset ℕ),
        add_assoc]
    rfl
  · intro z hz hzy
    cases z with
    | runnable => exact absurd rfl hzy
    | waitTimer => exact absurd rfl hz
    | _ => rfl
  · exact stateIs_modify hstate fun _ => rfl
  · exact fun g' z hne => stateIs_modify_ne (s := { s with timers := t :: rest }) hne z

theorem wakeTimers_placed (now : ℕ) (timers : List Timer) (s : Sched n k)
    (h : Placed { s with timers := timers }) : Placed (wakeTimers now timers s) := by
  induction timers generalizing s with
  | nil => exact h
  | cons t rest ih =>
    rw [wakeTimers]
    by_cases hdue : t.deadline ≤ now
    · rw [if_pos hdue]
      exact ih _ (wake_placed h)
    · rw [if_neg hdue]
      exact h

/-- `runq_pop_locked`. -/
def popStep (s : Sched n k) (w : Fin n) : Sched n k :=
  match s.runq with
  | g :: rest => { s with runq := rest }.setWorker w (.popped g)
  | [] => s

theorem popStep_placed (h : Placed s) (hw : s.workers w = .idle) : Placed (popStep s w) := by
  rw [popStep]
  cases hrunq : s.runq with
  | nil => exact h
  | cons g rest =>
    obtain ⟨r, hr, hx⟩ := places_split s w
    refine h.same ?_ fun _ _ _ => Iff.rfl
    intro z
    rw [hx _ (.popped g) rfl, hr, hw]
    cases z with
    | runnable =>
      change ↑rest + ({g} + r .runnable) = ↑s.runq + (0 + r .runnable)
      rw [hrunq, ← Multiset.cons_coe, ← Multiset.singleton_add]
      abel
    | _ => rfl

theorem reapStep_placed (h : Placed s) (hw : s.workers w = .returned g) :
    Placed (reapStep s w g) := by
  have hidle : Placed (s.setWorker w .idle) := by
    refine setWorker_placed h ?_
    intro z
    rw [hw]
    cases z <;> rfl
  rw [reapStep]
  split
  · rename_i context suspended hdead
    refine hidle.same (fun _ => rfl) ?_
    intro g' z hz
    by_cases hg : g' = g
    · subst hg
      constructor
      · rintro ⟨t, ht, _⟩
        change Function.update s.threads g' none g' = some t at ht
        rw [Function.update_self] at ht
        cases ht
      · rintro ⟨t, ht, hstate⟩
        change s.threads g' = some t at ht
        rw [hdead] at ht
        cases ht
        exact absurd hstate.symm hz
    · rw [StateIs, StateIs]
      change (∃ t, Function.update s.threads g none g' = some t ∧ _) ↔ _
      rw [Function.update_of_ne hg]
      rfl
  · exact hidle

/-- The step of every operation keeps each thread in its place. -/
theorem schedStep_placed (h : Placed s) (op : SchedOp n k) : Placed (schedStep s op) := by
  cases op with
  | spawn g => exact spawnStep_placed h g
  | work w =>
    rw [schedStep]
    split
    · rename_i g pos hw
      refine setWorker_placed h ?_
      intro z
      rw [hw]
      cases z <;> rfl
    · exact h
  | yield w =>
    rw [schedStep]
    split
    · rename_i g pos hw
      refine leave_placed h hw (s.push g) rfl rfl (by decide) (by decide) ?_
      intro z
      cases z with
      | runnable =>
        rw [if_pos rfl]
        change ((s.runq ++ [g] : List ℕ) : Multiset ℕ) = {g} + (s.runq : Multiset ℕ)
        rw [← Multiset.coe_add, Multiset.coe_singleton, add_comm]
      | _ => rfl
    · exact h
  | sleep w deadline =>
    rw [schedStep]
    split
    · rename_i g pos hw
      refine leave_placed h hw { s with timers := insertTimer ⟨deadline, g⟩ s.timers } rfl rfl
        (by decide) (by decide) ?_
      intro z
      cases z with
      | waitTimer =>
        have hperm := Multiset.coe_eq_coe.mpr
          ((insertTimer_perm ⟨deadline, g⟩ s.timers).map Timer.g)
        rw [if_pos rfl, queuedAs, hperm, List.map_cons, ← Multiset.cons_coe,
          ← Multiset.singleton_add]
        rfl
      | _ => rfl
    · exact h
  | lock w m =>
    rw [schedStep]
    split
    · rename_i g pos hw
      exact lockStep_placed h m hw
    · exact h
  | unlock w m =>
    rw [schedStep]
    split
    · exact unlockStep_placed h m
    · exact h
  | exit w =>
    rw [schedStep]
    split
    · rename_i g pos hw
      exact exit_placed h hw fun _ => rfl
    · exact h
  | switchOut w =>
    rw [schedStep]
    split
    · rename_i g pos hw
      have hthread : Placed (s.modifyThread g (fun t => { t with context := pos })) :=
        h.same (fun _ => rfl) fun g' z _ =>
          stateIs_modify_keep (f := fun t => { t with context := pos }) (fun _ => rfl) g' z
      refine setWorker_placed hthread ?_
      intro z
      rw [modifyThread_workers, hw]
      cases z <;> rfl
    · exact h
  | take w now =>
    rw [schedStep]
    split
    · rename_i hw
      have hwoken : Placed (wakeExpired s now) := wakeTimers_placed now s.timers s h
      have hidle : (wakeExpired s now).workers w = .idle := by
        rw [wakeExpired, wakeTimers_workers, hw]
      exact popStep_placed hwoken hidle
    · exact h
  | switchIn w =>
    rw [schedStep]
    split
    · rename_i g hw
      exact switchIn_placed h hw _
    · exact h
  | reap w =>
    rw [schedStep]
    split
    · rename_i g hw
      exact reapStep_placed h hw
    · exact h

theorem initSched_placed (n k : ℕ) : Placed (initSched n k) where
  nodup x := by
    have hempty : places (initSched n k) x = 0 := by
      cases x <;> simp [places, queuedAs, heldAs, initSched]
    rw [hempty]
    exact Multiset.nodup_zero
  state x g hg := by
    have hempty : places (initSched n k) x = 0 := by
      cases x <;> simp [places, queuedAs, heldAs, initSched]
    rw [hempty] at hg
    exact absurd hg (Multiset.notMem_zero g)
  waiting g := by
    rintro ⟨t, ht, _⟩
    cases ht

end Steps

end NewClLang.TimerPlaces
