import NewClLang.SchedulerModel
import NewClLang.TransitionRuns
import Mathlib.Tactic.Abel

set_option autoImplicit false

/-!
# One worker for each context

A published thread may be taken from the run queue before its own worker has switched away from
it. Runs in which no worker switches to such a thread keep every context on one worker.
-/
namespace NewClLang.ContextSwitching
open SchedulerModel TransitionRuns

def current : Worker → Option ℕ
  | .running g _ | .leaving g _ => some g
  | _ => none

/-- The thread whose next step is this worker's to take or to start. -/
def held : Worker → Multiset ℕ
  | .popped g | .running g _ => {g}
  | _ => 0

@[simp] theorem held_idle : held .idle = 0 := rfl
@[simp] theorem held_popped (g : ℕ) : held (.popped g) = {g} := rfl
@[simp] theorem held_running (g pos : ℕ) : held (.running g pos) = {g} := rfl
@[simp] theorem held_leaving (g pos : ℕ) : held (.leaving g pos) = 0 := rfl
@[simp] theorem held_returned (g : ℕ) : held (.returned g) = 0 := rfl

section Tokens
variable {n k : ℕ}

/-- One entry for each place from which a thread can come to run. -/
def tokens (s : Sched n k) : Multiset ℕ :=
  ↑s.runq + ↑(s.timers.map Timer.g) + ∑ m, (↑(s.mutexes m).queue : Multiset ℕ) +
    ∑ w, held (s.workers w)

theorem sum_split {ι α : Type*} [Fintype ι] [DecidableEq ι] (f : ι → α) (F : α → Multiset ℕ)
    (a : ι) : ∃ r : Multiset ℕ, ∑ i, F (f i) = F (f a) + r ∧
      ∀ x, ∑ i, F (Function.update f a x i) = F x + r := by
  refine ⟨∑ i ∈ Finset.univ.erase a, F (f i), ?_, fun x => ?_⟩
  · exact (Finset.add_sum_erase _ _ (Finset.mem_univ a)).symm
  · rw [← Finset.add_sum_erase _ _ (Finset.mem_univ a), Function.update_self]
    congr 1
    refine Finset.sum_congr rfl (fun i hi => ?_)
    rw [Function.update_of_ne (Finset.ne_of_mem_erase hi)]

theorem tokens_worker (s : Sched n k) (w : Fin n) : ∃ r : Multiset ℕ,
    tokens s = held (s.workers w) + r ∧ ∀ x, tokens (s.setWorker w x) = held x + r := by
  obtain ⟨r, hr, hx⟩ := sum_split s.workers held w
  refine ⟨↑s.runq + ↑(s.timers.map Timer.g) + ∑ m, (↑(s.mutexes m).queue : Multiset ℕ) + r,
    ?_, fun x => ?_⟩
  · rw [tokens, hr]
    abel
  · rw [tokens, Sched.setWorker, hx]
    abel

theorem tokens_mutex (s : Sched n k) (m : Fin k) : ∃ r : Multiset ℕ,
    tokens s = ↑(s.mutexes m).queue + r ∧
      ∀ x, tokens (s.setMutex m x) = ↑x.queue + r := by
  obtain ⟨r, hr, hx⟩ := sum_split s.mutexes (fun m => (↑m.queue : Multiset ℕ)) m
  refine ⟨↑s.runq + ↑(s.timers.map Timer.g) + r + ∑ w, held (s.workers w), ?_, fun x => ?_⟩
  · rw [tokens, hr]
    abel
  · rw [tokens, Sched.setMutex]
    simp only [hx]
    abel

@[simp] theorem tokens_modifyThread (s : Sched n k) (g : ℕ) (f : GreenThread → GreenThread) :
    tokens (s.modifyThread g f) = tokens s := rfl

@[simp] theorem tokens_setState (s : Sched n k) (g : ℕ) (state : GState) :
    tokens (s.setState g state) = tokens s := rfl

theorem tokens_push (s : Sched n k) (g : ℕ) : tokens (s.push g) = {g} + tokens s := by
  simp only [tokens, Sched.push, ← Multiset.coe_add, Multiset.coe_singleton]
  abel

theorem insertTimer_perm (t : Timer) (l : List Timer) : (insertTimer t l).Perm (t :: l) := by
  induction l with
  | nil => rfl
  | cons t' rest ih =>
    rw [insertTimer]
    split_ifs
    · exact (List.Perm.cons t' ih).trans (List.Perm.swap t t' rest)
    · rfl

theorem tokens_insertTimer (s : Sched n k) (t : Timer) :
    tokens { s with timers := insertTimer t s.timers } = {t.g} + tokens s := by
  have hperm := Multiset.coe_eq_coe.mpr ((insertTimer_perm t s.timers).map Timer.g)
  simp only [tokens, hperm, List.map_cons, ← Multiset.cons_coe, ← Multiset.singleton_add]
  abel

end Tokens

section Invariant
variable {n k : ℕ}

def OneWorker (s : Sched n k) : Prop :=
  ∀ w w' g, current (s.workers w) = some g → current (s.workers w') = some g → w = w'

/-- The property of a switch to a thread: its context is that of its last suspension. -/
def SwitchesSaved (s : Sched n k) : SchedOp n k → Prop
  | .switchIn w => ∀ g, s.workers w = .popped g →
      ∃ t, s.threads g = some t ∧ t.context = t.suspended
  | _ => True

def NoWindow (s : Sched n k) : SchedOp n k → Prop
  | .switchIn w => ∀ g, s.workers w = .popped g → ∀ w' pos, s.workers w' ≠ .leaving g pos
  | _ => True

structure Safe (s : Sched n k) : Prop where
  nodup : (tokens s).Nodup
  alive : ∀ g ∈ tokens s, ∃ t, s.threads g = some t ∧ t.state ≠ .dead
  leaving : ∀ w g pos, s.workers w = .leaving g pos →
    ∃ t, s.threads g = some t ∧ t.state ≠ .dead ∧ t.suspended = pos
  one : OneWorker s
  saved : ∀ g t, g ∈ tokens s → s.threads g = some t →
    (∀ w, current (s.workers w) ≠ some g) → t.context = t.suspended

/-- A step that moves threads between places, and touches no context and no current thread. -/
structure Quiet (s s' : Sched n k) : Prop where
  tokens : tokens s' = tokens s
  current : ∀ w, current (s'.workers w) = current (s.workers w)
  leaving : ∀ w g pos, s'.workers w = .leaving g pos → s.workers w = .leaving g pos
  threads : ∀ g t, s.threads g = some t → ∃ t', s'.threads g = some t' ∧
    (t.state ≠ .dead → t'.state ≠ .dead) ∧ t'.context = t.context ∧ t'.suspended = t.suspended

theorem Quiet.refl (s : Sched n k) : Quiet s s where
  tokens := rfl
  current := fun _ => rfl
  leaving := fun _ _ _ h => h
  threads := fun _ t h => ⟨t, h, id, rfl, rfl⟩

theorem Quiet.trans {s s' s'' : Sched n k} (h : Quiet s s') (h' : Quiet s' s'') :
    Quiet s s'' where
  tokens := h'.tokens.trans h.tokens
  current := fun w => (h'.current w).trans (h.current w)
  leaving := fun w g pos hw => h.leaving w g pos (h'.leaving w g pos hw)
  threads := by
    intro g t ht
    obtain ⟨t', ht', hdead, hcontext, hsuspended⟩ := h.threads g t ht
    obtain ⟨t'', ht'', hdead', hcontext', hsuspended'⟩ := h'.threads g t' ht'
    exact ⟨t'', ht'', fun hd => hdead' (hdead hd), hcontext'.trans hcontext,
      hsuspended'.trans hsuspended⟩

theorem Safe.quiet {s s' : Sched n k} (h : Safe s) (hq : Quiet s s') : Safe s' where
  nodup := hq.tokens ▸ h.nodup
  alive := by
    intro g hg
    obtain ⟨t, ht, hdead⟩ := h.alive g (hq.tokens ▸ hg)
    obtain ⟨t', ht', hdead', -, -⟩ := hq.threads g t ht
    exact ⟨t', ht', hdead' hdead⟩
  leaving := by
    intro w g pos hw
    obtain ⟨t, ht, hdead, hpos⟩ := h.leaving w g pos (hq.leaving w g pos hw)
    obtain ⟨t', ht', hdead', -, hsuspended⟩ := hq.threads g t ht
    exact ⟨t', ht', hdead' hdead, hsuspended.trans hpos⟩
  one := by
    intro w w' g hw hw'
    rw [hq.current] at hw hw'
    exact h.one w w' g hw hw'
  saved := by
    intro g t' hg ht' hcur
    have hg' : g ∈ NewClLang.ContextSwitching.tokens s := hq.tokens ▸ hg
    obtain ⟨t, ht, -⟩ := h.alive g hg'
    obtain ⟨t'', ht'', -, hcontext, hsuspended⟩ := hq.threads g t ht
    rw [ht'] at ht''
    cases ht''
    rw [hcontext, hsuspended]
    exact h.saved g t hg' ht (fun w => hq.current w ▸ hcur w)

theorem setState_threads (s : Sched n k) (g : ℕ) {state : GState} (hstate : state ≠ .dead)
    (g' : ℕ) (t : GreenThread) (ht : s.threads g' = some t) :
    ∃ t', (s.setState g state).threads g' = some t' ∧ (t.state ≠ .dead → t'.state ≠ .dead) ∧
      t'.context = t.context ∧ t'.suspended = t.suspended := by
  by_cases hg : g' = g
  · subst hg
    exact ⟨{ t with state := state }, by simp [Sched.setState, Sched.modifyThread, ht],
      fun _ => hstate, rfl, rfl⟩
  · exact ⟨t, by simp [Sched.setState, Sched.modifyThread, hg, ht], id, rfl, rfl⟩

theorem wakeTimers_quiet (now : ℕ) (l : List Timer) (s : Sched n k) :
    Quiet { s with timers := l } (wakeTimers now l s) := by
  induction l generalizing s with
  | nil => exact Quiet.refl _
  | cons t rest ih =>
    rw [wakeTimers]
    split_ifs
    · refine Quiet.trans ?_ (ih _)
      refine ⟨?_, fun _ => rfl, fun _ _ _ h => h, ?_⟩
      · simp only [tokens, Sched.push, Sched.setState, Sched.modifyThread, List.map_cons,
          ← Multiset.coe_add, ← Multiset.cons_coe, ← Multiset.singleton_add, Multiset.coe_nil,
          add_zero]
        abel
      · exact setState_threads _ _ (by decide)
    · exact Quiet.refl _

theorem unlockStep_quiet (s : Sched n k) (m : Fin k) : Quiet s (unlockStep s m) := by
  obtain ⟨r, hr, hx⟩ := tokens_mutex s m
  rw [unlockStep]
  cases hq : (s.mutexes m).queue with
  | nil =>
    refine ⟨?_, fun _ => rfl, fun _ _ _ h => h, fun g t h => ⟨t, h, id, rfl, rfl⟩⟩
    rw [hr, hq]
    exact hx ⟨false, []⟩
  | cons g rest =>
    refine ⟨?_, fun _ => rfl, fun _ _ _ h => h, setState_threads _ g (by decide)⟩
    rw [tokens_push, tokens_setState, hx, hr, hq, ← Multiset.cons_coe, ← Multiset.singleton_add]
    abel

theorem wakeTimers_workers (now : ℕ) (l : List Timer) (s : Sched n k) :
    (wakeTimers now l s).workers = s.workers := by
  induction l generalizing s with
  | nil => rfl
  | cons t rest ih =>
    rw [wakeTimers]
    split_ifs
    · rw [ih]
      rfl
    · rfl

theorem takeStep_quiet (s : Sched n k) (w : Fin n) (now : ℕ) (hw : s.workers w = .idle) :
    Quiet s (takeStep s w now) := by
  have hwake : Quiet s (wakeExpired s now) := wakeTimers_quiet now s.timers s
  have hidle : (wakeExpired s now).workers w = .idle := by
    rw [wakeExpired, wakeTimers_workers, hw]
  rw [takeStep]
  generalize wakeExpired s now = s' at hwake hidle ⊢
  refine hwake.trans ?_
  cases hrunq : s'.runq with
  | nil => exact Quiet.refl s'
  | cons g rest =>
    obtain ⟨r, hr, hx⟩ := tokens_worker { s' with runq := rest } w
    have hidle' : ({ s' with runq := rest } : Sched n k).workers w = .idle := hidle
    have htokens : tokens s' = {g} + tokens { s' with runq := rest } := by
      simp only [tokens, hrunq, ← Multiset.cons_coe, ← Multiset.singleton_add]
      abel
    refine ⟨?_, fun w' => ?_, fun w' g' pos h => ?_, fun g t h => ⟨t, h, id, rfl, rfl⟩⟩
    · simp only
      rw [hx, htokens, hr, hidle']
      simp [held]
    · by_cases hw' : w' = w
      · subst hw'
        simp [Sched.setWorker, hidle, current]
      · simp [Sched.setWorker, hw']
    · by_cases hw' : w' = w
      · subst hw'
        simp [Sched.setWorker] at h
      · simpa [Sched.setWorker, hw'] using h

theorem current_setWorker (s : Sched n k) {w w' : Fin n} {x : Worker} {g : ℕ}
    (h : current ((s.setWorker w x).workers w') = some g) :
    (w' = w ∧ current x = some g) ∨ (w' ≠ w ∧ current (s.workers w') = some g) := by
  by_cases hw : w' = w
  · subst hw
    rw [setWorker_self] at h
    exact Or.inl ⟨rfl, h⟩
  · rw [setWorker_ne s x hw] at h
    exact Or.inr ⟨hw, h⟩

theorem leaving_setWorker (s : Sched n k) {w w' : Fin n} {x : Worker} {g pos : ℕ}
    (h : (s.setWorker w x).workers w' = .leaving g pos) :
    (w' = w ∧ x = .leaving g pos) ∨ (w' ≠ w ∧ s.workers w' = .leaving g pos) := by
  by_cases hw : w' = w
  · subst hw
    rw [setWorker_self] at h
    exact Or.inl ⟨rfl, h⟩
  · rw [setWorker_ne s x hw] at h
    exact Or.inr ⟨hw, h⟩

theorem OneWorker.setWorker {s : Sched n k} (h : OneWorker s) {w : Fin n} {x : Worker}
    (hx : ∀ g, current x = some g → current (s.workers w) = some g) :
    OneWorker (s.setWorker w x) := by
  intro w₁ w₂ g h₁ h₂
  have hold : ∀ w', current ((s.setWorker w x).workers w') = some g →
      current (s.workers w') = some g := by
    intro w' hw'
    rcases current_setWorker s hw' with ⟨rfl, hg⟩ | ⟨-, hg⟩
    · exact hx g hg
    · exact hg
  exact h w₁ w₂ g (hold w₁ h₁) (hold w₂ h₂)

theorem quiet_setWorker (s : Sched n k) {w : Fin n} {x : Worker}
    (hheld : held x = held (s.workers w)) (hcurrent : current x = current (s.workers w))
    (hx : ∀ g pos, x ≠ .leaving g pos) : Quiet s (s.setWorker w x) where
  tokens := by
    obtain ⟨r, hr, hset⟩ := tokens_worker s w
    rw [hset, hr, hheld]
  current := by
    intro w'
    by_cases hww : w' = w
    · subst hww
      rw [setWorker_self, hcurrent]
    · rw [setWorker_ne s _ hww]
  leaving := by
    intro w' g pos hleave
    rcases leaving_setWorker s hleave with ⟨-, heq⟩ | ⟨-, hold⟩
    · exact absurd heq (hx g pos)
    · exact hold
  threads := fun _ t ht => ⟨t, ht, id, rfl, rfl⟩

/-- A thread that no worker has after a change of worker `w` was on none before, but for `w`. -/
theorem not_current_before {s s₁ : Sched n k} (hworkers : s₁.workers = s.workers) {w : Fin n}
    {x : Worker} {g : ℕ} (hno : ∀ w', current ((s₁.setWorker w x).workers w') ≠ some g)
    (hw : current (s.workers w) ≠ some g) (w' : Fin n) : current (s.workers w') ≠ some g := by
  by_cases hww : w' = w
  · rw [hww]
    exact hw
  · have hw' := hno w'
    rw [setWorker_ne s₁ x hww, hworkers] at hw'
    exact hw'

theorem OneWorker.ne_of_leaving {s : Sched n k} (h : OneWorker s) {w w' : Fin n} {g g' pos : ℕ}
    (hcur : current (s.workers w) = some g) (hne : w' ≠ w)
    (hleave : s.workers w' = .leaving g' pos) : g' ≠ g := by
  rintro rfl
  exact hne (h w' w g' (by rw [hleave, current]) hcur)

theorem held_mem (s : Sched n k) (w : Fin n) {g : ℕ} (h : g ∈ held (s.workers w)) :
    g ∈ tokens s := by
  obtain ⟨r, hr, -⟩ := tokens_worker s w
  rw [hr]
  exact Multiset.mem_add.mpr (Or.inl h)

theorem leave_safe {s : Sched n k} (h : Safe s) {w : Fin n} {g pos : ℕ}
    (hw : s.workers w = .running g pos) (s₁ : Sched n k) (hworkers : s₁.workers = s.workers)
    (hthreads : s₁.threads = s.threads) (htokens : tokens s₁ = {g} + tokens s)
    (state : GState) (hstate : state ≠ .dead) : Safe (s₁.leave w g pos state) := by
  have hcur : current (s.workers w) = some g := by rw [hw, current]
  have hmem : g ∈ tokens s := held_mem s w (by simp [hw, held])
  obtain ⟨t, ht, -⟩ := h.alive g hmem
  have hkeep : tokens (s₁.leave w g pos state) = tokens s := by
    obtain ⟨r, hr, hx⟩ := tokens_worker (s₁.modifyThread g
      (fun t => { t with state := state, suspended := pos + 1 })) w
    have hrun : (s₁.modifyThread g
        (fun t => { t with state := state, suspended := pos + 1 })).workers w =
        .running g pos := by rw [← hw, ← hworkers]; rfl
    rw [tokens_modifyThread, htokens, hrun, held_running] at hr
    rw [Sched.leave, hx, held_leaving, zero_add]
    exact (add_left_cancel hr).symm
  have hself : (s₁.leave w g pos state).threads g =
      some { t with state := state, suspended := pos + 1 } := by
    simp [Sched.leave, Sched.setWorker, Sched.modifyThread, hthreads, ht]
  have hother : ∀ g', g' ≠ g → (s₁.leave w g pos state).threads g' = s.threads g' := by
    intro g' hg
    simp [Sched.leave, Sched.setWorker, Sched.modifyThread, hthreads, hg]
  have hone : OneWorker (s₁.leave w g pos state) := by
    refine OneWorker.setWorker (s := s₁.modifyThread g _) ?_ (fun g' hg => ?_)
    · intro w₁ w₂ g' h₁ h₂
      exact h.one w₁ w₂ g' (hworkers ▸ h₁) (hworkers ▸ h₂)
    · change current (s₁.workers w) = some g'
      rw [hworkers, hcur]
      exact hg
  constructor
  case nodup => exact hkeep ▸ h.nodup
  case alive =>
    intro g' hg
    by_cases hg' : g' = g
    · subst hg'
      exact ⟨_, hself, hstate⟩
    · rw [hother g' hg']
      exact h.alive g' (hkeep ▸ hg)
  case leaving =>
    intro w' g' pos' hleave
    rcases leaving_setWorker _ hleave with ⟨-, hx⟩ | ⟨hne, hold⟩
    · cases hx
      exact ⟨_, hself, hstate, rfl⟩
    · have hold' : s.workers w' = .leaving g' pos' := by
        rw [← hworkers]
        exact hold
      rw [hother g' (h.one.ne_of_leaving hcur hne hold')]
      exact h.leaving w' g' pos' hold'
  case one => exact hone
  case saved =>
    intro g' t' hg ht' hno
    have hg' : g' ≠ g := by
      rintro rfl
      exact hno w (by simp [Sched.leave, Sched.setWorker, current])
    rw [hother g' hg'] at ht'
    apply h.saved g' t' (hkeep ▸ hg) ht'
    apply not_current_before (s := s) hworkers hno
    rw [hcur]
    exact fun heq => hg' (Option.some.inj heq).symm

theorem switchOut_safe {s : Sched n k} (h : Safe s) {w : Fin n} {g pos : ℕ}
    (hw : s.workers w = .leaving g pos) :
    Safe ((s.modifyThread g (fun t => { t with context := pos })).setWorker w (.returned g)) := by
  have hcur : current (s.workers w) = some g := by rw [hw, current]
  obtain ⟨t, ht, hdead, hpos⟩ := h.leaving w g pos hw
  obtain ⟨r, hr, hx⟩ := tokens_worker
    (s.modifyThread g (fun t => { t with context := pos })) w
  have hkeep : tokens ((s.modifyThread g (fun t => { t with context := pos })).setWorker w
      (.returned g)) = tokens s := by
    rw [tokens_modifyThread, modifyThread_workers, hw] at hr
    rw [hx, hr]
    rfl
  have hone : OneWorker ((s.modifyThread g (fun t => { t with context := pos })).setWorker w
      (.returned g)) := OneWorker.setWorker (s := s.modifyThread g _) h.one (fun g' hg => by cases hg)
  have hself : ((s.modifyThread g (fun t => { t with context := pos })).setWorker w
      (.returned g)).threads g = some { t with context := pos } := by simp [ht]
  have hother : ∀ g', g' ≠ g → ((s.modifyThread g (fun t => { t with context := pos })).setWorker w
      (.returned g)).threads g' = s.threads g' := by
    intro g' hg
    rw [setWorker_threads, modifyThread_ne s _ hg]
  constructor
  case nodup => exact hkeep ▸ h.nodup
  case alive =>
    intro g' hg
    by_cases hg' : g' = g
    · subst hg'
      exact ⟨_, hself, hdead⟩
    · rw [hother g' hg']
      exact h.alive g' (hkeep ▸ hg)
  case leaving =>
    intro w' g' pos' hleave
    rcases leaving_setWorker _ hleave with ⟨-, hx⟩ | ⟨hne, hold⟩
    · cases hx
    · rw [hother g' (h.one.ne_of_leaving hcur hne hold)]
      exact h.leaving w' g' pos' hold
  case one => exact hone
  case saved =>
    intro g' t' hg ht' hno
    by_cases hg' : g' = g
    · subst hg'
      rw [hself] at ht'
      cases ht'
      exact hpos.symm
    · rw [hother g' hg'] at ht'
      apply h.saved g' t' (hkeep ▸ hg) ht'
      apply not_current_before (s := s) rfl hno
      rw [hcur]
      exact fun heq => hg' (Option.some.inj heq).symm

theorem switchIn_safe {s : Sched n k} (h : Safe s) {w : Fin n} {g : ℕ} (pos : ℕ)
    (hw : s.workers w = .popped g) (hwindow : ∀ w' pos, s.workers w' ≠ .leaving g pos) :
    Safe ((s.setState g .running).setWorker w (.running g pos)) := by
  obtain ⟨r, hr, hx⟩ := tokens_worker (s.setState g .running) w
  have hr' : tokens s = {g} + r := by
    rw [← tokens_setState s g .running, hr]
    simp [Sched.setState, hw]
  have hkeep : tokens ((s.setState g .running).setWorker w (.running g pos)) = tokens s := by
    rw [hx, hr', held_running]
  -- The token of `g` is this worker's, so no other worker runs `g`; and none is leaving it.
  have hfree : ∀ w', current (s.workers w') ≠ some g := by
    intro w' hcur
    cases hw' : s.workers w' with
    | idle | popped g' | returned g' => simp [hw', current] at hcur
    | leaving g' pos' =>
      rw [hw', current] at hcur
      cases hcur
      exact hwindow w' pos' hw'
    | running g' pos' =>
      rw [hw', current] at hcur
      cases hcur
      have hne : w' ≠ w := by
        rintro rfl
        rw [hw] at hw'
        cases hw'
      have hmem : g ∈ tokens ((s.setState g .running).setWorker w .idle) := by
        refine held_mem _ w' ?_
        rw [setWorker_ne _ _ hne]
        simp [Sched.setState, hw']
      rw [hx, held_idle, zero_add] at hmem
      have hnodup := h.nodup
      rw [hr', Multiset.singleton_add, Multiset.nodup_cons] at hnodup
      exact hnodup.1 hmem
  have hrunning : GState.running ≠ .dead := by decide
  have hthreads := setState_threads s g hrunning
  constructor
  case nodup => exact hkeep ▸ h.nodup
  case alive =>
    intro g' hg
    obtain ⟨t, ht, hdead⟩ := h.alive g' (hkeep ▸ hg)
    obtain ⟨t', ht', hdead', -⟩ := hthreads g' t ht
    exact ⟨t', ht', hdead' hdead⟩
  case leaving =>
    intro w' g' pos' hleave
    rcases leaving_setWorker _ hleave with ⟨-, hx⟩ | ⟨-, hold⟩
    · cases hx
    · obtain ⟨t, ht, hdead, hpos⟩ := h.leaving w' g' pos' hold
      obtain ⟨t', ht', hdead', -, hsuspended⟩ := hthreads g' t ht
      exact ⟨t', ht', hdead' hdead, hsuspended.trans hpos⟩
  case one =>
    intro w₁ w₂ g' h₁ h₂
    rcases current_setWorker _ h₁ with ⟨hw₁, hg₁⟩ | ⟨-, h₁⟩
    · rcases current_setWorker _ h₂ with ⟨hw₂, -⟩ | ⟨-, h₂⟩
      · rw [hw₁, hw₂]
      · cases hg₁
        exact absurd h₂ (hfree w₂)
    · rcases current_setWorker _ h₂ with ⟨-, hg₂⟩ | ⟨-, h₂⟩
      · cases hg₂
        exact absurd h₁ (hfree w₁)
      · exact h.one w₁ w₂ g' h₁ h₂
  case saved =>
    intro g' t' hg ht' hno
    obtain ⟨t, ht, -⟩ := h.alive g' (hkeep ▸ hg)
    obtain ⟨t'', ht'', -, hcontext, hsuspended⟩ := hthreads g' t ht
    rw [setWorker_threads, ht''] at ht'
    cases ht'
    rw [hcontext, hsuspended]
    apply h.saved g' t (hkeep ▸ hg) ht
    apply not_current_before (s := s) rfl hno
    rw [hw]
    exact (Option.some_ne_none g').symm

theorem exit_safe {s : Sched n k} (h : Safe s) {w : Fin n} {g pos : ℕ}
    (hw : s.workers w = .running g pos) (f : GreenThread → GreenThread) :
    Safe ((s.modifyThread g f).setWorker w (.returned g)) := by
  have hcur : current (s.workers w) = some g := by rw [hw, current]
  obtain ⟨r, hr, hx⟩ := tokens_worker (s.modifyThread g f) w
  rw [tokens_modifyThread, modifyThread_workers, hw, held_running, Multiset.singleton_add] at hr
  have htokens : tokens ((s.modifyThread g f).setWorker w (.returned g)) = r := by
    rw [hx, held_returned, zero_add]
  have hnodup := h.nodup
  rw [hr, Multiset.nodup_cons] at hnodup
  have hmem : ∀ g' ∈ r, g' ≠ g ∧ g' ∈ tokens s := by
    intro g' hg
    refine ⟨?_, by rw [hr]; exact Multiset.mem_cons_of_mem hg⟩
    rintro rfl
    exact hnodup.1 hg
  have hother : ∀ g', g' ≠ g →
      ((s.modifyThread g f).setWorker w (.returned g)).threads g' = s.threads g' := by
    intro g' hg
    rw [setWorker_threads, modifyThread_ne s f hg]
  constructor
  case nodup => exact htokens ▸ hnodup.2
  case alive =>
    intro g' hg
    obtain ⟨hne, hold⟩ := hmem g' (htokens ▸ hg)
    rw [hother g' hne]
    exact h.alive g' hold
  case leaving =>
    intro w' g' pos' hleave
    rcases leaving_setWorker _ hleave with ⟨-, hx⟩ | ⟨hww, hold⟩
    · cases hx
    · rw [hother g' (h.one.ne_of_leaving hcur hww hold)]
      exact h.leaving w' g' pos' hold
  case one =>
    exact OneWorker.setWorker (s := s.modifyThread g f) h.one (fun g' hg => by cases hg)
  case saved =>
    intro g' t' hg ht' hno
    obtain ⟨hne, hold⟩ := hmem g' (htokens ▸ hg)
    rw [hother g' hne] at ht'
    apply h.saved g' t' hold ht'
    apply not_current_before (s := s) rfl hno
    rw [hcur]
    exact fun heq => hne (Option.some.inj heq).symm

theorem spawnStep_safe {s : Sched n k} (h : Safe s) (g : ℕ) : Safe (spawnStep s g) := by
  rw [spawnStep]
  cases hg : s.threads g with
  | some t => exact h
  | none =>
    have hfresh : ∀ g', (∃ t, s.threads g' = some t) → g' ≠ g := by
      rintro g' ⟨t, ht⟩ rfl
      rw [hg] at ht
      cases ht
    have hnot : g ∉ tokens s := by
      intro hmem
      obtain ⟨t, ht, -⟩ := h.alive g hmem
      exact hfresh g ⟨t, ht⟩ rfl
    have htokens : tokens (s.push g) = g ::ₘ tokens s := by
      rw [tokens_push, Multiset.singleton_add]
    constructor
    case nodup =>
      change (tokens (s.push g)).Nodup
      rw [htokens, Multiset.nodup_cons]
      exact ⟨hnot, h.nodup⟩
    case alive =>
      intro g' hmem
      change g' ∈ tokens (s.push g) at hmem
      rw [htokens, Multiset.mem_cons] at hmem
      rcases hmem with rfl | hmem
      · exact ⟨⟨.runnable, 0, 0⟩, by simp, by simp⟩
      · obtain ⟨t, ht, hdead⟩ := h.alive g' hmem
        exact ⟨t, by simp [Function.update_of_ne (hfresh g' ⟨t, ht⟩), ht], hdead⟩
    case leaving =>
      intro w g' pos hleave
      obtain ⟨t, ht, hrest⟩ := h.leaving w g' pos hleave
      exact ⟨t, by simp [Function.update_of_ne (hfresh g' ⟨t, ht⟩), ht], hrest⟩
    case one => exact h.one
    case saved =>
      intro g' t hmem ht hno
      change g' ∈ tokens (s.push g) at hmem
      rw [htokens, Multiset.mem_cons] at hmem
      by_cases hgg : g' = g
      · subst hgg
        simp only [Function.update_self, Option.some.injEq] at ht
        rw [← ht]
      · simp only [Function.update_of_ne hgg] at ht
        exact h.saved g' t (hmem.resolve_left hgg) ht hno

theorem reapStep_safe {s : Sched n k} (h : Safe s) {w : Fin n} {g : ℕ}
    (hw : s.workers w = .returned g) : Safe (reapStep s w g) := by
  have hidle : Quiet s (s.setWorker w .idle) := by
    apply quiet_setWorker s
    case hheld =>
      rw [hw]
      rfl
    case hcurrent =>
      rw [hw]
      rfl
    case hx => exact fun _ _ => Worker.noConfusion
  have hsafe := h.quiet hidle
  rw [reapStep]
  split
  · -- A dead thread is in no place and current nowhere, so freeing it touches nothing else.
    rename_i context suspended hdead
    have hne : ∀ g', (∃ t, s.threads g' = some t ∧ t.state ≠ .dead) → g' ≠ g := by
      rintro g' ⟨t, ht, hstate⟩ rfl
      rw [hdead] at ht
      cases ht
      exact hstate rfl
    constructor
    case nodup => exact hsafe.nodup
    case alive =>
      intro g' hmem
      have hold := hsafe.alive g' hmem
      simpa only [setWorker_threads, Function.update_of_ne (hne g' hold)] using hold
    case leaving =>
      intro w' g' pos hleave
      have hold := hsafe.leaving w' g' pos hleave
      have hne' : g' ≠ g := hne g' (by obtain ⟨t, ht, hstate, -⟩ := hold; exact ⟨t, ht, hstate⟩)
      simpa only [setWorker_threads, Function.update_of_ne hne'] using hold
    case one => exact hsafe.one
    case saved =>
      intro g' t hmem ht hno
      simp only [setWorker_threads, Function.update_of_ne (hne g' (hsafe.alive g' hmem))] at ht
      exact hsafe.saved g' t hmem ht hno
  · exact hsafe

theorem lockStep_safe {s : Sched n k} (h : Safe s) {w : Fin n} (m : Fin k) {g pos : ℕ}
    (hw : s.workers w = .running g pos) : Safe (lockStep s w m g pos) := by
  obtain ⟨r, hr, hx⟩ := tokens_mutex s m
  rw [lockStep]
  split_ifs
  · refine leave_safe h hw (s.setMutex m ⟨true, (s.mutexes m).queue ++ [g]⟩) rfl rfl ?_
      .waitMutex (by decide)
    rw [hx, hr, ← Multiset.coe_add, Multiset.coe_singleton]
    abel
  · refine h.quiet ⟨?_, fun _ => rfl, fun _ _ _ hl => hl, fun g t ht => ⟨t, ht, id, rfl, rfl⟩⟩
    rw [hx, hr]

theorem schedStep_safe {s : Sched n k} (h : Safe s) (op : SchedOp n k) (hop : NoWindow s op) :
    Safe (schedStep s op) := by
  cases op with
  | spawn g => exact spawnStep_safe h g
  | work w =>
    rw [schedStep]
    split
    · rename_i g pos hw
      apply h.quiet
      apply quiet_setWorker s
      case hheld =>
        rw [hw]
        rfl
      case hcurrent =>
        rw [hw]
        rfl
      case hx => exact fun _ _ => Worker.noConfusion
    · exact h
  | yield w =>
    rw [schedStep]
    split
    · rename_i g pos hw
      exact leave_safe h hw (s.push g) rfl rfl (tokens_push s g) .runnable (by decide)
    · exact h
  | sleep w deadline =>
    rw [schedStep]
    split
    · rename_i g pos hw
      exact leave_safe h hw { s with timers := insertTimer ⟨deadline, g⟩ s.timers } rfl rfl
        (tokens_insertTimer s ⟨deadline, g⟩) .waitTimer (by decide)
    · exact h
  | lock w m =>
    rw [schedStep]
    split
    · rename_i g pos hw
      exact lockStep_safe h m hw
    · exact h
  | unlock w m =>
    rw [schedStep]
    split
    · exact h.quiet (unlockStep_quiet s m)
    · exact h
  | exit w =>
    rw [schedStep]
    split
    · rename_i g pos hw
      exact exit_safe h hw _
    · exact h
  | switchOut w =>
    rw [schedStep]
    split
    · rename_i g pos hw
      exact switchOut_safe h hw
    · exact h
  | take w now =>
    rw [schedStep]
    split
    · rename_i hw
      exact h.quiet (takeStep_quiet s w now hw)
    · exact h
  | switchIn w =>
    rw [schedStep]
    split
    · rename_i g hw
      exact switchIn_safe h _ hw (hop g hw)
    · exact h
  | reap w =>
    rw [schedStep]
    split
    · rename_i g hw
      exact reapStep_safe h hw
    · exact h

theorem initSched_safe (n k : ℕ) : Safe (initSched n k) where
  nodup := by simp [tokens, initSched]
  alive := by
    intro g hg
    simp [tokens, initSched] at hg
  leaving := by
    intro w g pos hw
    cases hw
  one := by
    intro w w' g hw
    cases hw
  saved := by
    intro g t hg ht
    cases ht

theorem switchIn_breaks {s : Sched n k} (op : SchedOp n k) (hop : ¬ NoWindow s op) :
    ¬ OneWorker (schedStep s op) := by
  intro hone
  cases op with
  | switchIn w =>
    simp only [NoWindow] at hop
    push Not at hop
    obtain ⟨g, hw, w', pos, hw'⟩ := hop
    have hne : w' ≠ w := by
      rintro rfl
      rw [hw] at hw'
      cases hw'
    simp only [schedStep, hw] at hone
    refine hne (hone w' w g ?_ ?_)
    · rw [setWorker_ne _ _ hne]
      simp [Sched.setState, hw', current]
    · simp [current]
  | _ => exact hop trivial

theorem switches_saved {s : Sched n k} (h : Safe s) (op : SchedOp n k) (hop : NoWindow s op) :
    SwitchesSaved s op := by
  cases op with
  | switchIn w =>
    intro g hw
    have hmem : g ∈ tokens s := held_mem s w (by simp [hw])
    obtain ⟨t, ht, -⟩ := h.alive g hmem
    refine ⟨t, ht, h.saved g t hmem ht (fun w' hw' => ?_)⟩
    have hnext := schedStep_safe h (.switchIn w) hop
    simp only [schedStep, hw] at hnext
    have hne : w' ≠ w := by
      rintro rfl
      rw [hw] at hw'
      cases hw'
    refine hne (hnext.one w' w g ?_ ?_)
    · rw [setWorker_ne _ _ hne]
      exact hw'
    · simp [current]
  | _ => trivial

end Invariant

end NewClLang.ContextSwitching
