import NewClLang.ContextSwitching
import NewClLang.RuntimeMachine

set_option autoImplicit false

/-!
# Steps that only move threads

Most steps of the runtime take threads from one place to another and touch the state of no thread
that is in none.
-/
namespace NewClLang.ThreadMoves
open SchedulerModel ContextSwitching RuntimeMachine

variable {n k : ℕ}

/-- A step that keeps the threads in their places as a whole. A worker can only be back in its
    loop with a thread that had a place, and no worker is left between publication and switch. -/
structure Moves (s s' : Sched n k) : Prop where
  tokens : tokens s' = tokens s
  liveCount : s'.liveCount = s.liveCount
  elsewhere : ∀ g, g ∉ ContextSwitching.tokens s → s'.threads g = s.threads g
  stays : ∀ w g, s.workers w = .returned g → s'.workers w = .returned g
  returned : ∀ w g, s'.workers w = .returned g →
    s.workers w = .returned g ∨ g ∈ ContextSwitching.tokens s
  leaving : ∀ w g pos, s'.workers w = .leaving g pos → s.workers w = .leaving g pos

theorem Moves.refl (s : Sched n k) : Moves s s where
  tokens := rfl
  liveCount := rfl
  elsewhere := fun _ _ => rfl
  stays := fun _ _ h => h
  returned := fun _ _ h => Or.inl h
  leaving := fun _ _ _ h => h

theorem Moves.trans {s s' s'' : Sched n k} (h : Moves s s') (h' : Moves s' s'') :
    Moves s s'' where
  tokens := h'.tokens.trans h.tokens
  liveCount := h'.liveCount.trans h.liveCount
  elsewhere := by
    intro g hg
    rw [h'.elsewhere g (by rwa [h.tokens]), h.elsewhere g hg]
  stays := fun w g hw => h'.stays w g (h.stays w g hw)
  returned := by
    intro w g hw
    rcases h'.returned w g hw with hw | hg
    · exact h.returned w g hw
    · exact Or.inr (h.tokens ▸ hg)
  leaving := fun w g pos hw => h.leaving w g pos (h'.leaving w g pos hw)

/-- A change of places that no worker takes part in. -/
theorem moves_of_workers {s s' : Sched n k} (htokens : tokens s' = tokens s)
    (hlive : s'.liveCount = s.liveCount) (hworkers : s'.workers = s.workers)
    (hthreads : ∀ g, g ∉ tokens s → s'.threads g = s.threads g) : Moves s s' where
  tokens := htokens
  liveCount := hlive
  elsewhere := hthreads
  stays := fun _ _ hw => hworkers ▸ hw
  returned := fun _ _ hw => Or.inl (hworkers ▸ hw)
  leaving := fun _ _ _ hw => hworkers ▸ hw

/-- A worker that holds what it held and is neither back in its loop nor leaving a thread. -/
theorem moves_setWorker {s : Sched n k} {w : Fin n} {x : Worker}
    (hheld : held x = held (s.workers w)) (hold : ∀ g, s.workers w ≠ .returned g)
    (hreturned : ∀ g, x ≠ .returned g) (hleaving : ∀ g pos, x ≠ .leaving g pos) :
    Moves s (s.setWorker w x) where
  tokens := by
    obtain ⟨r, hr, hset⟩ := tokens_worker s w
    rw [hset, hr, hheld]
  liveCount := rfl
  elsewhere := fun _ _ => rfl
  stays := by
    intro w' g hw
    have hne : w' ≠ w := by
      rintro rfl
      exact hold g hw
    rw [setWorker_ne s x hne, hw]
  returned := by
    intro w' g hw
    by_cases hww : w' = w
    · subst hww
      rw [setWorker_self] at hw
      exact absurd hw (hreturned g)
    · rw [setWorker_ne s x hww] at hw
      exact Or.inl hw
  leaving := by
    intro w' g pos hw
    rcases leaving_setWorker s hw with ⟨-, heq⟩ | ⟨-, hold⟩
    · exact absurd heq (hleaving g pos)
    · exact hold

theorem setState_elsewhere (s : Sched n k) {g g' : ℕ} (state : GState) (h : g' ≠ g) :
    (s.setState g state).threads g' = s.threads g' := modifyThread_ne s _ h

theorem wakeTimers_moves (now : ℕ) (l : List Timer) (s : Sched n k) :
    Moves { s with timers := l } (wakeTimers now l s) := by
  induction l generalizing s with
  | nil => exact Moves.refl _
  | cons t rest ih =>
    rw [wakeTimers]
    split_ifs
    · have htokens : tokens { (s.setState t.g .runnable).push t.g with timers := rest } =
          tokens { s with timers := t :: rest } := by
        simp only [tokens, Sched.push, Sched.setState, Sched.modifyThread, List.map_cons,
          ← Multiset.coe_add, ← Multiset.cons_coe, ← Multiset.singleton_add, Multiset.coe_nil,
          add_zero]
        abel
      refine Moves.trans (moves_of_workers htokens rfl rfl ?_) (ih _)
      intro g hg
      have hne : g ≠ t.g := by
        rintro rfl
        apply hg
        simp [tokens]
      exact setState_elsewhere s .runnable hne
    · exact Moves.refl _

theorem unlockStep_moves (s : Sched n k) (m : Fin k) : Moves s (unlockStep s m) := by
  have htokens : tokens (unlockStep s m) = tokens s := (unlockStep_quiet s m).tokens
  refine moves_of_workers htokens ?_ ?_ ?_
  · rw [unlockStep]
    split <;> rfl
  · rw [unlockStep]
    split <;> rfl
  · intro g hg
    rw [unlockStep]
    cases hq : (s.mutexes m).queue with
    | nil => rfl
    | cons g' rest =>
      have hne : g ≠ g' := by
        rintro rfl
        obtain ⟨r, hr, -⟩ := tokens_mutex s m
        apply hg
        rw [hr, hq]
        simp
      exact setState_elsewhere (s.setMutex m ⟨(s.mutexes m).locked, rest⟩) .runnable hne

theorem setMutex_moves (s : Sched n k) (m : Fin k) (locked : Bool) :
    Moves s (s.setMutex m ⟨locked, (s.mutexes m).queue⟩) := by
  obtain ⟨r, hr, hx⟩ := tokens_mutex s m
  refine moves_of_workers ?_ rfl rfl (fun _ _ => rfl)
  rw [hx, hr]

theorem takeStep_moves (s : Sched n k) {w : Fin n} (now : ℕ) (hw : s.workers w = .idle) :
    Moves s (takeStep s w now) := by
  have hwake : Moves s (wakeExpired s now) := wakeTimers_moves now s.timers s
  have hidle : (wakeExpired s now).workers w = .idle := by
    rw [wakeExpired, wakeTimers_workers, hw]
  have htokens := (takeStep_quiet s w now hw).tokens
  rw [takeStep] at htokens ⊢
  rw [← hwake.tokens] at htokens
  generalize wakeExpired s now = s' at hwake hidle htokens ⊢
  refine hwake.trans ?_
  cases hrunq : s'.runq with
  | nil => exact Moves.refl s'
  | cons g rest =>
    simp only [hrunq] at htokens
    -- The worker is idle before and holds the popped thread after, on a shorter queue.
    have hnone : ∀ w', ({ s' with runq := rest } : Sched n k).workers w' = s'.workers w' :=
      fun _ => rfl
    refine ⟨htokens, rfl, fun _ _ => rfl, ?_, ?_, ?_⟩
    · intro w' g' hret
      have hne : w' ≠ w := by
        rintro rfl
        rw [hidle] at hret
        cases hret
      rw [setWorker_ne _ _ hne, hnone, hret]
    · intro w' g' hret
      by_cases hww : w' = w
      · subst hww
        rw [setWorker_self] at hret
        cases hret
      · rw [setWorker_ne _ _ hww] at hret
        exact Or.inl hret
    · intro w' g' pos hleave
      rcases leaving_setWorker _ hleave with ⟨-, heq⟩ | ⟨-, hold⟩
      · cases heq
      · exact hold

theorem switchIn_moves (s : Sched n k) (w : Fin n) : Moves s (schedStep s (.switchIn w)) := by
  rw [schedStep]
  split
  · rename_i g hw
    have hset : Moves s (s.setState g .running) := by
      refine moves_of_workers (tokens_setState s g .running) rfl rfl ?_
      intro g' hg'
      have hne : g' ≠ g := by
        rintro rfl
        exact hg' (held_mem s w (by simp [hw]))
      exact setState_elsewhere s .running hne
    have hw' : (s.setState g .running).workers w = .popped g := hw
    refine hset.trans (moves_setWorker ?_ ?_ ?_ ?_)
    · rw [hw', held_running, held_popped]
    · rw [hw']
      exact fun _ => Worker.noConfusion
    · exact fun _ => Worker.noConfusion
    · exact fun _ _ => Worker.noConfusion
  · exact Moves.refl s

/-- A thread that has published itself in `s₁` and is switched away from. -/
theorem suspended_moves {s : Sched n k} {w : Fin n} {g pos : ℕ}
    (hw : s.workers w = .running g pos) (s₁ : Sched n k) (hworkers : s₁.workers = s.workers)
    (hthreads : s₁.threads = s.threads) (hlive : s₁.liveCount = s.liveCount)
    (htokens : tokens s₁ = {g} + tokens s) (state : GState) :
    Moves s (schedStep (s₁.leave w g pos state) (.switchOut w)) := by
  have hleave : (s₁.leave w g pos state).workers w = .leaving g (pos + 1) := by
    rw [Sched.leave, setWorker_self]
  have hmem : g ∈ tokens s := held_mem s w (by simp [hw])
  simp only [schedStep, hleave]
  have hother : ∀ (x y : Worker) (f f' : GreenThread → GreenThread) (w' : Fin n), w' ≠ w →
      ((((s₁.modifyThread g f).setWorker w x).modifyThread g f').setWorker w y).workers w' =
        s.workers w' := by
    intro x y f f' w' hne
    rw [setWorker_ne _ _ hne, modifyThread_workers, setWorker_ne _ _ hne, modifyThread_workers,
      hworkers]
  refine ⟨?_, hlive, ?_, ?_, ?_, ?_⟩
  · obtain ⟨r, hr, hx⟩ := tokens_worker (s₁.modifyThread g
      (fun t => { t with state := state, suspended := pos + 1 })) w
    have hrun : (s₁.modifyThread g
        (fun t => { t with state := state, suspended := pos + 1 })).workers w =
        .running g pos := by
      rw [modifyThread_workers, hworkers, hw]
    rw [tokens_modifyThread, htokens, hrun, held_running] at hr
    obtain ⟨r', hr', hx'⟩ := tokens_worker ((s₁.leave w g pos state).modifyThread g
      (fun t => { t with context := pos + 1 })) w
    rw [tokens_modifyThread, modifyThread_workers, hleave, held_leaving, Sched.leave, hx,
      held_leaving] at hr'
    rw [hx', held_returned, ← hr', zero_add]
    exact (add_left_cancel hr).symm
  · intro g' hg'
    have hne : g' ≠ g := by
      rintro rfl
      exact hg' hmem
    rw [setWorker_threads, modifyThread_ne _ _ hne, Sched.leave, setWorker_threads,
      modifyThread_ne _ _ hne, hthreads]
  · intro w' g' hret
    have hne : w' ≠ w := by
      rintro rfl
      rw [hw] at hret
      cases hret
    rw [Sched.leave, hother _ _ _ _ w' hne, hret]
  · intro w' g' hret
    by_cases hww : w' = w
    · subst hww
      rw [setWorker_self] at hret
      cases hret
      exact Or.inr hmem
    · rw [Sched.leave, hother _ _ _ _ w' hww] at hret
      exact Or.inl hret
  · intro w' g' pos' hl
    by_cases hww : w' = w
    · subst hww
      rw [setWorker_self] at hl
      cases hl
    · rw [Sched.leave, hother _ _ _ _ w' hww] at hl
      exact hl

theorem switchOut_stays {s : Sched n k} {w : Fin n} (hw : ∀ g pos, s.workers w ≠ .leaving g pos) :
    schedStep s (.switchOut w) = s := by
  rw [schedStep]
  split
  · rename_i g pos hl
    exact absurd hl (hw g pos)
  · rfl

theorem threadStep_moves {s : Sched n k} (hsw : ∀ w g pos, s.workers w ≠ .leaving g pos)
    (w : Fin n) (op : ThreadOp k) : Moves s (threadStep s w op) := by
  cases hw : s.workers w with
  | running g pos =>
    cases op with
    | work =>
      simp only [threadStep, schedStep, hw]
      refine moves_setWorker ?_ ?_ ?_ ?_
      · rw [hw, held_running, held_running]
      · rw [hw]
        exact fun _ => Worker.noConfusion
      · exact fun _ => Worker.noConfusion
      · exact fun _ _ => Worker.noConfusion
    | yield =>
      rw [threadStep, suspend]
      simp only [schedStep.eq_def s, hw]
      exact suspended_moves hw (s.push g) rfl rfl rfl (tokens_push s g) .runnable
    | sleep deadline =>
      rw [threadStep, suspend]
      simp only [schedStep.eq_def s, hw]
      exact suspended_moves hw { s with timers := insertTimer ⟨deadline, g⟩ s.timers } rfl
        rfl rfl (tokens_insertTimer s ⟨deadline, g⟩) .waitTimer
    | lock m =>
      rw [threadStep, suspend]
      simp only [schedStep.eq_def s, hw, lockStep]
      split_ifs
      · obtain ⟨r, hr, hx⟩ := tokens_mutex s m
        refine suspended_moves hw (s.setMutex m ⟨true, (s.mutexes m).queue ++ [g]⟩) rfl rfl
          rfl ?_ .waitMutex
        rw [hx, hr, ← Multiset.coe_add, Multiset.coe_singleton]
        abel
      · have hset := setMutex_moves s m true
        have hw' : ∀ g' pos', (s.setMutex m ⟨true, (s.mutexes m).queue⟩).workers w ≠
            .leaving g' pos' := fun g' pos' hl => hsw w g' pos' hl
        rw [switchOut_stays hw']
        exact hset
    | unlock m =>
      simp only [threadStep, schedStep, hw]
      exact unlockStep_moves s m
  | _ =>
    cases op with
    | work | unlock m =>
      simp only [threadStep, schedStep, hw]
      exact Moves.refl s
    | yield | sleep deadline | lock m =>
      simp only [threadStep, suspend, schedStep, hw]
      first
        | exact Moves.refl s
        | exact absurd hw (hsw w _ _)

end NewClLang.ThreadMoves
