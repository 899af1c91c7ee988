import NewClLang.ThreadMoves

set_option autoImplicit false

/-!
# One place for each live thread

A thread that has been submitted and not yet passed to `g_finish_dead` is in the run queue, in a
wait queue, in a timer or on a worker. A worker that reads a thread's state after another worker
has run the thread to its exit takes it for its own to finish.
-/
namespace NewClLang.ThreadPlaces
open SchedulerModel ContextSwitching RuntimeMachine ThreadMoves TransitionRuns

variable {n k : ℕ}

/-- The thread that worker `w` has run to its exit and not passed to `g_finish_dead` yet. -/
def exiting (s : Runtime n k) (w : Fin n) : Multiset ℕ :=
  match s.sched.workers w with
  | .returned g => if s.exitedOn g = some w then {g} else 0
  | _ => 0

/-- One entry for each place in which a thread is: queues, timers and workers. -/
def places (s : Runtime n k) : Multiset ℕ := tokens s.sched + ∑ w, exiting s w

structure OnePlace (s : Runtime n k) : Prop where
  place : ∀ g ∈ s.submitted, g ∉ s.finished → (places s).count g = 1
  live : s.sched.liveCount = (s.submitted.filter (· ∉ s.finished)).length
  once : s.finished.Nodup
  last : ∀ g ∈ s.finished, g ∈ s.submitted ∧ (s.exitedOn g).isSome ∧ g ∉ places s
  finishes : ∀ g w, s.exitedOn g = some w → g ∉ s.finished → s.sched.workers w = .returned g ∧
    (s.ended = false → ∀ seen, (runtimeStep s (.reap w seen)).finished = s.finished ++ [g])
  counted : s.crashed ≠ some .noLiveThread

/-- Worker `w` does not read the state of a thread that another worker has run to its exit. -/
def OwnExit (s : Runtime n k) : RuntimeOp n k → Prop
  | .reap w _ => s.ended = false → ∀ g, s.sched.workers w = .returned g →
      ∀ w', s.exitedOn g = some w' → w' = w
  | _ => True

structure Kept (s : Runtime n k) : Prop where
  safe : Safe s.sched
  switched : ∀ w g pos, s.sched.workers w ≠ .leaving g pos
  nodup : s.submitted.Nodup
  known : ∀ g t, s.sched.threads g = some t → g ∈ s.submitted
  returned : ∀ w g, s.sched.workers w = .returned g → g ∈ s.submitted
  dead : ∀ g t, s.sched.threads g = some t → t.state = .dead →
    ∃ w, s.exitedOn g = some w ∧ s.sched.workers w = .returned g
  exited : ∀ g w, s.exitedOn g = some w → g ∈ s.submitted ∧ g ∉ tokens s.sched ∧
    ∀ t, s.sched.threads g = some t → t.state = .dead
  freed : ∀ g ∈ s.submitted, s.sched.threads g = none → g ∈ s.finished
  finished : ∀ g ∈ s.finished, g ∈ s.submitted ∧ (s.exitedOn g).isSome
  count : s.sched.liveCount = s.submitted.length - s.finished.length
  cover : ∀ g ∈ s.submitted, g ∉ s.finished → g ∈ places s

/-- What holds besides while no worker has finished another worker's thread. -/
structure Exact (s : Runtime n k) : Prop where
  partition : (s.submitted : Multiset ℕ) = places s + s.finished
  counted : s.crashed ≠ some .noLiveThread

theorem exiting_mem {s : Runtime n k} {w : Fin n} {g : ℕ} (h : g ∈ exiting s w) :
    s.sched.workers w = .returned g ∧ s.exitedOn g = some w := by
  rw [exiting] at h
  cases hw : s.sched.workers w with
  | returned g' =>
    simp only [hw] at h
    split_ifs at h with hexit
    · rw [Multiset.mem_singleton] at h
      rw [h]
      exact ⟨rfl, hexit⟩
    · exact absurd h (Multiset.notMem_zero g)
  | _ =>
    simp only [hw] at h
    exact absurd h (Multiset.notMem_zero g)

theorem exiting_returned {s : Runtime n k} {w : Fin n} {g : ℕ}
    (hw : s.sched.workers w = .returned g) (hexit : s.exitedOn g = some w) :
    exiting s w = {g} := by
  simp only [exiting, hw]
  rw [if_pos hexit]

theorem sum_change {f f' : Fin n → Multiset ℕ} (w : Fin n) (h : ∀ w', w' ≠ w → f' w' = f w') :
    ∃ r, ∑ w', f w' = f w + r ∧ ∑ w', f' w' = f' w + r := by
  refine ⟨∑ w' ∈ Finset.univ.erase w, f w', ?_, ?_⟩
  · exact (Finset.add_sum_erase _ _ (Finset.mem_univ w)).symm
  · rw [← Finset.add_sum_erase _ _ (Finset.mem_univ w)]
    congr 1
    exact Finset.sum_congr rfl (fun w' hw' => h w' (Finset.ne_of_mem_erase hw'))

theorem mem_places_of_exiting {s : Runtime n k} {w : Fin n} {g : ℕ} (h : g ∈ exiting s w) :
    g ∈ places s := by
  obtain ⟨r, hr, -⟩ := @sum_change n (exiting s) (exiting s) w (fun _ _ => rfl)
  rw [places, hr]
  exact Multiset.mem_add.mpr (Or.inr (Multiset.mem_add.mpr (Or.inl h)))

section Moving

structure SameHistory (s s' : Runtime n k) : Prop where
  submitted : s'.submitted = s.submitted
  exitedOn : s'.exitedOn = s.exitedOn
  finished : s'.finished = s.finished
  counted : s'.crashed = some .noLiveThread → s.crashed = some .noLiveThread

variable {s s' : Runtime n k}

theorem exiting_moves (h : Kept s) (hm : Moves s.sched s'.sched) (hsame : SameHistory s s')
    (w : Fin n) : exiting s' w = exiting s w := by
  have hback : ∀ g, s'.sched.workers w = .returned g → s.sched.workers w ≠ .returned g →
      s.exitedOn g ≠ some w := by
    intro g hw hno hexit
    rcases hm.returned w g hw with hold | htoken
    · exact hno hold
    · exact (h.exited g w hexit).2.1 htoken
  cases hw : s.sched.workers w with
  | returned g =>
    have hw' := hm.stays w g hw
    simp only [exiting, hw, hw', hsame.exitedOn]
  | _ =>
    simp only [exiting, hw]
    cases hw' : s'.sched.workers w with
    | returned g =>
      simp only [hsame.exitedOn]
      refine if_neg (hback g hw' ?_)
      rw [hw]
      exact Worker.noConfusion
    | _ => rfl

theorem places_moves (h : Kept s) (hm : Moves s.sched s'.sched) (hsame : SameHistory s s') :
    places s' = places s := by
  rw [places, places, hm.tokens]
  congr 1
  exact Finset.sum_congr rfl (fun w _ => exiting_moves h hm hsame w)

theorem Kept.moves (h : Kept s) (hm : Moves s.sched s'.sched) (hsafe : Safe s'.sched)
    (hsame : SameHistory s s') : Kept s' := by
  -- What is in no place keeps its record, and what is in one has a live record on both sides.
  have htokens : ∀ g ∈ tokens s'.sched, ∃ t, s.sched.threads g = some t := by
    intro g hg
    obtain ⟨t, ht, -⟩ := h.safe.alive g (hm.tokens ▸ hg)
    exact ⟨t, ht⟩
  have helse : ∀ g, g ∉ tokens s'.sched → s'.sched.threads g = s.sched.threads g := by
    intro g hg
    exact hm.elsewhere g (by rwa [← hm.tokens])
  constructor
  case safe => exact hsafe
  case switched => exact fun w g pos hw => h.switched w g pos (hm.leaving w g pos hw)
  case nodup => exact hsame.submitted ▸ h.nodup
  case known =>
    intro g t ht
    rw [hsame.submitted]
    by_cases hg : g ∈ tokens s'.sched
    · obtain ⟨t', ht'⟩ := htokens g hg
      exact h.known g t' ht'
    · exact h.known g t (helse g hg ▸ ht)
  case returned =>
    intro w g hw
    rw [hsame.submitted]
    rcases hm.returned w g hw with hold | htoken
    · exact h.returned w g hold
    · obtain ⟨t, ht, -⟩ := h.safe.alive g htoken
      exact h.known g t ht
  case dead =>
    intro g t ht hdead
    have hg : g ∉ tokens s'.sched := by
      intro hmem
      obtain ⟨t', ht', hlive⟩ := hsafe.alive g hmem
      rw [ht] at ht'
      cases ht'
      exact hlive hdead
    obtain ⟨w, hexit, hw⟩ := h.dead g t (helse g hg ▸ ht) hdead
    exact ⟨w, hsame.exitedOn ▸ hexit, hm.stays w g hw⟩
  case exited =>
    intro g w hexit
    rw [hsame.exitedOn] at hexit
    obtain ⟨hsub, hno, hdead⟩ := h.exited g w hexit
    rw [hsame.submitted, hm.tokens]
    refine ⟨hsub, hno, fun t ht => hdead t ?_⟩
    rwa [← hm.elsewhere g hno]
  case freed =>
    intro g hg hnone
    rw [hsame.submitted] at hg
    rw [hsame.finished]
    by_cases hmem : g ∈ tokens s'.sched
    · obtain ⟨t, ht, -⟩ := hsafe.alive g hmem
      rw [hnone] at ht
      cases ht
    · exact h.freed g hg (helse g hmem ▸ hnone)
  case finished =>
    rw [hsame.finished, hsame.submitted, hsame.exitedOn]
    exact h.finished
  case count =>
    rw [hm.liveCount, hsame.submitted, hsame.finished]
    exact h.count
  case cover =>
    rw [places_moves h hm hsame, hsame.submitted, hsame.finished]
    exact h.cover

theorem Exact.moves (he : Exact s) (h : Kept s) (hm : Moves s.sched s'.sched)
    (hsame : SameHistory s s') : Exact s' where
  partition := by
    rw [places_moves h hm hsame, hsame.submitted, hsame.finished]
    exact he.partition
  counted := fun hc => he.counted (hsame.counted hc)

end Moving

section Cases

/-- A step that moves threads and finishes none. -/
structure Moved (s s' : Runtime n k) : Prop where
  same : SameHistory s s'
  moves : Moves s.sched s'.sched
  safe : Safe s.sched → Safe s'.sched

theorem Moved.refl (s : Runtime n k) : Moved s s :=
  ⟨⟨rfl, rfl, rfl, id⟩, Moves.refl _, id⟩

/-- A step of the main thread or of a worker that leaves the scheduler alone. -/
theorem moved_of_sched {s s' : Runtime n k} (hsched : s'.sched = s.sched)
    (hsame : SameHistory s s') : Moved s s' :=
  ⟨hsame, hsched ▸ Moves.refl _, fun h => hsched ▸ h⟩

theorem moved_crash (s : Runtime n k) {c : Crash} (hc : c ≠ .noLiveThread) :
    Moved s (s.crash c) :=
  moved_of_sched rfl ⟨rfl, rfl, rfl, fun h => absurd (Option.some.inj h) hc⟩

theorem moved_main (s : Runtime n k) (main : MainThread n) (accepting : Bool)
    (stopped : Fin n → Bool) :
    Moved s { s with main := main, accepting := accepting, stopped := stopped } :=
  moved_of_sched rfl ⟨rfl, rfl, rfl, id⟩

theorem moved_schedStep {s : Runtime n k} (op : SchedOp n k)
    (hmoves : Moves s.sched (schedStep s.sched op)) (hop : NoWindow s.sched op) :
    Moved s { s with sched := schedStep s.sched op } :=
  ⟨⟨rfl, rfl, rfl, id⟩, hmoves, fun h => schedStep_safe h op hop⟩

theorem noWindow {s : Sched n k} (hsw : ∀ w g pos, s.workers w ≠ .leaving g pos)
    (op : SchedOp n k) : NoWindow s op := by
  cases op with
  | switchIn w => exact fun g _ w' pos => hsw w' g pos
  | _ => trivial

theorem moved_thread {s : Runtime n k} (hsw : ∀ w g pos, s.sched.workers w ≠ .leaving g pos)
    (w : Fin n) (op : ThreadOp k) : Moved s { s with sched := threadStep s.sched w op } := by
  refine ⟨⟨rfl, rfl, rfl, id⟩, threadStep_moves hsw w op, fun hsafe => ?_⟩
  have hsuspend : ∀ publish : SchedOp n k, Safe (suspend s.sched w publish) := fun publish =>
    schedStep_safe (schedStep_safe hsafe publish (noWindow hsw publish)) (.switchOut w) trivial
  cases op with
  | work => exact schedStep_safe hsafe (.work w) trivial
  | yield => exact hsuspend _
  | sleep deadline => exact hsuspend _
  | lock m => exact hsuspend _
  | unlock m => exact schedStep_safe hsafe (.unlock w m) trivial

theorem moved_noThread (s : Runtime n k) (w : Fin n) : Moved s (noThread s w) := by
  rw [noThread]
  split_ifs
  · exact moved_main s _ _ _
  · exact moved_main s _ _ _
  · exact Moved.refl s

theorem Moved.trans {s s' s'' : Runtime n k} (h : Moved s s') (h' : Moved s' s'') :
    Moved s s'' where
  same :=
    ⟨h'.same.submitted.trans h.same.submitted, h'.same.exitedOn.trans h.same.exitedOn,
      h'.same.finished.trans h.same.finished, fun hc => h.same.counted (h'.same.counted hc)⟩
  moves := h.moves.trans h'.moves
  safe := fun hs => h'.safe (h.safe hs)

theorem moved_take (s : Runtime n k) (w : Fin n) (now : ℕ) : Moved s (workerTake s w now) := by
  rw [workerTake]
  split_ifs
  · exact Moved.refl s
  · split
    · rename_i hw
      have htake : Moved s { s with sched := takeStep s.sched w now } :=
        ⟨⟨rfl, rfl, rfl, id⟩, takeStep_moves s.sched now hw,
          fun hs => hs.quiet (takeStep_quiet s.sched w now hw)⟩
      simp only
      split
      · exact htake
      · exact htake.trans (moved_noThread _ w)
    · exact Moved.refl s

theorem moved_mainCall (s : Runtime n k) (op : MainOp k) : Moved s (mainCall s op) := by
  cases op with
  | lock m =>
    rw [mainCall]
    split_ifs
    · exact moved_crash s (by decide)
    · obtain ⟨r, hr, hx⟩ := tokens_mutex s.sched m
      refine ⟨⟨rfl, rfl, rfl, id⟩, setMutex_moves s.sched m true, fun hs => hs.quiet ?_⟩
      refine ⟨?_, fun _ => rfl, fun _ _ _ h => h, fun _ t ht => ⟨t, ht, id, rfl, rfl⟩⟩
      rw [hx, hr]
  | unlock m =>
    exact ⟨⟨rfl, rfl, rfl, id⟩, unlockStep_moves s.sched m,
      fun hs => hs.quiet (unlockStep_quiet s.sched m)⟩
  | sleep => exact moved_crash s (by decide)
  | yield => exact moved_crash s (by decide)
  | checkYield => exact Moved.refl s

theorem moved_drain (s : Runtime n k) (accepting : Bool) (deadline : ℕ) :
    Moved s (drain { s with accepting := accepting } deadline) := moved_main s _ _ _

theorem moved_poll (s : Runtime n k) (deadline now reset : ℕ) :
    Moved s (pollDrain s deadline now reset) := by
  rw [pollDrain]
  split_ifs
  · exact moved_crash s (by decide)
  · exact moved_drain s s.accepting _
  · exact moved_drain s s.accepting _

theorem moved_check (s : Runtime n k) (w : Fin n) : Moved s (checkPending s w) := by
  rw [checkPending]
  split_ifs
  · exact moved_main s _ _ _
  · exact moved_crash s (by decide)
  · exact moved_main s _ _ _

/-- What one step can do: move threads, submit a new one, run one to its exit, or reap. -/
theorem runtimeStep_cases {s : Runtime n k}
    (hsw : ∀ w g pos, s.sched.workers w ≠ .leaving g pos) (op : RuntimeOp n k) :
    Moved s (runtimeStep s op) ∨
    (∃ g, g ∉ s.submitted ∧ runtimeStep s op =
      { s with sched := spawnStep s.sched g, submitted := s.submitted ++ [g] }) ∨
    (∃ w g pos, s.sched.workers w = .running g pos ∧ runtimeStep s op =
      { s with
        sched := schedStep s.sched (.exit w)
        exitedOn := Function.update s.exitedOn g (some w) }) ∨
    (∃ w seen g, op = .reap w seen ∧ s.ended = false ∧ s.sched.workers w = .returned g ∧
      runtimeStep s op = workerReap s w seen) := by
  rw [runtimeStep]
  split_ifs with hended
  · exact Or.inl (Moved.refl s)
  cases op with
  | spawn caller g =>
    rw [liveStep, spawn]
    split_ifs with hg
    · exact Or.inr (Or.inl ⟨g, hg.2, rfl⟩)
    · exact Or.inl (Moved.refl s)
  | thread w op => exact Or.inl (moved_thread hsw w op)
  | exit w =>
    rw [liveStep, gExit]
    split
    · rename_i g pos hw
      exact Or.inr (Or.inr (Or.inl ⟨w, g, pos, hw, rfl⟩))
    · exact Or.inl (Moved.refl s)
  | take w now => exact Or.inl (moved_take s w now)
  | switchIn w =>
    exact Or.inl (moved_schedStep (.switchIn w) (switchIn_moves s.sched w) (noWindow hsw _))
  | reap w seen =>
    cases hw : s.sched.workers w with
    | returned g =>
      exact Or.inr (Or.inr (Or.inr ⟨w, seen, g, rfl, Bool.not_eq_true _ ▸ hended, hw, rfl⟩))
    | _ =>
      simp only [liveStep, workerReap, hw]
      exact Or.inl (Moved.refl s)
  | main op =>
    rw [liveStep]
    split_ifs
    · exact Or.inl (moved_mainCall s op)
    · exact Or.inl (Moved.refl s)
  | shutdown now =>
    rw [liveStep]
    split_ifs
    · exact Or.inl (moved_drain s false _)
    · exact Or.inl (Moved.refl s)
  | poll now reset =>
    rw [liveStep]
    split
    · exact Or.inl (moved_poll s _ now reset)
    · exact Or.inl (Moved.refl s)
  | join =>
    rw [liveStep]
    split_ifs
    · exact Or.inl (moved_main s _ _ _)
    · exact Or.inl (Moved.refl s)
  | run w =>
    rw [liveStep]
    split_ifs
    · exact Or.inl (moved_main s _ _ _)
    · exact Or.inl (Moved.refl s)
  | check =>
    rw [liveStep]
    split
    · exact Or.inl (moved_check s _)
    · exact Or.inl (Moved.refl s)

end Cases

end NewClLang.ThreadPlaces
