import NewClLang.ThreadPlaces

set_option autoImplicit false

/-!
# The life of a green thread

Submission, exit and reaping, the steps at which a thread gets and leaves its place, and the runs
made of them.
-/
namespace NewClLang.ThreadLifecycle
open SchedulerModel ContextSwitching RuntimeMachine ThreadMoves ThreadPlaces TransitionRuns

variable {n k : ℕ}

section Submitting
variable {s : Runtime n k} {g : ℕ}

def submitted (s : Runtime n k) (g : ℕ) : Runtime n k :=
  { s with sched := spawnStep s.sched g, submitted := s.submitted ++ [g] }

theorem fresh_thread (h : Kept s) (hg : g ∉ s.submitted) : s.sched.threads g = none := by
  cases ht : s.sched.threads g with
  | none => rfl
  | some t => exact absurd (h.known g t ht) hg

theorem tokens_submitted (h : Kept s) (hg : g ∉ s.submitted) :
    tokens (submitted s g).sched = {g} + tokens s.sched := by
  rw [submitted, spawnStep, fresh_thread h hg]
  exact tokens_push s.sched g

theorem places_submitted (h : Kept s) (hg : g ∉ s.submitted) :
    places (submitted s g) = {g} + places s := by
  have hexiting : ∀ w, exiting (submitted s g) w = exiting s w := by
    intro w
    simp only [exiting, submitted, spawnStep, fresh_thread h hg]
  rw [places, tokens_submitted h hg, add_assoc, places]
  simp only [hexiting]

theorem submitted_kept (h : Kept s) (hg : g ∉ s.submitted) : Kept (submitted s g) := by
  have hnone := fresh_thread h hg
  have hself : (submitted s g).sched.threads g = some ⟨.runnable, 0, 0⟩ := by
    simp [submitted, spawnStep, hnone]
  have hother : ∀ g', g' ≠ g → (submitted s g).sched.threads g' = s.sched.threads g' := by
    intro g' hne
    simp [submitted, spawnStep, hnone, hne]
  have hworkers : (submitted s g).sched.workers = s.sched.workers := by
    simp [submitted, spawnStep, hnone]
  have hmem : ∀ g' ∈ s.submitted, g' ∈ (submitted s g).submitted := fun g' hg' =>
    List.mem_append_left [g] hg'
  constructor
  case safe => exact spawnStep_safe h.safe g
  case switched => exact fun w g' pos => hworkers ▸ h.switched w g' pos
  case nodup => exact List.nodup_append.mpr ⟨h.nodup, List.nodup_singleton g, by
    rintro g' hg' _ hin rfl
    rw [List.mem_singleton] at hin
    exact hg (hin ▸ hg')⟩
  case known =>
    intro g' t ht
    by_cases hne : g' = g
    · rw [hne]
      exact List.mem_append_right _ (List.mem_singleton_self g)
    · exact hmem g' (h.known g' t (hother g' hne ▸ ht))
  case returned => exact fun w g' hw => hmem g' (h.returned w g' (hworkers ▸ hw))
  case dead =>
    intro g' t ht hdead
    by_cases hne : g' = g
    · rw [hne, hself] at ht
      cases ht
      cases hdead
    · rw [hworkers]
      exact h.dead g' t (hother g' hne ▸ ht) hdead
  case exited =>
    intro g' w hexit
    obtain ⟨hsub, hno, hdead⟩ := h.exited g' w hexit
    have hne : g' ≠ g := by
      rintro rfl
      exact hg hsub
    refine ⟨hmem g' hsub, ?_, fun t ht => hdead t (hother g' hne ▸ ht)⟩
    rw [tokens_submitted h hg, Multiset.mem_add, Multiset.mem_singleton]
    exact fun hor => hor.elim hne hno
  case freed =>
    intro g' hg' hnone'
    by_cases hne : g' = g
    · rw [hne, hself] at hnone'
      cases hnone'
    · rcases List.mem_append.mp hg' with hold | hnew
      · exact h.freed g' hold (hother g' hne ▸ hnone')
      · exact absurd (List.mem_singleton.mp hnew) hne
  case finished =>
    intro g' hg'
    obtain ⟨hsub, hexit⟩ := h.finished g' hg'
    exact ⟨hmem g' hsub, hexit⟩
  case count =>
    have hcount := h.count
    simp only [submitted, spawnStep, hnone, List.length_append, List.length_singleton]
    omega
  case cover =>
    intro g' hg' hfin
    rw [places_submitted h hg, Multiset.mem_add, Multiset.mem_singleton]
    rcases List.mem_append.mp hg' with hold | hnew
    · exact Or.inr (h.cover g' hold hfin)
    · exact Or.inl (List.mem_singleton.mp hnew)

theorem submitted_exact (he : Exact s) (h : Kept s) (hg : g ∉ s.submitted) :
    Exact (submitted s g) where
  partition := by
    rw [places_submitted h hg, add_assoc, submitted]
    simp only [← Multiset.coe_add, Multiset.coe_singleton, he.partition]
    abel
  counted := he.counted

end Submitting

section Exiting
variable {s : Runtime n k} {w : Fin n} {g pos : ℕ}

def exited (s : Runtime n k) (w : Fin n) (g : ℕ) : Runtime n k :=
  { s with
    sched := schedStep s.sched (.exit w)
    exitedOn := Function.update s.exitedOn g (some w) }

theorem exited_sched (hw : s.sched.workers w = .running g pos) :
    (exited s w g).sched =
      (s.sched.modifyThread g (fun t => { t with state := .dead, context := pos })).setWorker w
        (.returned g) := by
  simp only [exited, schedStep, hw]

theorem tokens_exited (hw : s.sched.workers w = .running g pos) :
    tokens s.sched = {g} + tokens (exited s w g).sched := by
  obtain ⟨r, hr, hx⟩ := tokens_worker
    (s.sched.modifyThread g (fun t => { t with state := .dead, context := pos })) w
  rw [tokens_modifyThread, modifyThread_workers, hw, held_running] at hr
  rw [exited_sched hw, hx, held_returned, zero_add, hr]

/-- The thread of a running worker has a token, so it has not exited before. -/
theorem exitedOn_running (h : Kept s) (hw : s.sched.workers w = .running g pos) :
    s.exitedOn g = none := by
  cases hexit : s.exitedOn g with
  | none => rfl
  | some w' => exact absurd (held_mem s.sched w (by simp [hw])) (h.exited g w' hexit).2.1

theorem workers_exited (hw : s.sched.workers w = .running g pos) (w' : Fin n) (hne : w' ≠ w) :
    (exited s w g).sched.workers w' = s.sched.workers w' := by
  rw [exited_sched hw, setWorker_ne _ _ hne, modifyThread_workers]

theorem exiting_exited (h : Kept s) (hw : s.sched.workers w = .running g pos) (w' : Fin n)
    (hne : w' ≠ w) : exiting (exited s w g) w' = exiting s w' := by
  have hnone := exitedOn_running h hw
  simp only [exiting, workers_exited hw w' hne]
  cases hw' : s.sched.workers w' with
  | returned g' =>
    by_cases hg : g' = g
    · subst hg
      simp only [exited, Function.update_self, hnone]
      rw [if_neg (fun heq => hne (Option.some.inj heq).symm), if_neg (Option.some_ne_none w').symm]
    · simp only [exited, Function.update_of_ne hg]
  | _ => rfl

theorem places_exited (h : Kept s) (hw : s.sched.workers w = .running g pos) :
    places (exited s w g) = places s := by
  obtain ⟨r, hr, hr'⟩ := sum_change w (exiting_exited h hw)
  have hzero : exiting s w = 0 := by
    simp only [exiting, hw]
  have hone : exiting (exited s w g) w = {g} := by
    apply exiting_returned
    · rw [exited_sched hw, setWorker_self]
    · exact Function.update_self ..
  rw [places, places, hr, hr', hzero, hone, tokens_exited hw]
  abel

theorem exited_kept (h : Kept s) (hw : s.sched.workers w = .running g pos) :
    Kept (exited s w g) := by
  have hmem : g ∈ tokens s.sched := held_mem s.sched w (by simp [hw])
  obtain ⟨t, ht, -⟩ := h.safe.alive g hmem
  have hsub : g ∈ s.submitted := h.known g t ht
  have hself : (exited s w g).sched.threads g = some { t with state := .dead, context := pos } := by
    rw [exited_sched hw, setWorker_threads, modifyThread_self, ht]
    rfl
  have hother : ∀ g', g' ≠ g → (exited s w g).sched.threads g' = s.sched.threads g' := by
    intro g' hne
    rw [exited_sched hw, setWorker_threads, modifyThread_ne _ _ hne]
  have hexitSelf : (exited s w g).exitedOn g = some w := Function.update_self ..
  have hexitOther : ∀ g', g' ≠ g → (exited s w g).exitedOn g' = s.exitedOn g' := fun g' hne =>
    Function.update_of_ne hne ..
  have hret : (exited s w g).sched.workers w = .returned g := by
    rw [exited_sched hw, setWorker_self]
  constructor
  case safe =>
    rw [exited_sched hw]
    exact exit_safe h.safe hw _
  case switched =>
    intro w' g' pos'
    by_cases hne : w' = w
    · rw [hne, hret]
      exact Worker.noConfusion
    · rw [workers_exited hw w' hne]
      exact h.switched w' g' pos'
  case nodup => exact h.nodup
  case known =>
    intro g' t' ht'
    by_cases hne : g' = g
    · rw [hne]
      exact hsub
    · exact h.known g' t' (hother g' hne ▸ ht')
  case returned =>
    intro w' g' hw'
    by_cases hne : w' = w
    · rw [hne, hret] at hw'
      cases hw'
      exact hsub
    · exact h.returned w' g' (workers_exited hw w' hne ▸ hw')
  case dead =>
    intro g' t' ht' hdead
    by_cases hne : g' = g
    · rw [hne]
      exact ⟨w, hexitSelf, hret⟩
    · obtain ⟨w', hexit, hw'⟩ := h.dead g' t' (hother g' hne ▸ ht') hdead
      have hww : w' ≠ w := by
        rintro rfl
        rw [hw] at hw'
        cases hw'
      exact ⟨w', (hexitOther g' hne).trans hexit, (workers_exited hw w' hww).trans hw'⟩
  case exited =>
    intro g' w' hexit
    have htokens : ∀ g'', g'' ∈ tokens (exited s w g).sched → g'' ∈ tokens s.sched := by
      intro g'' hin
      rw [tokens_exited hw]
      exact Multiset.mem_add.mpr (Or.inr hin)
    by_cases hne : g' = g
    · subst hne
      refine ⟨hsub, ?_, fun t' ht' => ?_⟩
      · have hnodup := h.safe.nodup
        rw [tokens_exited hw, Multiset.singleton_add, Multiset.nodup_cons] at hnodup
        exact hnodup.1
      · rw [hself] at ht'
        cases ht'
        rfl
    · obtain ⟨hsub', hno, hdead⟩ := h.exited g' w' (hexitOther g' hne ▸ hexit)
      exact ⟨hsub', fun hin => hno (htokens g' hin), fun t' ht' => hdead t' (hother g' hne ▸ ht')⟩
  case freed =>
    intro g' hg' hnone
    by_cases hne : g' = g
    · rw [hne, hself] at hnone
      cases hnone
    · exact h.freed g' hg' (hother g' hne ▸ hnone)
  case finished =>
    intro g' hg'
    obtain ⟨hsub', hexit⟩ := h.finished g' hg'
    refine ⟨hsub', ?_⟩
    by_cases hne : g' = g
    · rw [hne, hexitSelf]
      rfl
    · rw [hexitOther g' hne]
      exact hexit
  case count =>
    rw [exited_sched hw]
    exact h.count
  case cover =>
    rw [places_exited h hw]
    exact h.cover

theorem exited_exact (he : Exact s) (h : Kept s) (hw : s.sched.workers w = .running g pos) :
    Exact (exited s w g) where
  partition := by
    rw [places_exited h hw]
    exact he.partition
  counted := he.counted

end Exiting

section Reaping
variable {s : Runtime n k} {w : Fin n} {g : ℕ}

theorem Safe.liveCount {s : Sched n k} (h : Safe s) (c : ℤ) : Safe { s with liveCount := c } :=
  ⟨h.nodup, h.alive, h.leaving, h.one, h.saved⟩

/-- The worker is back in its loop; the thread keeps its record. -/
def idled (s : Runtime n k) (w : Fin n) : Runtime n k :=
  { s with sched := s.sched.setWorker w .idle }

/-- The thread is finished and freed. -/
def reaped (s : Runtime n k) (w : Fin n) (g : ℕ) : Runtime n k :=
  { s with
    sched := { s.sched with
      liveCount := s.sched.liveCount - 1
      threads := Function.update s.sched.threads g none }.setWorker w .idle
    finished := s.finished ++ [g] }

theorem workerReap_cases (hw : s.sched.workers w = .returned g) (seen : GState) :
    (readState s g seen ≠ .dead ∧ workerReap s w seen = idled s w) ∨
    (readState s g seen = .dead ∧ s.sched.liveCount ≤ 0 ∧
      workerReap s w seen = s.crash .noLiveThread) ∨
    (readState s g seen = .dead ∧ 0 < s.sched.liveCount ∧ workerReap s w seen = reaped s w g) := by
  simp only [workerReap, hw]
  split_ifs with hdead
  · rw [finishDead]
    split_ifs with hlive
    · exact Or.inr (Or.inl ⟨hdead, hlive, rfl⟩)
    · exact Or.inr (Or.inr ⟨hdead, not_le.mp hlive, rfl⟩)
  · exact Or.inl ⟨hdead, rfl⟩

/-- The places after worker `w` has gone on to its next round. -/
theorem places_after (hw : s.sched.workers w = .returned g) {s' : Runtime n k}
    (hworkers : s'.sched.workers = (s.sched.setWorker w .idle).workers)
    (htokens : tokens s'.sched = tokens (s.sched.setWorker w .idle))
    (hexited : s'.exitedOn = s.exitedOn) : places s = exiting s w + places s' := by
  have hother : ∀ w', w' ≠ w → exiting s' w' = exiting s w' := by
    intro w' hne
    simp only [exiting, hworkers, hexited, setWorker_ne s.sched _ hne]
  have hself : exiting s' w = 0 := by
    simp only [exiting, hworkers, setWorker_self]
  obtain ⟨r, hr, hr'⟩ := sum_change w hother
  obtain ⟨q, hq, hx⟩ := tokens_worker s.sched w
  rw [hw, held_returned, zero_add] at hq
  rw [places, places, hr, hr', hself, htokens, hx, held_idle, hq]
  abel

theorem places_idled (hw : s.sched.workers w = .returned g) :
    places s = exiting s w + places (idled s w) := places_after hw rfl rfl rfl

theorem places_reaped (hw : s.sched.workers w = .returned g) :
    places s = exiting s w + places (reaped s w g) := places_after hw rfl rfl rfl

/-- A thread whose state is read as dead has been run to its exit, or has been freed. -/
theorem read_dead (h : Kept s) (hw : s.sched.workers w = .returned g) {seen : GState}
    (hdead : readState s g seen = .dead) :
    (s.exitedOn g).isSome ∧ g ∉ tokens s.sched ∧
      ((∃ t, s.sched.threads g = some t ∧ t.state = .dead) ∨ s.sched.threads g = none) := by
  rw [readState] at hdead
  cases ht : s.sched.threads g with
  | some t =>
    simp only [ht] at hdead
    obtain ⟨w', hexit, -⟩ := h.dead g t ht hdead
    refine ⟨by rw [hexit]; rfl, (h.exited g w' hexit).2.1, Or.inl ⟨t, rfl, hdead⟩⟩
  | none =>
    have hfin := h.freed g (h.returned w g hw) ht
    obtain ⟨-, hexit⟩ := h.finished g hfin
    obtain ⟨w', hexit'⟩ := Option.isSome_iff_exists.mp hexit
    exact ⟨hexit, (h.exited g w' hexit').2.1, Or.inr rfl⟩

theorem idled_safe (h : Kept s) (hw : s.sched.workers w = .returned g) :
    Safe (s.sched.setWorker w .idle) := by
  refine h.safe.quiet (quiet_setWorker s.sched ?_ ?_ ?_)
  · rw [hw]
    rfl
  · rw [hw]
    rfl
  · exact fun _ _ => Worker.noConfusion

theorem returned_idled (w' : Fin n) (g' : ℕ)
    (h : (s.sched.setWorker w .idle).workers w' = .returned g') :
    w' ≠ w ∧ s.sched.workers w' = .returned g' := by
  have hne : w' ≠ w := by
    rintro rfl
    rw [setWorker_self] at h
    cases h
  exact ⟨hne, setWorker_ne s.sched _ hne ▸ h⟩

theorem idled_kept (h : Kept s) (hw : s.sched.workers w = .returned g) {seen : GState}
    (hread : readState s g seen ≠ .dead) : Kept (idled s w) := by
  have hsafe : Safe (idled s w).sched := idled_safe h hw
  have hlive : ∀ t, s.sched.threads g = some t → t.state ≠ .dead := by
    intro t ht hdead
    rw [readState, ht] at hread
    exact hread hdead
  constructor
  case safe => exact hsafe
  case switched =>
    intro w' g' pos hleave
    rcases leaving_setWorker s.sched hleave with ⟨-, heq⟩ | ⟨-, hold⟩
    · cases heq
    · exact h.switched w' g' pos hold
  case nodup => exact h.nodup
  case known => exact h.known
  case returned => exact fun w' g' hw' => h.returned w' g' (returned_idled w' g' hw').2
  case dead =>
    intro g' t ht hdead
    obtain ⟨w', hexit, hw'⟩ := h.dead g' t ht hdead
    have hne : w' ≠ w := by
      rintro rfl
      rw [hw] at hw'
      cases hw'
      exact hlive t ht hdead
    exact ⟨w', hexit, (setWorker_ne s.sched _ hne).trans hw'⟩
  case exited =>
    intro g' w' hexit
    obtain ⟨hsub, hno, hdead⟩ := h.exited g' w' hexit
    refine ⟨hsub, ?_, hdead⟩
    obtain ⟨q, hq, hx⟩ := tokens_worker s.sched w
    rw [idled, hx, held_idle]
    rw [hw, held_returned] at hq
    exact hq ▸ hno
  case freed => exact h.freed
  case finished => exact h.finished
  case count => exact h.count
  case cover =>
    intro g' hg' hfin
    have hmem := h.cover g' hg' hfin
    rw [places_idled hw, Multiset.mem_add] at hmem
    rcases hmem with hexiting | hmem
    · -- An exited thread that is not finished has its record, and that record is dead.
      obtain ⟨hw', hexit⟩ := exiting_mem hexiting
      rw [hw] at hw'
      cases hw'
      cases ht : s.sched.threads g with
      | some t => exact absurd ((h.exited g w hexit).2.2 t ht) (hlive t ht)
      | none => exact absurd (h.freed g hg' ht) hfin
    · exact hmem

theorem reaped_kept (h : Kept s) (hw : s.sched.workers w = .returned g) {seen : GState}
    (hread : readState s g seen = .dead) : Kept (reaped s w g) := by
  obtain ⟨hexit, hno, hrecord⟩ := read_dead h hw hread
  have hself : (reaped s w g).sched.threads g = none := Function.update_self ..
  have hother : ∀ g', g' ≠ g → (reaped s w g).sched.threads g' = s.sched.threads g' :=
    fun g' hne => Function.update_of_ne hne ..
  have htokens : tokens (reaped s w g).sched = tokens s.sched := by
    obtain ⟨q, hq, hx⟩ := tokens_worker s.sched w
    have hidle : tokens (reaped s w g).sched = tokens (s.sched.setWorker w .idle) := rfl
    rw [hw, held_returned] at hq
    rw [hidle, hx, held_idle, hq]
  have hne_of_token : ∀ g' ∈ tokens s.sched, g' ≠ g := by
    rintro g' hg' rfl
    exact hno hg'
  constructor
  case safe =>
    have hidle := idled_safe h hw
    refine ⟨hidle.nodup, ?_, ?_, hidle.one, ?_⟩
    · intro g' hg'
      rw [hother g' (hne_of_token g' (htokens ▸ hg'))]
      exact h.safe.alive g' (htokens ▸ hg')
    · intro w' g' pos hleave
      obtain ⟨t, ht, hstate, hpos⟩ := hidle.leaving w' g' pos hleave
      have hne : g' ≠ g := by
        rintro rfl
        rcases hrecord with ⟨t', ht', hdead⟩ | hnone
        · rw [setWorker_threads, ht'] at ht
          cases ht
          exact hstate hdead
        · rw [setWorker_threads, hnone] at ht
          cases ht
      exact ⟨t, (hother g' hne).trans ht, hstate, hpos⟩
    · intro g' t hg' ht hcur
      rw [hother g' (hne_of_token g' (htokens ▸ hg'))] at ht
      exact hidle.saved g' t hg' ht hcur
  case switched =>
    intro w' g' pos hleave
    rcases leaving_setWorker _ hleave with ⟨-, heq⟩ | ⟨-, hold⟩
    · cases heq
    · exact h.switched w' g' pos hold
  case nodup => exact h.nodup
  case known =>
    intro g' t ht
    by_cases hne : g' = g
    · rw [hne, hself] at ht
      cases ht
    · exact h.known g' t (hother g' hne ▸ ht)
  case returned => exact fun w' g' hw' => h.returned w' g' (returned_idled w' g' hw').2
  case dead =>
    intro g' t ht hdead
    by_cases hne : g' = g
    · rw [hne, hself] at ht
      cases ht
    · obtain ⟨w', hexit', hw'⟩ := h.dead g' t (hother g' hne ▸ ht) hdead
      have hww : w' ≠ w := by
        rintro rfl
        rw [hw] at hw'
        cases hw'
        exact hne rfl
      exact ⟨w', hexit', (setWorker_ne _ _ hww).trans hw'⟩
  case exited =>
    intro g' w' hexit'
    obtain ⟨hsub, hno', hdead⟩ := h.exited g' w' hexit'
    refine ⟨hsub, htokens ▸ hno', fun t ht => ?_⟩
    by_cases hne : g' = g
    · rw [hne, hself] at ht
      cases ht
    · exact hdead t (hother g' hne ▸ ht)
  case freed =>
    intro g' hg' hnone
    by_cases hne : g' = g
    · rw [hne]
      exact List.mem_append_right _ (List.mem_singleton_self g)
    · exact List.mem_append_left _ (h.freed g' hg' (hother g' hne ▸ hnone))
  case finished =>
    intro g' hg'
    rcases List.mem_append.mp hg' with hold | hnew
    · exact h.finished g' hold
    · rw [List.mem_singleton] at hnew
      rw [hnew]
      exact ⟨h.returned w g hw, hexit⟩
  case count =>
    have hcount := h.count
    simp only [reaped, Sched.setWorker, List.length_append, List.length_singleton]
    omega
  case cover =>
    intro g' hg' hfin
    have hfin' : g' ∉ s.finished ∧ g' ≠ g := by
      refine ⟨fun hin => hfin (List.mem_append_left _ hin), ?_⟩
      rintro rfl
      exact hfin (List.mem_append_right _ (List.mem_singleton_self g'))
    have hmem := h.cover g' hg' hfin'.1
    rw [places_reaped hw, Multiset.mem_add] at hmem
    rcases hmem with hexiting | hmem
    · obtain ⟨hw', -⟩ := exiting_mem hexiting
      rw [hw] at hw'
      cases hw'
      exact absurd rfl hfin'.2
    · exact hmem

theorem crash_kept (h : Kept s) (c : Crash) : Kept (s.crash c) :=
  ⟨h.safe, h.switched, h.nodup, h.known, h.returned, h.dead, h.exited, h.freed, h.finished,
    h.count, h.cover⟩

theorem workerReap_kept (h : Kept s) (hw : s.sched.workers w = .returned g) (seen : GState) :
    Kept (workerReap s w seen) := by
  rcases workerReap_cases hw seen with ⟨hread, hs⟩ | ⟨-, -, hs⟩ | ⟨hread, -, hs⟩
  · exact hs ▸ idled_kept h hw hread
  · exact hs ▸ crash_kept h .noLiveThread
  · exact hs ▸ reaped_kept h hw hread

theorem partition_nodup (he : Exact s) (h : Kept s) :
    (places s + (s.finished : Multiset ℕ)).Nodup := by
  rw [← he.partition]
  exact Multiset.coe_nodup.mpr h.nodup

/-- A thread that its own worker has yet to finish has not been freed. -/
theorem exiting_unfinished (he : Exact s) (h : Kept s) (hmem : g ∈ places s) :
    g ∉ s.finished := by
  intro hfin
  have hdisj := (Multiset.nodup_add.mp (partition_nodup he h)).2.2
  exact Multiset.disjoint_left.mp hdisj hmem (Multiset.mem_coe.mpr hfin)

theorem exiting_of_read_dead (h : Kept s) (hw : s.sched.workers w = .returned g) {seen : GState}
    (hread : readState s g seen = .dead) (hown : ∀ w', s.exitedOn g = some w' → w' = w) :
    exiting s w = {g} := by
  obtain ⟨w', hexit⟩ := Option.isSome_iff_exists.mp (read_dead h hw hread).1
  exact exiting_returned hw (hown w' hexit ▸ hexit)

theorem exiting_of_read_live (he : Exact s) (h : Kept s)
    (hw : s.sched.workers w = .returned g) {seen : GState}
    (hread : readState s g seen ≠ .dead) : exiting s w = 0 := by
  refine Multiset.eq_zero_of_forall_notMem (fun g' hg' => ?_)
  obtain ⟨hw', hexit⟩ := exiting_mem hg'
  rw [hw] at hw'
  cases hw'
  have hunfinished := exiting_unfinished he h (mem_places_of_exiting hg')
  cases ht : s.sched.threads g with
  | some t =>
    rw [readState, ht] at hread
    exact hread ((h.exited g w hexit).2.2 t ht)
  | none => exact hunfinished (h.freed g (h.returned w g hw) ht)

theorem live_pos (he : Exact s) (h : Kept s) (hmem : g ∈ places s) : 0 < s.sched.liveCount := by
  have hcard : s.submitted.length = (places s).card + s.finished.length := by
    have hc := congrArg Multiset.card he.partition
    rw [Multiset.card_add, Multiset.coe_card, Multiset.coe_card] at hc
    exact hc
  have hpos : 0 < (places s).card := Multiset.card_pos_iff_exists_mem.mpr ⟨g, hmem⟩
  rw [h.count]
  omega

theorem workerReap_exact (he : Exact s) (h : Kept s) (hw : s.sched.workers w = .returned g)
    (seen : GState) (hown : ∀ w', s.exitedOn g = some w' → w' = w) :
    Exact (workerReap s w seen) := by
  rcases workerReap_cases hw seen with ⟨hread, hs⟩ | ⟨hread, hlive, -⟩ | ⟨hread, -, hs⟩
  · rw [hs]
    refine ⟨?_, he.counted⟩
    have hplaces := places_idled hw
    rw [exiting_of_read_live he h hw hread, zero_add] at hplaces
    rw [← hplaces]
    exact he.partition
  · have hexiting := exiting_of_read_dead h hw hread hown
    have hmem : g ∈ places s := by
      apply mem_places_of_exiting (w := w)
      rw [hexiting]
      exact Multiset.mem_singleton_self g
    exact absurd (live_pos he h hmem) (not_lt.mpr hlive)
  · rw [hs]
    refine ⟨?_, he.counted⟩
    have hpartition := he.partition
    rw [places_reaped hw, exiting_of_read_dead h hw hread hown] at hpartition
    simp only [reaped] at hpartition ⊢
    rw [← Multiset.coe_add, Multiset.coe_singleton, hpartition]
    abel

end Reaping

section Runs
variable {s : Runtime n k}

theorem runtimeStep_kept (h : Kept s) (op : RuntimeOp n k) : Kept (runtimeStep s op) := by
  rcases runtimeStep_cases h.switched op with hm | ⟨g, hg, hs⟩ | ⟨w, g, pos, hw, hs⟩ |
    ⟨w, seen, g, -, -, hw, hs⟩
  · exact h.moves hm.moves (hm.safe h.safe) hm.same
  · exact hs ▸ submitted_kept h hg
  · exact hs ▸ exited_kept h hw
  · exact hs ▸ workerReap_kept h hw seen

theorem runtimeStep_exact (he : Exact s) (h : Kept s) (op : RuntimeOp n k) (hop : OwnExit s op) :
    Exact (runtimeStep s op) := by
  rcases runtimeStep_cases h.switched op with hm | ⟨g, hg, hs⟩ | ⟨w, g, pos, hw, hs⟩ |
    ⟨w, seen, g, hreap, hended, hw, hs⟩
  · exact he.moves h hm.moves hm.same
  · exact hs ▸ submitted_exact he h hg
  · exact hs ▸ exited_exact he h hw
  · subst hreap
    exact hs ▸ workerReap_exact he h hw seen (hop hended g hw)

theorem initRuntime_kept (started : Fin n → Bool) : Kept (initRuntime n k started) where
  safe := initSched_safe n k
  switched := fun _ _ _ => Worker.noConfusion
  nodup := List.nodup_nil
  known := by
    intro g t ht
    cases ht
  returned := by
    intro w g hw
    cases hw
  dead := by
    intro g t ht
    cases ht
  exited := by
    intro g w hexit
    cases hexit
  freed := by
    intro g hg
    cases hg
  finished := by
    intro g hg
    cases hg
  count := rfl
  cover := by
    intro g hg
    cases hg

theorem initRuntime_exact (started : Fin n → Bool) : Exact (initRuntime n k started) where
  partition := by simp [initRuntime, places, tokens, initSched, exiting]
  counted := by
    intro hc
    cases hc

theorem onePlace_of_exact (he : Exact s) (h : Kept s) : OnePlace s := by
  have hnodup := partition_nodup he h
  obtain ⟨hplaces, hfinished, hdisj⟩ := Multiset.nodup_add.mp hnodup
  constructor
  case place =>
    intro g hg hfin
    have hmem : g ∈ places s := h.cover g hg hfin
    exact Multiset.count_eq_one_of_mem hplaces hmem
  case live =>
    have hperm : (s.submitted.filter (· ∉ s.finished) : Multiset ℕ) = places s := by
      rw [← Multiset.filter_coe, he.partition, Multiset.filter_add]
      have hkeep : Multiset.filter (· ∉ s.finished) (places s) = places s :=
        Multiset.filter_eq_self.mpr (fun g hg => exiting_unfinished he h hg)
      have hdrop : Multiset.filter (· ∉ s.finished) (s.finished : Multiset ℕ) = 0 :=
        Multiset.filter_eq_nil.mpr (fun g hg hno => hno (Multiset.mem_coe.mp hg))
      rw [hkeep, hdrop, add_zero]
    have hcard := congrArg Multiset.card hperm
    have hall := congrArg Multiset.card he.partition
    rw [Multiset.coe_card] at hcard
    rw [Multiset.card_add, Multiset.coe_card, Multiset.coe_card] at hall
    rw [h.count]
    omega
  case once => exact Multiset.coe_nodup.mp hfinished
  case last =>
    intro g hg
    obtain ⟨hsub, hexit⟩ := h.finished g hg
    exact ⟨hsub, hexit, fun hmem => exiting_unfinished he h hmem hg⟩
  case finishes =>
    intro g w hexit hfin
    obtain ⟨hsub, -, hdead⟩ := h.exited g w hexit
    cases ht : s.sched.threads g with
    | none => exact absurd (h.freed g hsub ht) hfin
    | some t =>
      obtain ⟨w', hexit', hw'⟩ := h.dead g t ht (hdead t ht)
      rw [hexit] at hexit'
      cases hexit'
      refine ⟨hw', fun hended seen => ?_⟩
      have hread : readState s g seen = .dead := by
        rw [readState, ht]
        exact hdead t ht
      have hmem : g ∈ places s := h.cover g hsub hfin
      rw [runtimeStep, hended, if_neg Bool.false_ne_true, liveStep]
      rcases workerReap_cases hw' seen with ⟨hno, -⟩ | ⟨-, hlive, -⟩ | ⟨-, -, hs⟩
      · exact absurd hread hno
      · exact absurd (live_pos he h hmem) (not_lt.mpr hlive)
      · rw [hs]
        rfl
  case counted => exact he.counted

end Runs

/-- Over any workers, mutexes and interleaving, as long as no worker reads the state of a thread
    that another worker has run to its exit, each live thread is in exactly one place, the count
    is theirs, and a thread is finished once, by the worker that ran its last step. -/
theorem one_place_of_own_exits (n k : ℕ) (started : Fin n → Bool) (ops : List (RuntimeOp n k))
    (h : EachStep runtimeStep OwnExit (initRuntime n k started) ops) :
    Always runtimeStep OnePlace (initRuntime n k started) ops := by
  refine EachStep.always (I := fun s => Exact s ∧ Kept s) (fun s hs => onePlace_of_exact hs.1 hs.2)
    (fun s op hs hop => ?_) ⟨initRuntime_exact started, initRuntime_kept started⟩ h
  exact ⟨runtimeStep_exact hs.1 hs.2 op hop, runtimeStep_kept hs.2 op⟩

/-- Worker 0 reads the state of a thread that worker 1 is running again. -/
theorem one_place_late_read : Always runtimeStep OnePlace (initRuntime 2 0 fun _ => true)
    [.spawn none 0, .take 0 0, .switchIn 0, .thread 0 .yield, .take 1 0, .switchIn 1, .reap 0 .dead,
      .exit 1, .reap 1 .dead] := by
  refine one_place_of_own_exits 2 0 _ _ ⟨trivial, trivial, trivial, trivial, trivial, trivial,
    ?_, trivial, ?_, trivial⟩
  · intro _ g _ w' hexit
    cases hexit
  · intro _ g hw w' hexit
    cases hw
    cases hexit
    rfl

/-- A thread yields on worker 0 and worker 1 runs it to its exit before worker 0 reads its
    state: worker 0 finishes it, then worker 1, whose call finds no live thread. -/
def staleRead : List (RuntimeOp 2 0) :=
  [.spawn none 0, .take 0 0, .switchIn 0, .thread 0 .yield, .take 1 0, .switchIn 1, .exit 1,
    .reap 0 .dead, .reap 1 .dead]

theorem stale_read_finishes_twice :
    ¬ Always runtimeStep OnePlace (initRuntime 2 0 fun _ => true) staleRead := by
  rintro ⟨-, -, -, -, -, -, -, -, -, hlast⟩
  exact hlast.counted rfl

end NewClLang.ThreadLifecycle
