import NewClLang.ThreadLifecycle

set_option autoImplicit false

/-!
# Mutexes

A ledger of who is past `__nc_mutex_lock` and before `__nc_mutex_unlock`, kept beside the runtime
and read off the calls and returns. The owner of a mutex is a green thread or the main thread.
-/
namespace NewClLang.MutexHandoff
open SchedulerModel ContextSwitching RuntimeMachine ThreadPlaces ThreadLifecycle TransitionRuns

/-- For one mutex: the callers past `lock`, `none` being the main thread, and the threads that
    have parked on it and that have returned from a parked `lock`, in order. -/
structure Record where
  holding : List (Option ℕ)
  parked : List ℕ
  obtained : List ℕ

/-- `waiting` is the `lock` call in which a green thread is parked until it next runs. -/
structure Ledger (k : ℕ) where
  waiting : ℕ → Option (Fin k)
  record : Fin k → Record

section Ledgers
variable {n k : ℕ}

def emptyLedger (k : ℕ) : Ledger k := ⟨fun _ => none, fun _ => ⟨[], [], []⟩⟩

def Ledger.setRecord (l : Ledger k) (m : Fin k) (r : Record) : Ledger k :=
  { l with record := Function.update l.record m r }

def Ledger.enter (l : Ledger k) (m : Fin k) (p : Option ℕ) : Ledger k :=
  l.setRecord m { l.record m with holding := p :: (l.record m).holding }

def Ledger.leave (l : Ledger k) (m : Fin k) (p : Option ℕ) : Ledger k :=
  l.setRecord m { l.record m with holding := (l.record m).holding.erase p }

def Ledger.park (l : Ledger k) (m : Fin k) (g : ℕ) : Ledger k :=
  { l.setRecord m { l.record m with parked := (l.record m).parked ++ [g] } with
    waiting := Function.update l.waiting g (some m) }

/-- A thread that runs again returns from the call it was parked in. -/
def Ledger.resume (l : Ledger k) (g : ℕ) : Ledger k :=
  match l.waiting g with
  | some m =>
    { l.setRecord m { l.record m with
        holding := some g :: (l.record m).holding
        obtained := (l.record m).obtained ++ [g] } with
      waiting := Function.update l.waiting g none }
  | none => l

def liveLedger (s : Runtime n k) (l : Ledger k) : RuntimeOp n k → Ledger k
  | .thread w (.lock m) =>
    match s.sched.workers w with
    | .running g _ => if (s.sched.mutexes m).locked then l.park m g else l.enter m (some g)
    | _ => l
  | .thread w (.unlock m) =>
    match s.sched.workers w with
    | .running g _ => l.leave m (some g)
    | _ => l
  | .switchIn w =>
    match s.sched.workers w with
    | .popped g => l.resume g
    | _ => l
  | .main (.lock m) =>
    if s.main = .body ∧ (s.sched.mutexes m).locked = false then l.enter m none else l
  | .main (.unlock m) => if s.main = .body then l.leave m none else l
  | _ => l

/-- The runtime with its ledger. -/
structure Audit (n k : ℕ) where
  runtime : Runtime n k
  ledger : Ledger k

def auditStep (a : Audit n k) (op : RuntimeOp n k) : Audit n k :=
  ⟨runtimeStep a.runtime op,
    if a.runtime.ended then a.ledger else liveLedger a.runtime a.ledger op⟩

def initAudit (n k : ℕ) (started : Fin n → Bool) : Audit n k :=
  ⟨initRuntime n k started, emptyLedger k⟩

/-- A call of `unlock` is made by an owner. -/
def UnlocksOwned (a : Audit n k) : RuntimeOp n k → Prop
  | .thread w (.unlock m) => ∀ g pos, a.runtime.sched.workers w = .running g pos →
      some g ∈ (a.ledger.record m).holding
  | .main (.unlock m) => a.runtime.main = .body → none ∈ (a.ledger.record m).holding
  | _ => True

/-- In the run queue, or popped from it and about to run. -/
def Runnable (s : Sched n k) (g : ℕ) : Prop := g ∈ s.runq ∨ ∃ w, s.workers w = .popped g

/-- Thread `g` has been taken from the wait queue and has not returned from `lock` yet. -/
def Handed (a : Audit n k) (m : Fin k) (g : ℕ) : Prop :=
  a.ledger.waiting g = some m ∧ g ∉ (a.runtime.sched.mutexes m).queue

structure Handoff (a : Audit n k) (m : Fin k) : Prop where
  exclusive : (a.ledger.record m).holding.length ≤ 1
  locked : (a.runtime.sched.mutexes m).locked = true ↔
    (∃ p, p ∈ (a.ledger.record m).holding) ∨ ∃ g, Handed a m g
  inOrder : ∃ handed, (∀ g, g ∈ handed ↔ Handed a m g) ∧ (a.ledger.record m).parked =
    (a.ledger.record m).obtained ++ handed ++ (a.runtime.sched.mutexes m).queue
  woken : ∀ g, Handed a m g → Runnable a.runtime.sched g
  wakes : ∀ g rest, (a.runtime.sched.mutexes m).queue = g :: rest →
    ((∃ p, p ∈ (a.ledger.record m).holding) ∨ ∃ g', Handed a m g') ∧
    ((unlockStep a.runtime.sched m).mutexes m).queue = rest ∧
    (unlockStep a.runtime.sched m).runq = a.runtime.sched.runq ++ [g]

/-- The state of one mutex, with the threads that have been handed it. -/
structure Shared (s : Sched n k) (l : Ledger k) (m : Fin k) (handed : List ℕ) : Prop where
  order : (l.record m).parked = (l.record m).obtained ++ handed ++ (s.mutexes m).queue
  share : (l.record m).holding.length + handed.length = if (s.mutexes m).locked then 1 else 0
  waiting : ∀ g, l.waiting g = some m ↔ g ∈ handed ∨ g ∈ (s.mutexes m).queue
  runnable : ∀ g ∈ handed, Runnable s g
  busy : (s.mutexes m).queue ≠ [] → (s.mutexes m).locked = true

theorem runnable_mem {s : Sched n k} {g : ℕ} (h : Runnable s g) : g ∈ tokens s := by
  rcases h with hq | ⟨w, hw⟩
  · simp only [tokens, Multiset.mem_add, Multiset.mem_coe]
    exact Or.inl (Or.inl (Or.inl hq))
  · exact held_mem s w (by simp [hw])

/-- A queued thread has no other place. -/
theorem queued_elsewhere {s : Sched n k} (h : Safe s) {m : Fin k} {g : ℕ}
    (hq : g ∈ (s.mutexes m).queue) : g ∉ tokens (s.setMutex m ⟨true, []⟩) := by
  obtain ⟨r, hr, hx⟩ := tokens_mutex s m
  have hnodup := h.nodup
  rw [hr, Multiset.nodup_add] at hnodup
  rw [hx, Multiset.coe_nil, zero_add]
  exact fun hmem => Multiset.disjoint_left.mp hnodup.2.2 (Multiset.mem_coe.mpr hq) hmem

theorem held_not_queued {s : Sched n k} (h : Safe s) {w : Fin n} {g : ℕ} (m : Fin k)
    (hg : g ∈ held (s.workers w)) : g ∉ (s.mutexes m).queue := fun hq =>
  queued_elsewhere h hq (held_mem (s.setMutex m ⟨true, []⟩) w hg)

theorem runnable_not_queued {s : Sched n k} (h : Safe s) {g : ℕ} (m : Fin k)
    (hg : Runnable s g) : g ∉ (s.mutexes m).queue := fun hq =>
  queued_elsewhere h hq (runnable_mem (s := s.setMutex m ⟨true, []⟩) hg)

/-- A running thread is not runnable besides. -/
theorem running_not_runnable {s : Sched n k} (h : Safe s) {w : Fin n} {g pos : ℕ}
    (hw : s.workers w = .running g pos) : ¬ Runnable s g := by
  intro hrun
  obtain ⟨r, hr, hx⟩ := tokens_worker s w
  have hnodup := h.nodup
  rw [hr, hw, held_running, Multiset.singleton_add, Multiset.nodup_cons] at hnodup
  have hmem : g ∈ tokens (s.setWorker w .idle) := by
    apply runnable_mem
    rcases hrun with hq | ⟨w', hw'⟩
    · exact Or.inl hq
    · have hne : w' ≠ w := by
        rintro rfl
        rw [hw] at hw'
        cases hw'
      exact Or.inr ⟨w', (setWorker_ne s _ hne).trans hw'⟩
  rw [hx, held_idle, zero_add] at hmem
  exact hnodup.1 hmem

theorem Shared.frame {s s' : Sched n k} {l l' : Ledger k} {m : Fin k} {handed : List ℕ}
    (h : Shared s l m handed) (hmutex : s'.mutexes m = s.mutexes m)
    (hrecord : l'.record m = l.record m)
    (hwaiting : ∀ g, l'.waiting g = some m ↔ l.waiting g = some m)
    (hrunnable : ∀ g ∈ handed, Runnable s g → Runnable s' g) : Shared s' l' m handed where
  order := by
    rw [hrecord, hmutex]
    exact h.order
  share := by
    rw [hrecord, hmutex]
    exact h.share
  waiting := by
    intro g
    rw [hwaiting, hmutex]
    exact h.waiting g
  runnable := fun g hg => hrunnable g hg (h.runnable g hg)
  busy := by
    rw [hmutex]
    exact h.busy

/-- A step that touches no mutex and takes no thread from those about to run. -/
structure Calm (s s' : Sched n k) : Prop where
  mutexes : s'.mutexes = s.mutexes
  runnable : ∀ g, Runnable s g → Runnable s' g

theorem Calm.refl (s : Sched n k) : Calm s s := ⟨rfl, fun _ h => h⟩

theorem Calm.trans {s s' s'' : Sched n k} (h : Calm s s') (h' : Calm s' s'') : Calm s s'' :=
  ⟨h'.mutexes.trans h.mutexes, fun g hg => h'.runnable g (h.runnable g hg)⟩

theorem runnable_setWorker {s : Sched n k} {w : Fin n} (x : Worker) {g : ℕ}
    (hw : s.workers w ≠ .popped g) (h : Runnable s g) : Runnable (s.setWorker w x) g := by
  rcases h with hq | ⟨w', hw'⟩
  · exact Or.inl hq
  · have hne : w' ≠ w := by
      rintro rfl
      exact hw hw'
    exact Or.inr ⟨w', (setWorker_ne s x hne).trans hw'⟩

theorem calm_setWorker {s : Sched n k} {w : Fin n} (x : Worker)
    (hw : ∀ g, s.workers w ≠ .popped g) : Calm s (s.setWorker w x) :=
  ⟨rfl, fun g hg => runnable_setWorker x (hw g) hg⟩

theorem calm_modifyThread (s : Sched n k) (g : ℕ) (f : GreenThread → GreenThread) :
    Calm s (s.modifyThread g f) := ⟨rfl, fun _ h => h⟩

theorem calm_push (s : Sched n k) (g : ℕ) : Calm s (s.push g) :=
  ⟨rfl, fun _ h => h.imp_left (fun hq => List.mem_append_left [g] hq)⟩

theorem calm_timers (s : Sched n k) (timers : List Timer) : Calm s { s with timers := timers } :=
  ⟨rfl, fun _ h => h⟩

theorem calm_wakeTimers (now : ℕ) (l : List Timer) (s : Sched n k) :
    Calm s (wakeTimers now l s) := by
  induction l generalizing s with
  | nil => exact calm_timers s []
  | cons t rest ih =>
    rw [wakeTimers]
    split_ifs
    · have hstate : Calm s (s.setState t.g .runnable) := calm_modifyThread s t.g _
      exact (hstate.trans (calm_push _ t.g)).trans (ih _)
    · exact calm_timers s (t :: rest)

theorem calm_take (s : Sched n k) {w : Fin n} (now : ℕ) (hw : s.workers w = .idle) :
    Calm s (takeStep s w now) := by
  have hwake : Calm s (wakeExpired s now) := calm_wakeTimers now s.timers s
  have hidle : (wakeExpired s now).workers w = .idle := by
    rw [wakeExpired, wakeTimers_workers, hw]
  rw [takeStep]
  generalize wakeExpired s now = s' at hwake hidle ⊢
  refine hwake.trans ?_
  cases hrunq : s'.runq with
  | nil => exact Calm.refl s'
  | cons g rest =>
    refine ⟨rfl, fun g' hg' => ?_⟩
    rcases hg' with hq | ⟨w', hw'⟩
    · rw [hrunq] at hq
      rcases List.mem_cons.mp hq with rfl | hq
      · exact Or.inr ⟨w, setWorker_self _ w _⟩
      · exact Or.inl hq
    · have hne : w' ≠ w := by
        rintro rfl
        rw [hidle] at hw'
        cases hw'
      exact Or.inr ⟨w', (setWorker_ne _ _ hne).trans hw'⟩

theorem calm_suspended {s : Sched n k} {w : Fin n} {g pos : ℕ}
    (hw : s.workers w = .running g pos) (s₁ : Sched n k) (hworkers : s₁.workers = s.workers) (h : Calm s s₁)
    (state : GState) : Calm s (schedStep (s₁.leave w g pos state) (.switchOut w)) := by
  have hw₁ : ∀ g', s₁.workers w ≠ .popped g' := by
    intro g'
    rw [hworkers, hw]
    exact Worker.noConfusion
  have hleave : Calm s₁ (s₁.leave w g pos state) :=
    (calm_modifyThread s₁ g _).trans (calm_setWorker _ hw₁)
  have hself : (s₁.leave w g pos state).workers w = .leaving g (pos + 1) := by
    rw [Sched.leave, setWorker_self]
  refine h.trans (hleave.trans ?_)
  simp only [schedStep, hself]
  refine (calm_modifyThread _ g _).trans (calm_setWorker _ ?_)
  intro g'
  rw [modifyThread_workers, hself]
  exact Worker.noConfusion

theorem calm_spawn (s : Sched n k) (g : ℕ) : Calm s (spawnStep s g) := by
  rw [spawnStep]
  split
  · exact Calm.refl s
  · exact ⟨rfl, fun _ h => h.imp_left (fun hq => List.mem_append_left [g] hq)⟩

theorem calm_reap (s : Runtime n k) (w : Fin n) (seen : GState) :
    Calm s.sched (workerReap s w seen).sched := by
  cases hw : s.sched.workers w with
  | returned g =>
    have hno : ∀ g', s.sched.workers w ≠ .popped g' := by
      rw [hw]
      exact fun _ => Worker.noConfusion
    have hidle := calm_setWorker .idle hno
    rcases workerReap_cases hw seen with ⟨-, hs⟩ | ⟨-, -, hs⟩ | ⟨-, -, hs⟩
    · exact hs ▸ hidle
    · exact hs ▸ Calm.refl _
    · exact hs ▸ ⟨rfl, hidle.runnable⟩
  | _ =>
    simp only [workerReap, hw]
    exact Calm.refl _

theorem calm_thread (s : Sched n k) (w : Fin n) (op : ThreadOp k) (hlock : ∀ m, op ≠ .lock m)
    (hunlock : ∀ m, op ≠ .unlock m) (hsw : ∀ g pos, s.workers w ≠ .leaving g pos) :
    Calm s (threadStep s w op) := by
  cases hw : s.workers w with
  | running g pos =>
    cases op with
    | work =>
      simp only [threadStep, schedStep, hw]
      refine calm_setWorker _ ?_
      rw [hw]
      exact fun _ => Worker.noConfusion
    | yield =>
      rw [threadStep, suspend]
      simp only [schedStep.eq_def s, hw]
      exact calm_suspended hw (s.push g) rfl (calm_push s g) .runnable
    | sleep deadline =>
      rw [threadStep, suspend]
      simp only [schedStep.eq_def s, hw]
      exact calm_suspended hw { s with timers := insertTimer ⟨deadline, g⟩ s.timers } rfl
        (calm_timers s _) .waitTimer
    | lock m => exact absurd rfl (hlock m)
    | unlock m => exact absurd rfl (hunlock m)
  | leaving g pos => exact absurd hw (hsw g pos)
  | _ =>
    cases op with
    | lock m => exact absurd rfl (hlock m)
    | unlock m => exact absurd rfl (hunlock m)
    | _ =>
      simp only [threadStep, suspend, schedStep, hw]
      exact Calm.refl s

/-- Every mutex is shared out among an owner, the threads handed it and its queue. -/
def Tended (s : Sched n k) (l : Ledger k) : Prop := ∀ m, ∃ handed, Shared s l m handed

theorem Tended.calm {s s' : Sched n k} {l : Ledger k} (h : Tended s l) (hc : Calm s s') :
    Tended s' l := by
  intro m
  obtain ⟨handed, hm⟩ := h m
  exact ⟨handed, hm.frame (congrFun hc.mutexes m) rfl (fun _ => Iff.rfl)
    (fun g _ hg => hc.runnable g hg)⟩

theorem setRecord_self (l : Ledger k) (m : Fin k) (r : Record) :
    (l.setRecord m r).record m = r := Function.update_self ..

theorem setRecord_ne (l : Ledger k) {m m' : Fin k} (r : Record) (h : m' ≠ m) :
    (l.setRecord m r).record m' = l.record m' := Function.update_of_ne h ..

/-- `lock` on a free mutex. -/
theorem enter_tended {s : Sched n k} {l : Ledger k} (h : Tended s l) (m : Fin k)
    (hfree : (s.mutexes m).locked = false) (p : Option ℕ) :
    Tended (s.setMutex m ⟨true, (s.mutexes m).queue⟩) (l.enter m p) := by
  intro m'
  obtain ⟨handed, hm⟩ := h m'
  refine ⟨handed, ?_⟩
  by_cases hne : m' = m
  · subst hne
    have hshare := hm.share
    rw [hfree, if_neg Bool.false_ne_true] at hshare
    constructor
    case order =>
      rw [Ledger.enter, setRecord_self, setMutex_self]
      exact hm.order
    case share =>
      rw [Ledger.enter, setRecord_self, setMutex_self, if_pos rfl, List.length_cons]
      omega
    case waiting =>
      rw [setMutex_self]
      exact hm.waiting
    case runnable => exact hm.runnable
    case busy =>
      rw [setMutex_self]
      exact fun _ => rfl
  · exact hm.frame (setMutex_ne s _ hne) (setRecord_ne l _ hne) (fun _ => Iff.rfl)
      (fun _ _ hg => hg)

/-- `lock` on a held mutex, up to the switch away from the parked thread. -/
theorem park_tended {s : Sched n k} {l : Ledger k} (h : Tended s l) (hsafe : Safe s) {w : Fin n}
    {g pos : ℕ} (hw : s.workers w = .running g pos) (m : Fin k)
    (hheld : (s.mutexes m).locked = true) :
    Tended (s.setMutex m ⟨true, (s.mutexes m).queue ++ [g]⟩) (l.park m g) := by
  have hqueued : ∀ m', g ∉ (s.mutexes m').queue := fun m' =>
    held_not_queued hsafe m' (w := w) (by simp [hw])
  have hrunnable : ¬ Runnable s g := running_not_runnable hsafe hw
  intro m'
  obtain ⟨handed, hm⟩ := h m'
  refine ⟨handed, ?_⟩
  by_cases hne : m' = m
  · subst hne
    constructor
    case order =>
      rw [Ledger.park]
      simp only [setRecord_self, setMutex_self, hm.order, List.append_assoc]
    case share =>
      rw [Ledger.park]
      simp only [setRecord_self, setMutex_self, if_true]
      have hshare := hm.share
      rw [hheld, if_pos rfl] at hshare
      exact hshare
    case waiting =>
      intro g'
      rw [Ledger.park, setMutex_self]
      by_cases hg : g' = g
      · subst hg
        simp only [Function.update_self, true_iff]
        exact Or.inr (List.mem_append_right _ (List.mem_singleton_self g'))
      · simp only [Function.update_of_ne hg, hm.waiting, List.mem_append, List.mem_singleton, hg,
          or_false]
    case runnable => exact hm.runnable
    case busy =>
      rw [setMutex_self]
      exact fun _ => rfl
  · refine hm.frame (setMutex_ne s _ hne) (setRecord_ne l _ hne) (fun g' => ?_) (fun _ _ hg => hg)
    by_cases hg : g' = g
    · subst hg
      simp only [Ledger.park, Function.update_self, Option.some.injEq]
      constructor
      · exact fun heq => absurd heq.symm hne
      · intro hwait
        rcases (hm.waiting g').mp hwait with hin | hin
        · exact absurd (hm.runnable g' hin) hrunnable
        · exact absurd hin (hqueued m')
    · simp only [Ledger.park, Function.update_of_ne hg]

/-- `unlock` by an owner. -/
theorem leave_tended {s : Sched n k} {l : Ledger k} (h : Tended s l) (m : Fin k) {p : Option ℕ}
    (hp : p ∈ (l.record m).holding) : Tended (unlockStep s m) (l.leave m p) := by
  obtain ⟨handed, hm⟩ := h m
  -- The owner has the only share of the mutex.
  have hlength : (l.record m).holding.length = 1 ∧ handed = [] ∧
      (s.mutexes m).locked = true := by
    have hpos := List.length_pos_of_mem hp
    have hshare := hm.share
    split_ifs at hshare with hlocked
    · exact ⟨by omega, List.eq_nil_of_length_eq_zero (by omega), hlocked⟩
    · omega
  obtain ⟨hone, rfl, hlocked⟩ := hlength
  have herase : ((l.record m).holding.erase p).length = 0 := by
    rw [List.length_erase_of_mem hp, hone]
  intro m'
  by_cases hne : m' = m
  · subst hne
    have hrec : (l.leave m' p).record m' =
        { l.record m' with holding := (l.record m').holding.erase p } := setRecord_self l m' _
    rw [unlockStep]
    cases hq : (s.mutexes m').queue with
    | nil =>
      refine ⟨[], ?_⟩
      constructor
      case order =>
        rw [hrec, setMutex_self]
        have horder := hm.order
        rw [hq] at horder
        exact horder
      case share =>
        rw [hrec, setMutex_self]
        exact herase
      case waiting =>
        have hwaiting := hm.waiting
        rw [hq] at hwaiting
        rw [setMutex_self]
        exact hwaiting
      case runnable => exact hm.runnable
      case busy =>
        rw [setMutex_self]
        exact fun hne => absurd rfl hne
    | cons g rest =>
      refine ⟨[g], ?_⟩
      have hmutex : (((s.setMutex m' ⟨(s.mutexes m').locked, rest⟩).setState g .runnable).push
          g).mutexes m' = ⟨(s.mutexes m').locked, rest⟩ := setMutex_self s m' _
      constructor
      case order =>
        rw [hrec, hmutex]
        have horder := hm.order
        rw [hq] at horder
        simpa using horder
      case share =>
        rw [hrec, hmutex, if_pos hlocked, herase, List.length_singleton]
      case waiting =>
        intro g'
        have hwaiting := hm.waiting g'
        rw [hq] at hwaiting
        rw [hmutex]
        change l.waiting g' = some m' ↔ _
        simpa using hwaiting
      case runnable =>
        intro g' hg'
        rw [List.mem_singleton] at hg'
        exact Or.inl (List.mem_append_right _ (List.mem_singleton.mpr hg'))
      case busy =>
        rw [hmutex]
        exact fun _ => hlocked
  · obtain ⟨handed', hm'⟩ := h m'
    refine ⟨handed', hm'.frame ?_ (setRecord_ne l _ hne) (fun _ => Iff.rfl) ?_⟩
    · rw [unlockStep]
      split
      · exact setMutex_ne s _ hne
      · exact setMutex_ne s _ hne
    · intro g' _ hg'
      rw [unlockStep]
      split
      · exact (calm_push _ _).runnable g' hg'
      · exact hg'

/-- The switch to a thread, which returns from the call it was parked in. -/
theorem resume_tended {s : Sched n k} {l : Ledger k} (h : Tended s l) (hsafe : Safe s) {w : Fin n}
    {g : ℕ} (hw : s.workers w = .popped g) (f : GreenThread → GreenThread) (pos : ℕ) :
    Tended ((s.modifyThread g f).setWorker w (.running g pos)) (l.resume g) := by
  have hself : Runnable s g := Or.inr ⟨w, hw⟩
  have hkeep : ∀ g', g' ≠ g → Runnable s g' →
      Runnable ((s.modifyThread g f).setWorker w (.running g pos)) g' := by
    intro g' hne hg'
    refine runnable_setWorker _ ?_ ((calm_modifyThread s g f).runnable g' hg')
    rw [modifyThread_workers, hw]
    exact fun heq => hne (Worker.popped.inj heq).symm
  rw [Ledger.resume]
  cases hwait : l.waiting g with
  | none =>
    intro m
    obtain ⟨handed, hm⟩ := h m
    refine ⟨handed, hm.frame rfl rfl (fun _ => Iff.rfl) (fun g' hg' => hkeep g' ?_)⟩
    rintro rfl
    have hsome := (hm.waiting g').mpr (Or.inl hg')
    rw [hwait] at hsome
    cases hsome
  | some m =>
    intro m'
    obtain ⟨handed, hm⟩ := h m'
    by_cases hne : m' = m
    · subst hne
      -- The thread is about to run, so it has left the queue and holds the one share.
      have hin : g ∈ handed :=
        ((hm.waiting g).mp hwait).resolve_right (runnable_not_queued hsafe m' hself)
      have hshare := hm.share
      have hhanded : handed = [g] := by
        obtain ⟨a, b, hab⟩ := List.append_of_mem hin
        rw [hab, List.length_append, List.length_cons] at hshare
        have ha : a = [] := List.eq_nil_of_length_eq_zero (by split_ifs at hshare; omega)
        have hb : b = [] := List.eq_nil_of_length_eq_zero (by split_ifs at hshare; omega)
        rw [hab, ha, hb]
        rfl
      subst hhanded
      refine ⟨[], ?_⟩
      constructor
      case order =>
        simp only [setRecord_self, List.append_nil]
        exact hm.order
      case share =>
        simp only [setRecord_self, List.length_cons, List.length_nil]
        exact hshare
      case waiting =>
        intro g'
        by_cases hg : g' = g
        · subst hg
          simp only [Function.update_self]
          constructor
          · exact fun hnone => absurd hnone.symm (Option.some_ne_none m')
          · intro hor
            rcases hor with hnil | hq
            · cases hnil
            · exact absurd hq (runnable_not_queued hsafe m' hself)
        · simp only [Function.update_of_ne hg, hm.waiting, List.mem_singleton, hg, false_or]
          exact ⟨Or.inr, fun hor => hor.resolve_left List.not_mem_nil⟩
      case runnable => exact fun g' hg' => absurd hg' List.not_mem_nil
      case busy => exact hm.busy
    · refine ⟨handed, hm.frame rfl (setRecord_ne l _ hne) (fun g' => ?_) (fun g' hg' => hkeep g' ?_)⟩
      · by_cases hg : g' = g
        · subst hg
          simp only [Function.update_self, hwait, Option.some.injEq]
          exact ⟨fun hnone => absurd hnone.symm (Option.some_ne_none m'),
            fun heq => absurd heq.symm hne⟩
        · simp only [Function.update_of_ne hg]
      · rintro rfl
        have hsome := (hm.waiting g').mpr (Or.inl hg')
        rw [hwait] at hsome
        exact hne (Option.some.inj hsome).symm

theorem handed_iff {a : Audit n k} (hsafe : Safe a.runtime.sched) {m : Fin k} {handed : List ℕ}
    (h : Shared a.runtime.sched a.ledger m handed) (g : ℕ) : g ∈ handed ↔ Handed a m g := by
  constructor
  · intro hg
    exact ⟨(h.waiting g).mpr (Or.inl hg), runnable_not_queued hsafe m (h.runnable g hg)⟩
  · rintro ⟨hwait, hq⟩
    exact ((h.waiting g).mp hwait).resolve_right hq

theorem handoff_of_tended {a : Audit n k} (hsafe : Safe a.runtime.sched)
    (h : Tended a.runtime.sched a.ledger) (m : Fin k) : Handoff a m := by
  obtain ⟨handed, hm⟩ := h m
  have hiff := handed_iff hsafe hm
  have howned : (a.runtime.sched.mutexes m).locked = true ↔
      (∃ p, p ∈ (a.ledger.record m).holding) ∨ ∃ g, Handed a m g := by
    have hshare := hm.share
    constructor
    · intro hlocked
      rw [if_pos hlocked] at hshare
      by_cases hpos : 0 < (a.ledger.record m).holding.length
      · exact Or.inl (List.length_pos_iff_exists_mem.mp hpos)
      · obtain ⟨g, hg⟩ := List.length_pos_iff_exists_mem.mp (by omega : 0 < handed.length)
        exact Or.inr ⟨g, (hiff g).mp hg⟩
    · intro hor
      have hpos : 0 < (a.ledger.record m).holding.length + handed.length := by
        rcases hor with ⟨p, hp⟩ | ⟨g, hg⟩
        · exact Nat.add_pos_left (List.length_pos_of_mem hp) _
        · exact Nat.add_pos_right _ (List.length_pos_of_mem ((hiff g).mpr hg))
      by_contra hfree
      rw [if_neg hfree] at hshare
      omega
  constructor
  case exclusive =>
    have hshare := hm.share
    split_ifs at hshare <;> omega
  case locked => exact howned
  case inOrder => exact ⟨handed, hiff, hm.order⟩
  case woken => exact fun g hg => hm.runnable g ((hiff g).mpr hg)
  case wakes =>
    intro g rest hq
    have hbusy : (a.runtime.sched.mutexes m).locked = true := by
      apply hm.busy
      rw [hq]
      exact List.cons_ne_nil g rest
    refine ⟨howned.mp hbusy, ?_, ?_⟩
    · simp only [unlockStep, hq]
      exact congrArg NcMutex.queue (setMutex_self _ m _)
    · simp only [unlockStep, hq]
      rfl

theorem thread_tended {s : Runtime n k} {l : Ledger k} (h : Tended s.sched l) (hk : Kept s)
    (w : Fin n) (op : ThreadOp k)
    (hop : UnlocksOwned ⟨s, l⟩ (.thread w op)) :
    Tended (threadStep s.sched w op) (liveLedger s l (.thread w op)) := by
  cases op with
  | lock m =>
    rw [threadStep, suspend]
    cases hw : s.sched.workers w with
    | running g pos =>
      simp only [liveLedger, schedStep.eq_def s.sched, hw, lockStep]
      split_ifs with hlocked
      · have hpark := park_tended h hk.safe hw m hlocked
        refine hpark.calm ?_
        exact calm_suspended (s := s.sched.setMutex m _) hw _ rfl (Calm.refl _) .waitMutex
      · have hfree : (s.sched.mutexes m).locked = false := Bool.not_eq_true _ ▸ hlocked
        have hsw : ∀ g' pos', (s.sched.setMutex m ⟨true, (s.sched.mutexes m).queue⟩).workers w ≠
            .leaving g' pos' := hk.switched w
        rw [ThreadMoves.switchOut_stays hsw]
        exact enter_tended h m hfree (some g)
    | leaving g pos => exact absurd hw (hk.switched w g pos)
    | _ =>
      simp only [liveLedger, schedStep, hw]
      exact h
  | unlock m =>
    cases hw : s.sched.workers w with
    | running g pos =>
      simp only [threadStep, liveLedger, schedStep, hw]
      exact leave_tended h m (hop g pos hw)
    | _ =>
      simp only [threadStep, liveLedger, schedStep, hw]
      exact h
  | _ =>
    refine h.calm (calm_thread s.sched w _ ?_ ?_ (hk.switched w))
    · simp
    · simp

theorem mainCall_tended {s : Runtime n k} {l : Ledger k} (h : Tended s.sched l)
    (hbody : s.main = .body) (op : MainOp k) (hop : UnlocksOwned ⟨s, l⟩ (.main op)) :
    Tended (mainCall s op).sched (liveLedger s l (.main op)) := by
  cases op with
  | lock m =>
    rw [mainCall, liveLedger]
    split_ifs with hlocked hfree hfree
    · exact absurd (hlocked.symm.trans hfree.2) Bool.noConfusion
    · exact h
    · exact enter_tended h m hfree.2 none
    · exact absurd ⟨hbody, Bool.not_eq_true _ ▸ hlocked⟩ hfree
  | unlock m =>
    rw [liveLedger, if_pos hbody]
    exact leave_tended h m (hop hbody)
  | _ => exact h

theorem auditStep_tended {a : Audit n k} (h : Tended a.runtime.sched a.ledger)
    (hk : Kept a.runtime) (op : RuntimeOp n k) (hop : UnlocksOwned a op) :
    Tended (auditStep a op).runtime.sched (auditStep a op).ledger := by
  rw [auditStep]
  simp only [runtimeStep]
  split_ifs with hended
  · exact h
  cases op with
  | thread w op => exact thread_tended h hk w op hop
  | switchIn w =>
    simp only [liveStep, schedStep, liveLedger]
    cases hw : a.runtime.sched.workers w with
    | popped g => exact resume_tended h hk.safe hw _ _
    | _ => exact h
  | main op =>
    rw [liveStep]
    split_ifs with hbody
    · exact mainCall_tended h hbody op hop
    · cases op with
      | lock m =>
        rw [liveLedger, if_neg (fun hand => hbody hand.1)]
        exact h
      | unlock m =>
        rw [liveLedger, if_neg hbody]
        exact h
      | _ => exact h
  | spawn caller g =>
    refine h.calm ?_
    rw [liveStep, spawn]
    split_ifs
    · exact calm_spawn _ g
    · exact Calm.refl _
  | exit w =>
    refine h.calm ?_
    rw [liveStep, gExit]
    cases hw : a.runtime.sched.workers w with
    | running g pos =>
      simp only [schedStep, hw]
      refine (calm_modifyThread _ g _).trans (calm_setWorker _ ?_)
      rw [modifyThread_workers, hw]
      exact fun _ => Worker.noConfusion
    | _ => exact Calm.refl _
  | take w now =>
    refine h.calm ?_
    rw [liveStep, workerTake]
    split_ifs
    · exact Calm.refl _
    · cases hw : a.runtime.sched.workers w with
      | idle =>
        have htake := calm_take a.runtime.sched now hw
        simp only
        split
        · exact htake
        · rw [noThread]
          split_ifs <;> exact htake
      | _ => exact Calm.refl _
  | reap w seen => exact h.calm (calm_reap a.runtime w seen)
  | shutdown now =>
    rw [liveStep]
    split_ifs <;> exact h
  | poll now reset =>
    rw [liveStep]
    split
    · rw [pollDrain]
      split_ifs <;> exact h
    · exact h
  | join =>
    rw [liveStep]
    split_ifs <;> exact h
  | run w =>
    rw [liveStep]
    split_ifs <;> exact h
  | check =>
    rw [liveStep]
    split
    · rw [checkPending]
      split_ifs <;> exact h
    · exact h

theorem initAudit_tended (started : Fin n → Bool) :
    Tended (initAudit n k started).runtime.sched (initAudit n k started).ledger := by
  intro m
  refine ⟨[], rfl, rfl, fun g => ?_, fun g hg => absurd hg List.not_mem_nil,
    fun hne => absurd rfl hne⟩
  constructor
  · intro hwait
    cases hwait
  · intro hor
    rcases hor with hg | hg
    · exact absurd hg List.not_mem_nil
    · exact absurd hg List.not_mem_nil

end Ledgers

/-- Over any workers, mutexes and interleaving in which `unlock` is called by owners only, every
    mutex has at most one owner, is locked exactly when it is owned or handed over, is obtained in
    the order of parking, and wakes the head of its queue at the next `unlock`. -/
theorem mutex_handoff (n k : ℕ) (started : Fin n → Bool) (ops : List (RuntimeOp n k))
    (h : EachStep auditStep UnlocksOwned (initAudit n k started) ops) :
    Always auditStep (fun a => ∀ m, Handoff a m) (initAudit n k started) ops := by
  refine EachStep.always
    (I := fun a => Tended a.runtime.sched a.ledger ∧ Kept a.runtime)
    (fun a ha m => handoff_of_tended ha.2.safe ha.1 m) (fun a op ha hop => ?_)
    ⟨initAudit_tended started, initRuntime_kept started⟩ h
  exact ⟨auditStep_tended ha.1 ha.2 op hop, runtimeStep_kept ha.2 op⟩

/-- Two threads and a mutex that passes from the first to the second. -/
theorem mutex_handoff_two_threads : Always auditStep (fun a => ∀ m, Handoff a m)
    (initAudit 2 1 fun _ => true)
    [.spawn none 0, .spawn none 1, .take 0 0, .switchIn 0, .take 1 0, .switchIn 1, .thread 0 (.lock 0),
      .thread 1 (.lock 0), .reap 1 .dead, .thread 0 (.unlock 0), .take 1 0, .switchIn 1,
      .thread 1 (.unlock 0)] := by
  refine mutex_handoff 2 1 _ _ ⟨trivial, trivial, trivial, trivial, trivial, trivial, trivial,
    trivial, trivial, ?_, trivial, trivial, ?_, trivial⟩
  · intro g pos hw
    cases hw
    exact List.mem_singleton_self _
  · intro g pos hw
    cases hw
    exact List.mem_singleton_self _

end NewClLang.MutexHandoff
