import Mathlib.Data.List.Nodup
import Mathlib.Data.List.Perm.Subperm
import Mathlib.Algebra.Ring.Nat

set_option autoImplicit false

/-!
# Structured control flow

Trees of sequences, branches and loops over steps of any kind, the paths through them, and how often
a path comes to a step. Some of the steps are marked. None of them is on a cycle if and only if no
loop has a turn that comes back over one, which is decided along the tree.
-/
namespace NewClLang.ControlTrees

inductive Code (ι : Type) where
  | run (steps : List ι)
  | sequence (codes : List (Code ι))
  | oneOf (codes : List (Code ι))
  /-- `head` is gone through before each turn, and the loop is left after it. -/
  | loop (head body : Code ι)
  | breakLoop
  | leave

variable {ι : Type}

section Paths
variable (marks : ι → Bool)

/-- The place of a step in a tree. -/
abbrev Position := List ℕ

def under (n : ℕ) (trace : List Position) : List Position := trace.map (n :: ·)

/-- The places of the marked steps, counted from `n` on. -/
def marksFrom (n : ℕ) : List ι → List Position
  | [] => []
  | step :: steps =>
    if marks step then [n] :: marksFrom (n + 1) steps else marksFrom (n + 1) steps

inductive Outcome where
  | falls
  | broke
  | left
deriving DecidableEq

/-- The paths of a tree, with the marked steps that they come to. -/
inductive Runs : Code ι → List Position → Outcome → Prop
  | run (steps : List ι) : Runs (.run steps) (marksFrom marks 0 steps) .falls
  | done : Runs (.sequence []) [] .falls
  | next {c : Code ι} {cs : List (Code ι)} {t t' : List Position} {o : Outcome} :
    Runs c t .falls → Runs (.sequence cs) t' o →
      Runs (.sequence (c :: cs)) (under 0 t ++ under 1 t') o
  | stop {c : Code ι} (cs : List (Code ι)) {t : List Position} {o : Outcome} :
    Runs c t o → o ≠ .falls → Runs (.sequence (c :: cs)) (under 0 t) o
  | choose {codes : List (Code ι)} (i : ℕ) {c : Code ι} {t : List Position} {o : Outcome} :
    codes[i]? = some c → Runs c t o → Runs (.oneOf codes) (under i t) o
  | escape {head : Code ι} (body : Code ι) {t : List Position} {o : Outcome} :
    Runs head t o → o ≠ .falls → Runs (.loop head body) (under 0 t) o
  | finish {head : Code ι} (body : Code ι) {t : List Position} :
    Runs head t .falls → Runs (.loop head body) (under 0 t) .falls
  | again {head body : Code ι} {t t' t'' : List Position} {o : Outcome} :
    Runs head t .falls → Runs body t' .falls → Runs (.loop head body) t'' o →
      Runs (.loop head body) (under 0 t ++ under 1 t' ++ t'') o
  | broke {head body : Code ι} {t t' : List Position} :
    Runs head t .falls → Runs body t' .broke →
      Runs (.loop head body) (under 0 t ++ under 1 t') .falls
  | left {head body : Code ι} {t t' : List Position} :
    Runs head t .falls → Runs body t' .left →
      Runs (.loop head body) (under 0 t ++ under 1 t') .left
  | breakLoop : Runs .breakLoop [] .broke
  | leave : Runs .leave [] .left

mutual

/-- The loops of a tree. -/
def loops : Code ι → List (Code ι × Code ι)
  | .run _ => []
  | .sequence codes => loopsEach codes
  | .oneOf codes => loopsEach codes
  | .loop head body => (head, body) :: (loops head ++ loops body)
  | .breakLoop => []
  | .leave => []

def loopsEach : List (Code ι) → List (Code ι × Code ι)
  | [] => []
  | c :: cs => loops c ++ loopsEach cs

end

/-- A turn of a loop that comes back comes to no marked step. -/
def Unmarked (turn : Code ι × Code ι) : Prop :=
  ∀ t t', Runs marks turn.1 t .falls → Runs marks turn.2 t' .falls → t = [] ∧ t' = []

/-- No marked step is on a cycle. -/
def OffCycles (c : Code ι) : Prop := ∀ turn ∈ loops c, Unmarked marks turn

mutual

/-- The places of all marked steps. -/
def marked : Code ι → List Position
  | .run steps => marksFrom marks 0 steps
  | .sequence codes => markedSequence codes
  | .oneOf codes => markedEach 0 codes
  | .loop head body => under 0 (marked head) ++ under 1 (marked body)
  | .breakLoop => []
  | .leave => []

def markedSequence : List (Code ι) → List Position
  | [] => []
  | c :: cs => under 0 (marked c) ++ under 1 (markedSequence cs)

def markedEach (i : ℕ) : List (Code ι) → List Position
  | [] => []
  | c :: cs => under i (marked c) ++ markedEach (i + 1) cs

end

end Paths

section Flows
variable (marks : ι → Bool)

/-- Whether a path comes to the end of a tree or breaks a loop around it, and whether one does that
comes to a marked step. -/
structure Flow where
  falls : Bool
  fallsMarked : Bool
  breaks : Bool
  breaksMarked : Bool
deriving DecidableEq

def Flow.pass : Flow := ⟨true, false, false, false⟩

def Flow.none : Flow := ⟨false, false, false, false⟩

def Flow.seq (f g : Flow) : Flow where
  falls := f.falls && g.falls
  fallsMarked := (f.fallsMarked && g.falls) || (f.falls && g.fallsMarked)
  breaks := f.breaks || (f.falls && g.breaks)
  breaksMarked := f.breaksMarked || (f.fallsMarked && g.breaks) || (f.falls && g.breaksMarked)

def Flow.or (f g : Flow) : Flow where
  falls := f.falls || g.falls
  fallsMarked := f.fallsMarked || g.fallsMarked
  breaks := f.breaks || g.breaks
  breaksMarked := f.breaksMarked || g.breaksMarked

/-- A turn of a loop comes back over a marked step. -/
def Flow.cycles (head body : Flow) : Bool := (head.seq body).fallsMarked

def Flow.loop (head body : Flow) : Flow where
  falls := head.falls
  fallsMarked := head.fallsMarked || Flow.cycles head body || (head.fallsMarked && body.breaks) ||
    (head.falls && body.breaksMarked)
  breaks := head.breaks
  breaksMarked := head.breaksMarked || (Flow.cycles head body && head.breaks)

@[simp]
theorem Flow.pass_seq (f : Flow) : Flow.pass.seq f = f := by simp [Flow.seq, Flow.pass]

@[simp]
theorem Flow.seq_pass (f : Flow) : f.seq Flow.pass = f := by simp [Flow.seq, Flow.pass]

theorem Flow.seq_assoc (f g h : Flow) : (f.seq g).seq h = f.seq (g.seq h) := by
  simp only [Flow.seq, Flow.mk.injEq]
  refine ⟨Bool.and_assoc .., ?_, ?_, ?_⟩
  · rw [Bool.and_or_distrib_left, Bool.and_or_distrib_right]
    simp only [Bool.and_assoc, Bool.or_assoc]
  · rw [Bool.and_or_distrib_left]
    simp only [Bool.and_assoc, Bool.or_assoc]
  · simp only [Bool.and_or_distrib_left, Bool.and_or_distrib_right, Bool.and_assoc]
    ac_rfl

@[simp]
theorem Flow.or_none (f : Flow) : f.or Flow.none = f := by simp [Flow.or, Flow.none]

@[simp]
theorem Flow.none_or (f : Flow) : Flow.none.or f = f := by simp [Flow.or, Flow.none]

def Flow.steps (steps : List ι) : Flow := ⟨true, steps.any marks, false, false⟩

@[simp]
theorem Flow.steps_nil : Flow.steps marks [] = Flow.pass := rfl

theorem Flow.steps_append (is js : List ι) :
    Flow.steps marks (is ++ js) = (Flow.steps marks is).seq (Flow.steps marks js) := by
  simp [Flow.steps, Flow.seq]

mutual

def flow : Code ι → Flow
  | .run steps => Flow.steps marks steps
  | .sequence codes => flowSequence codes
  | .oneOf codes => flowEach codes
  | .loop head body => (flow head).loop (flow body)
  | .breakLoop => ⟨false, false, true, false⟩
  | .leave => Flow.none

def flowSequence : List (Code ι) → Flow
  | [] => Flow.pass
  | c :: cs => (flow c).seq (flowSequence cs)

def flowEach : List (Code ι) → Flow
  | [] => Flow.none
  | c :: cs => (flow c).or (flowEach cs)

end

mutual

/-- No turn of a loop comes back over a marked step. -/
def offCycles : Code ι → Bool
  | .run _ => true
  | .sequence codes => offCyclesEach codes
  | .oneOf codes => offCyclesEach codes
  | .loop head body =>
    offCycles head && offCycles body && !Flow.cycles (flow marks head) (flow marks body)
  | .breakLoop => true
  | .leave => true

def offCyclesEach : List (Code ι) → Bool
  | [] => true
  | c :: cs => offCycles c && offCyclesEach cs

end

section Sequences
variable (c d : Code ι) (cs : List (Code ι)) (steps : List ι)

attribute [local simp] flow flowSequence flowEach offCycles offCyclesEach

@[simp]
theorem flow_run : flow marks (.run steps) = Flow.steps marks steps := by rw [flow]

@[simp]
theorem flow_nil : flow marks (.sequence []) = Flow.pass := by rw [flow, flowSequence]

@[simp]
theorem flow_cons :
    flow marks (.sequence (c :: cs)) = (flow marks c).seq (flow marks (.sequence cs)) := by
  simp only [flow, flowSequence]

@[simp]
theorem flow_oneOf : flow marks (.oneOf [c, d]) = (flow marks c).or (flow marks d) := by
  simp only [flow, flowEach, Flow.or_none]

@[simp]
theorem flow_loop : flow marks (.loop c d) = (flow marks c).loop (flow marks d) := by rw [flow]

@[simp]
theorem flow_leave : flow marks .leave = Flow.none := by rw [flow]

@[simp]
theorem offCycles_run : offCycles marks (.run steps) = true := by rw [offCycles]

@[simp]
theorem offCycles_nil : offCycles marks (.sequence []) = true := by rw [offCycles, offCyclesEach]

@[simp]
theorem offCycles_cons : offCycles marks (.sequence (c :: cs)) =
    (offCycles marks c && offCycles marks (.sequence cs)) := by
  simp only [offCycles, offCyclesEach]

@[simp]
theorem offCycles_oneOf :
    offCycles marks (.oneOf [c, d]) = (offCycles marks c && offCycles marks d) := by
  simp only [offCycles, offCyclesEach, Bool.and_true]

@[simp]
theorem offCycles_loop : offCycles marks (.loop c d) =
    (offCycles marks c && offCycles marks d && !Flow.cycles (flow marks c) (flow marks d)) := by
  rw [offCycles]

@[simp]
theorem offCycles_leave : offCycles marks .leave = true := by rw [offCycles]

end Sequences

end Flows

section Exactness
variable {marks : ι → Bool} {c : Code ι} {t : List Position} {o : Outcome}

theorem under_eq_nil {n : ℕ} : under n t = [] ↔ t = [] := by simp [under]

theorem marksFrom_eq_nil {steps : List ι} {n : ℕ} :
    marksFrom marks n steps = [] ↔ steps.any marks = false := by
  induction steps generalizing n with
  | nil => simp [marksFrom]
  | cons step steps ih =>
    by_cases hstep : marks step = true
    · simp [marksFrom, hstep]
    · rw [marksFrom, if_neg hstep, ih]
      simp [hstep]

/-- What a path shows of the flow. -/
def Shows (f : Flow) (t : List Position) : Outcome → Prop
  | .falls => f.falls = true ∧ (t ≠ [] → f.fallsMarked = true)
  | .broke => f.breaks = true ∧ (t ≠ [] → f.breaksMarked = true)
  | .left => True

variable {f g : Flow} {t' : List Position}

theorem shows_under (n : ℕ) (h : Shows f t o) : Shows f (under n t) o := by
  cases o with
  | falls => exact ⟨h.1, fun hne => h.2 fun hnil => hne (under_eq_nil.mpr hnil)⟩
  | broke => exact ⟨h.1, fun hne => h.2 fun hnil => hne (under_eq_nil.mpr hnil)⟩
  | left => trivial

theorem Flow.or_comm (f g : Flow) : f.or g = g.or f := by simp [Flow.or, Bool.or_comm]

theorem shows_or_left (g : Flow) (h : Shows f t o) : Shows (f.or g) t o := by
  cases o with
  | falls => exact ⟨by simp [Flow.or, h.1], fun hne => by simp [Flow.or, h.2 hne]⟩
  | broke => exact ⟨by simp [Flow.or, h.1], fun hne => by simp [Flow.or, h.2 hne]⟩
  | left => trivial

theorem shows_or_right (f : Flow) (h : Shows g t o) : Shows (f.or g) t o := by
  rw [Flow.or_comm]
  exact shows_or_left f h

theorem ne_nil_of_append (h : t ++ t' ≠ []) : t ≠ [] ∨ t' ≠ [] := by
  by_contra hnone
  push Not at hnone
  exact h (by simp [hnone.1, hnone.2])

theorem shows_seq (hf : Shows f t .falls) (hg : Shows g t' o) : Shows (f.seq g) (t ++ t') o := by
  obtain ⟨hfalls, hmarked⟩ := hf
  cases o with
  | falls =>
    refine ⟨by simp [Flow.seq, hfalls, hg.1], fun hne => ?_⟩
    rcases ne_nil_of_append hne with hfirst | hsecond
    · simp [Flow.seq, hmarked hfirst, hg.1]
    · simp [Flow.seq, hfalls, hg.2 hsecond]
  | broke =>
    refine ⟨by simp [Flow.seq, hfalls, hg.1], fun hne => ?_⟩
    rcases ne_nil_of_append hne with hfirst | hsecond
    · simp [Flow.seq, hmarked hfirst, hg.1]
    · simp [Flow.seq, hfalls, hg.2 hsecond]
  | left => trivial

theorem shows_stop (g : Flow) (h : Shows f t o) (ho : o ≠ .falls) : Shows (f.seq g) t o := by
  cases o with
  | falls => exact absurd rfl ho
  | broke => exact ⟨by simp [Flow.seq, h.1], fun hne => by simp [Flow.seq, h.2 hne]⟩
  | left => trivial

theorem shows_flowEach {codes : List (Code ι)} {i : ℕ} (hmem : codes[i]? = some c)
    (h : Shows (flow marks c) t o) : Shows (flowEach marks codes) t o := by
  induction codes generalizing i with
  | nil => cases hmem
  | cons d ds ih =>
    cases i with
    | zero =>
      cases hmem
      exact shows_or_left _ h
    | succ i => exact shows_or_right _ (ih hmem)

/-- A path through a loop that has come back once before. -/
theorem shows_again {head body : Flow} {t'' : List Position} (hhead : Shows head t .falls)
    (hbody : Shows body t' .falls) (hrest : Shows (head.loop body) t'' o) :
    Shows (head.loop body) (t ++ t' ++ t'') o := by
  have hturn := shows_seq hhead hbody
  have hcycles : t ++ t' ≠ [] → Flow.cycles head body = true := hturn.2
  cases o with
  | falls =>
    refine ⟨hrest.1, fun hne => ?_⟩
    rcases ne_nil_of_append hne with hfirst | hlast
    · simp [Flow.loop, hcycles hfirst]
    · exact hrest.2 hlast
  | broke =>
    refine ⟨hrest.1, fun hne => ?_⟩
    rcases ne_nil_of_append hne with hfirst | hlast
    · have hbreaks : head.breaks = true := hrest.1
      simp [Flow.loop, hcycles hfirst, hbreaks]
    · exact hrest.2 hlast
  | left => trivial

theorem shows_of_runs (h : Runs marks c t o) : Shows (flow marks c) t o := by
  induction h with
  | run steps =>
    refine ⟨rfl, fun hne => ?_⟩
    rw [ne_eq, marksFrom_eq_nil, Bool.not_eq_false] at hne
    exact hne
  | done => exact ⟨rfl, fun hne => absurd rfl hne⟩
  | next _ _ ih ih' => exact shows_seq (shows_under 0 ih) (shows_under 1 ih')
  | stop cs _ hne ih => exact shows_stop _ (shows_under 0 ih) hne
  | choose i hmem _ ih => exact shows_flowEach hmem (shows_under i ih)
  | escape body _ hne ih =>
    rename_i o _
    have hhead := shows_under 0 ih
    cases o with
    | falls => exact absurd rfl hne
    | broke => exact ⟨hhead.1, fun hmarked => by simp [flow, Flow.loop, hhead.2 hmarked]⟩
    | left => trivial
  | finish body _ ih =>
    have hhead := shows_under 0 ih
    exact ⟨hhead.1, fun hmarked => by simp [flow, Flow.loop, hhead.2 hmarked]⟩
  | again _ _ _ ih ih' ih'' => exact shows_again (shows_under 0 ih) (shows_under 1 ih') ih''
  | broke _ _ ih ih' =>
    have hhead := shows_under 0 ih
    have hbody := shows_under 1 ih'
    refine ⟨hhead.1, fun hne => ?_⟩
    rcases ne_nil_of_append hne with hfirst | hsecond
    · simp [flow, Flow.loop, hhead.2 hfirst, hbody.1]
    · simp [flow, Flow.loop, hhead.1, hbody.2 hsecond]
  | left _ _ _ _ => trivial
  | breakLoop => exact ⟨rfl, fun hne => absurd rfl hne⟩
  | leave => trivial

/-- Everything that the flow tells is shown by some path. -/
structure Shown (f : Flow) (runs : List Position → Outcome → Prop) : Prop where
  falls : f.falls = true → ∃ t, runs t .falls
  fallsMarked : f.fallsMarked = true → ∃ t, t ≠ [] ∧ runs t .falls
  breaks : f.breaks = true → ∃ t, runs t .broke
  breaksMarked : f.breaksMarked = true → ∃ t, t ≠ [] ∧ runs t .broke

theorem shown_none (runs : List Position → Outcome → Prop) : Shown Flow.none runs :=
  ⟨fun h => (nomatch h), fun h => (nomatch h), fun h => (nomatch h), fun h => (nomatch h)⟩

theorem under_ne_nil {n : ℕ} (h : t ≠ []) : under n t ≠ [] := fun hnil => h (under_eq_nil.mp hnil)

theorem append_ne_nil_left {t' : List Position} (h : t ≠ []) : t ++ t' ≠ [] := by simp [h]

theorem append_ne_nil_right {t' : List Position} (h : t' ≠ []) : t ++ t' ≠ [] := by simp [h]

theorem shown_seq {cs : List (Code ι)} (hc : Shown f (Runs marks c))
    (hcs : Shown g (Runs marks (.sequence cs))) :
    Shown (f.seq g) (Runs marks (.sequence (c :: cs))) where
  falls := by
    intro h
    obtain ⟨hf, hg⟩ := Bool.and_eq_true_iff.mp h
    obtain ⟨t, ht⟩ := hc.falls hf
    obtain ⟨t', ht'⟩ := hcs.falls hg
    exact ⟨_, .next ht ht'⟩
  fallsMarked := by
    intro h
    simp only [Flow.seq, Bool.or_eq_true, Bool.and_eq_true] at h
    rcases h with ⟨hf, hg⟩ | ⟨hf, hg⟩
    · obtain ⟨t, hne, ht⟩ := hc.fallsMarked hf
      obtain ⟨t', ht'⟩ := hcs.falls hg
      exact ⟨_, append_ne_nil_left (under_ne_nil hne), .next ht ht'⟩
    · obtain ⟨t, ht⟩ := hc.falls hf
      obtain ⟨t', hne, ht'⟩ := hcs.fallsMarked hg
      exact ⟨_, append_ne_nil_right (under_ne_nil hne), .next ht ht'⟩
  breaks := by
    intro h
    simp only [Flow.seq, Bool.or_eq_true, Bool.and_eq_true] at h
    rcases h with hf | ⟨hf, hg⟩
    · obtain ⟨t, ht⟩ := hc.breaks hf
      exact ⟨_, .stop cs ht (by decide)⟩
    · obtain ⟨t, ht⟩ := hc.falls hf
      obtain ⟨t', ht'⟩ := hcs.breaks hg
      exact ⟨_, .next ht ht'⟩
  breaksMarked := by
    intro h
    simp only [Flow.seq, Bool.or_eq_true, Bool.and_eq_true] at h
    rcases h with (hf | ⟨hf, hg⟩) | ⟨hf, hg⟩
    · obtain ⟨t, hne, ht⟩ := hc.breaksMarked hf
      exact ⟨_, under_ne_nil hne, .stop cs ht (by decide)⟩
    · obtain ⟨t, hne, ht⟩ := hc.fallsMarked hf
      obtain ⟨t', ht'⟩ := hcs.breaks hg
      exact ⟨_, append_ne_nil_left (under_ne_nil hne), .next ht ht'⟩
    · obtain ⟨t, ht⟩ := hc.falls hf
      obtain ⟨t', hne, ht'⟩ := hcs.breaksMarked hg
      exact ⟨_, append_ne_nil_right (under_ne_nil hne), .next ht ht'⟩

/-- A turn that comes back over a marked step. -/
theorem turn_of_cycles {head body : Code ι} (hhead : Shown f (Runs marks head))
    (hbody : Shown g (Runs marks body)) (h : Flow.cycles f g = true) :
    ∃ t t', t ++ t' ≠ [] ∧ Runs marks head t .falls ∧ Runs marks body t' .falls := by
  simp only [Flow.cycles, Flow.seq, Bool.or_eq_true, Bool.and_eq_true] at h
  rcases h with ⟨hf, hg⟩ | ⟨hf, hg⟩
  · obtain ⟨t, hne, ht⟩ := hhead.fallsMarked hf
    obtain ⟨t', ht'⟩ := hbody.falls hg
    exact ⟨t, t', append_ne_nil_left hne, ht, ht'⟩
  · obtain ⟨t, ht⟩ := hhead.falls hf
    obtain ⟨t', hne, ht'⟩ := hbody.fallsMarked hg
    exact ⟨t, t', append_ne_nil_right hne, ht, ht'⟩

theorem under_append_ne_nil (h : t ++ t' ≠ []) : under 0 t ++ under 1 t' ≠ [] := by
  rcases ne_nil_of_append h with hfirst | hsecond
  · exact append_ne_nil_left (under_ne_nil hfirst)
  · exact append_ne_nil_right (under_ne_nil hsecond)

theorem shown_loop {head body : Code ι} (hhead : Shown f (Runs marks head))
    (hbody : Shown g (Runs marks body)) : Shown (f.loop g) (Runs marks (.loop head body)) where
  falls := by
    intro h
    obtain ⟨t, ht⟩ := hhead.falls h
    exact ⟨_, .finish body ht⟩
  fallsMarked := by
    intro h
    simp only [Flow.loop, Bool.or_eq_true, Bool.and_eq_true] at h
    rcases h with ((hf | hcycles) | ⟨hf, hg⟩) | ⟨hf, hg⟩
    · obtain ⟨t, hne, ht⟩ := hhead.fallsMarked hf
      exact ⟨_, under_ne_nil hne, .finish body ht⟩
    · obtain ⟨t, t', hne, ht, ht'⟩ := turn_of_cycles hhead hbody hcycles
      exact ⟨_, append_ne_nil_left (under_append_ne_nil hne), .again ht ht' (.finish body ht)⟩
    · obtain ⟨t, hne, ht⟩ := hhead.fallsMarked hf
      obtain ⟨t', ht'⟩ := hbody.breaks hg
      exact ⟨_, append_ne_nil_left (under_ne_nil hne), .broke ht ht'⟩
    · obtain ⟨t, ht⟩ := hhead.falls hf
      obtain ⟨t', hne, ht'⟩ := hbody.breaksMarked hg
      exact ⟨_, append_ne_nil_right (under_ne_nil hne), .broke ht ht'⟩
  breaks := by
    intro h
    obtain ⟨t, ht⟩ := hhead.breaks h
    exact ⟨_, .escape body ht (by decide)⟩
  breaksMarked := by
    intro h
    simp only [Flow.loop, Bool.or_eq_true, Bool.and_eq_true] at h
    rcases h with hf | ⟨hcycles, hf⟩
    · obtain ⟨t, hne, ht⟩ := hhead.breaksMarked hf
      exact ⟨_, under_ne_nil hne, .escape body ht (by decide)⟩
    · obtain ⟨t, t', hne, ht, ht'⟩ := turn_of_cycles hhead hbody hcycles
      obtain ⟨t'', ht''⟩ := hhead.breaks hf
      exact ⟨_, append_ne_nil_left (under_append_ne_nil hne),
        .again ht ht' (.escape body ht'' (by decide))⟩

/-- The paths of one of some trees. -/
def RunsOne (marks : ι → Bool) (codes : List (Code ι)) (t : List Position) (o : Outcome) : Prop :=
  ∃ (i : ℕ) (c : Code ι), codes[i]? = some c ∧ Runs marks c t o

theorem shown_or {cs : List (Code ι)} (hc : Shown f (Runs marks c))
    (hcs : Shown g (RunsOne marks cs)) : Shown (f.or g) (RunsOne marks (c :: cs)) := by
  have hfirst : ∀ {t o}, Runs marks c t o → RunsOne marks (c :: cs) t o := fun h => ⟨0, c, rfl, h⟩
  have hrest : ∀ {t o}, RunsOne marks cs t o → RunsOne marks (c :: cs) t o := by
    rintro t o ⟨i, d, hd, h⟩
    exact ⟨i + 1, d, hd, h⟩
  refine ⟨fun h => ?_, fun h => ?_, fun h => ?_, fun h => ?_⟩
  · rcases Bool.or_eq_true_iff.mp h with hf | hg
    · exact (hc.falls hf).imp fun _ => hfirst
    · exact (hcs.falls hg).imp fun _ => hrest
  · rcases Bool.or_eq_true_iff.mp h with hf | hg
    · exact (hc.fallsMarked hf).imp fun _ => And.imp_right hfirst
    · exact (hcs.fallsMarked hg).imp fun _ => And.imp_right hrest
  · rcases Bool.or_eq_true_iff.mp h with hf | hg
    · exact (hc.breaks hf).imp fun _ => hfirst
    · exact (hcs.breaks hg).imp fun _ => hrest
  · rcases Bool.or_eq_true_iff.mp h with hf | hg
    · exact (hc.breaksMarked hf).imp fun _ => And.imp_right hfirst
    · exact (hcs.breaksMarked hg).imp fun _ => And.imp_right hrest

theorem shown_oneOf {codes : List (Code ι)} (h : Shown f (RunsOne marks codes)) :
    Shown f (Runs marks (.oneOf codes)) where
  falls := by
    intro hf
    obtain ⟨t, i, c, hc, ht⟩ := h.falls hf
    exact ⟨_, .choose i hc ht⟩
  fallsMarked := by
    intro hf
    obtain ⟨t, hne, i, c, hc, ht⟩ := h.fallsMarked hf
    exact ⟨_, under_ne_nil hne, .choose i hc ht⟩
  breaks := by
    intro hf
    obtain ⟨t, i, c, hc, ht⟩ := h.breaks hf
    exact ⟨_, .choose i hc ht⟩
  breaksMarked := by
    intro hf
    obtain ⟨t, hne, i, c, hc, ht⟩ := h.breaksMarked hf
    exact ⟨_, under_ne_nil hne, .choose i hc ht⟩

mutual

theorem shown_flow (c : Code ι) : Shown (flow marks c) (Runs marks c) := by
  cases c with
  | run steps =>
    refine ⟨fun _ => ⟨_, .run steps⟩, fun h => ⟨_, fun hnil => ?_, .run steps⟩,
      fun h => (nomatch h), fun h => (nomatch h)⟩
    have hmarked : steps.any marks = true := h
    rw [marksFrom_eq_nil.mp hnil] at hmarked
    cases hmarked
  | sequence codes => exact shown_flowSequence codes
  | oneOf codes => exact shown_oneOf (shown_flowEach codes)
  | loop head body => exact shown_loop (shown_flow head) (shown_flow body)
  | breakLoop =>
    exact ⟨fun h => (nomatch h), fun h => (nomatch h), fun _ => ⟨_, .breakLoop⟩,
      fun h => (nomatch h)⟩
  | leave => exact shown_none _

theorem shown_flowSequence (codes : List (Code ι)) :
    Shown (flowSequence marks codes) (Runs marks (.sequence codes)) := by
  cases codes with
  | nil =>
    exact ⟨fun _ => ⟨_, .done⟩, fun h => (nomatch h), fun h => (nomatch h),
      fun h => (nomatch h)⟩
  | cons c cs => exact shown_seq (shown_flow c) (shown_flowSequence cs)

theorem shown_flowEach (codes : List (Code ι)) :
    Shown (flowEach marks codes) (RunsOne marks codes) := by
  cases codes with
  | nil => exact shown_none _
  | cons c cs => exact shown_or (shown_flow c) (shown_flowEach cs)

end

end Exactness

section Cycles
variable {marks : ι → Bool} {c : Code ι} {t : List Position} {o : Outcome}

theorem not_cycles_iff {head body : Code ι} :
    Flow.cycles (flow marks head) (flow marks body) = false ↔ Unmarked marks (head, body) := by
  constructor
  · intro h t t' ht ht'
    have hturn := shows_seq (shows_of_runs ht) (shows_of_runs ht')
    have hnil : t ++ t' = [] := by
      by_contra hne
      have hcycles : Flow.cycles (flow marks head) (flow marks body) = true := hturn.2 hne
      rw [h] at hcycles
      cases hcycles
    exact List.append_eq_nil_iff.mp hnil
  · intro h
    cases hcycles : Flow.cycles (flow marks head) (flow marks body) with
    | false => rfl
    | true =>
      obtain ⟨t, t', hne, ht, ht'⟩ := turn_of_cycles (shown_flow head) (shown_flow body) hcycles
      obtain ⟨rfl, rfl⟩ := h t t' ht ht'
      exact absurd rfl hne

mutual

theorem offCycles_iff (c : Code ι) : offCycles marks c = true ↔ OffCycles marks c := by
  cases c with
  | run steps => simp [offCycles, OffCycles, loops]
  | sequence codes => exact offCyclesEach_iff codes
  | oneOf codes => exact offCyclesEach_iff codes
  | loop head body =>
    have hhead := offCycles_iff head
    have hbody := offCycles_iff body
    unfold OffCycles at hhead hbody ⊢
    simp only [offCycles, Bool.and_eq_true, Bool.not_eq_true', hhead, hbody, not_cycles_iff, loops,
      List.mem_cons, List.mem_append, or_imp, forall_and, forall_eq]
    exact and_comm
  | breakLoop => simp [offCycles, OffCycles, loops]
  | leave => simp [offCycles, OffCycles, loops]

theorem offCyclesEach_iff (codes : List (Code ι)) :
    offCyclesEach marks codes = true ↔ ∀ turn ∈ loopsEach codes, Unmarked marks turn := by
  cases codes with
  | nil => simp [offCyclesEach, loopsEach]
  | cons c cs =>
    have hc := offCycles_iff c
    have hcs := offCyclesEach_iff cs
    unfold OffCycles at hc
    simp only [offCyclesEach, Bool.and_eq_true, hc, hcs, loopsEach, List.mem_append, or_imp,
      forall_and]

end

end Cycles

section Once
variable {marks : ι → Bool} {c : Code ι} {t t' : List Position} {o : Outcome}

theorem nodup_under (n : ℕ) (h : t.Nodup) : (under n t).Nodup :=
  h.map fun _ _ heq => (List.cons.inj heq).2

theorem nodup_under_append (h : t.Nodup) (h' : t'.Nodup) : (under 0 t ++ under 1 t').Nodup := by
  refine List.nodup_append.mpr ⟨nodup_under 0 h, nodup_under 1 h', ?_⟩
  intro p hp q hq heq
  obtain ⟨p', -, rfl⟩ := List.mem_map.mp hp
  obtain ⟨q', -, rfl⟩ := List.mem_map.mp hq
  cases heq

theorem le_of_mem_marksFrom {steps : List ι} {n : ℕ} {p : Position}
    (h : p ∈ marksFrom marks n steps) : ∃ m, n ≤ m ∧ p = [m] := by
  induction steps generalizing n with
  | nil => cases h
  | cons step steps ih =>
    rw [marksFrom] at h
    split at h
    · rcases List.mem_cons.mp h with rfl | hrest
      · exact ⟨n, le_rfl, rfl⟩
      · obtain ⟨m, hm, rfl⟩ := ih hrest
        exact ⟨m, by omega, rfl⟩
    · obtain ⟨m, hm, rfl⟩ := ih h
      exact ⟨m, by omega, rfl⟩

theorem nodup_marksFrom (steps : List ι) (n : ℕ) : (marksFrom marks n steps).Nodup := by
  induction steps generalizing n with
  | nil => exact List.nodup_nil
  | cons step steps ih =>
    rw [marksFrom]
    split
    · refine List.nodup_cons.mpr ⟨fun hmem => ?_, ih (n + 1)⟩
      obtain ⟨m, hm, heq⟩ := le_of_mem_marksFrom hmem
      cases heq
      omega
    · exact ih (n + 1)

theorem mem_markedEach {codes : List (Code ι)} {i n : ℕ} {p : Position} (hmem : codes[i]? = some c)
    (hp : p ∈ marked marks c) : (n + i) :: p ∈ markedEach marks n codes := by
  induction codes generalizing i n with
  | nil => cases hmem
  | cons d ds ih =>
    cases i with
    | zero =>
      cases hmem
      exact List.mem_append_left _ (List.mem_map.mpr ⟨p, hp, rfl⟩)
    | succ i =>
      have hrest := ih (n := n + 1) hmem
      rw [show n + 1 + i = n + (i + 1) by omega] at hrest
      exact List.mem_append_right _ hrest

theorem under_append_subset {u u' : List Position} (h : t ⊆ u) (h' : t' ⊆ u') :
    under 0 t ++ under 1 t' ⊆ under 0 u ++ under 1 u' :=
  List.append_subset.mpr
    ⟨List.Subset.trans (List.map_subset _ h) (List.subset_append_left _ _),
      List.Subset.trans (List.map_subset _ h') (List.subset_append_right _ _)⟩

/-- A path keeps to the marked steps of its tree. -/
theorem marked_of_runs (h : Runs marks c t o) : t ⊆ marked marks c := by
  induction h with
  | run steps => exact List.Subset.refl _
  | done => exact List.nil_subset _
  | next _ _ ih ih' => exact under_append_subset ih ih'
  | stop cs _ _ ih => exact List.Subset.trans (List.map_subset _ ih) (List.subset_append_left _ _)
  | choose i hmem _ ih =>
    intro p hp
    obtain ⟨q, hq, rfl⟩ := List.mem_map.mp hp
    have hplace := mem_markedEach (n := 0) hmem (ih hq)
    rw [Nat.zero_add] at hplace
    exact hplace
  | escape body _ _ ih =>
    exact List.Subset.trans (List.map_subset _ ih) (List.subset_append_left _ _)
  | finish body _ ih => exact List.Subset.trans (List.map_subset _ ih) (List.subset_append_left _ _)
  | again _ _ _ ih ih' ih'' =>
    exact List.append_subset.mpr ⟨under_append_subset ih ih', ih''⟩
  | broke _ _ ih ih' => exact under_append_subset ih ih'
  | left _ _ ih ih' => exact under_append_subset ih ih'
  | breakLoop => exact List.nil_subset _
  | leave => exact List.nil_subset _

theorem mem_loopsEach {codes : List (Code ι)} (hmem : c ∈ codes) {turn : Code ι × Code ι}
    (h : turn ∈ loops c) : turn ∈ loopsEach codes := by
  induction codes with
  | nil => cases hmem
  | cons d ds ih =>
    rcases List.mem_cons.mp hmem with rfl | hrest
    · exact List.mem_append_left _ h
    · exact List.mem_append_right _ (ih hrest)

/-- Where no marked step is on a cycle, no path comes to one twice. -/
theorem nodup_of_runs (h : Runs marks c t o) (hoff : OffCycles marks c) : t.Nodup := by
  induction h with
  | run steps => exact nodup_marksFrom steps 0
  | done => exact List.nodup_nil
  | next _ _ ih ih' =>
    refine nodup_under_append (ih fun turn hturn => ?_) (ih' fun turn hturn => ?_)
    · exact hoff turn (List.mem_append_left _ hturn)
    · exact hoff turn (List.mem_append_right _ hturn)
  | stop cs _ _ ih => exact nodup_under 0 (ih fun turn h => hoff turn (List.mem_append_left _ h))
  | choose i hmem _ ih =>
    refine nodup_under i (ih fun turn h => hoff turn ?_)
    exact mem_loopsEach (List.mem_of_getElem? hmem) h
  | escape body _ _ ih =>
    refine nodup_under 0 (ih fun turn h => hoff turn ?_)
    exact List.mem_cons_of_mem _ (List.mem_append_left _ h)
  | finish body _ ih =>
    refine nodup_under 0 (ih fun turn h => hoff turn ?_)
    exact List.mem_cons_of_mem _ (List.mem_append_left _ h)
  | again hhead hbody _ _ _ ih =>
    obtain ⟨rfl, rfl⟩ := hoff _ List.mem_cons_self _ _ hhead hbody
    exact ih hoff
  | broke _ _ ih ih' =>
    refine nodup_under_append (ih fun turn h => hoff turn ?_) (ih' fun turn h => hoff turn ?_)
    · exact List.mem_cons_of_mem _ (List.mem_append_left _ h)
    · exact List.mem_cons_of_mem _ (List.mem_append_right _ h)
  | left _ _ ih ih' =>
    refine nodup_under_append (ih fun turn h => hoff turn ?_) (ih' fun turn h => hoff turn ?_)
    · exact List.mem_cons_of_mem _ (List.mem_append_left _ h)
    · exact List.mem_cons_of_mem _ (List.mem_append_right _ h)
  | breakLoop => exact List.nodup_nil
  | leave => exact List.nodup_nil

/-- Then a path comes to as many marked steps as the tree has, at most. -/
theorem length_le_of_runs (h : Runs marks c t o) (hoff : OffCycles marks c) :
    t.length ≤ (marked marks c).length :=
  (List.subperm_of_subset (nodup_of_runs h hoff) (marked_of_runs h)).length_le

end Once

end NewClLang.ControlTrees
