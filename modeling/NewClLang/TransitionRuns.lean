import Mathlib.Data.List.Basic
import Mathlib.Tactic.Common

set_option autoImplicit false

/-!
# Runs of step functions

A machine answers a list of requests one after the other. A relation kept by every step, with
equal answers, makes two machines answer every list alike.
-/
namespace NewClLang.TransitionRuns

section Answers
variable {σ τ ι ο : Type*}

def answers (step : σ → ι → σ × ο) : σ → List ι → σ × List ο
  | s, [] => (s, [])
  | s, i :: rest =>
    let now := step s i
    let later := answers step now.1 rest
    (later.1, now.2 :: later.2)

theorem answers_simulation {step : σ → ι → σ × ο} {step' : τ → ι → τ × ο} {R : σ → τ → Prop}
    (hstep : ∀ s t i, R s t → R (step s i).1 (step' t i).1 ∧ (step s i).2 = (step' t i).2)
    (requests : List ι) {s : σ} {t : τ} (h : R s t) :
    R (answers step s requests).1 (answers step' t requests).1 ∧
      (answers step s requests).2 = (answers step' t requests).2 := by
  induction requests generalizing s t with
  | nil => exact ⟨h, rfl⟩
  | cons i rest ih =>
    obtain ⟨hnext, hanswer⟩ := hstep s t i h
    obtain ⟨hfinal, hrest⟩ := ih hnext
    refine ⟨hfinal, ?_⟩
    simp only [answers]
    rw [hanswer, hrest]

end Answers

section Conditions
variable {σ ι : Type*}

/-- `P` holds in the first state of a run and after each of its steps. -/
def Always (step : σ → ι → σ) (P : σ → Prop) : σ → List ι → Prop
  | s, [] => P s
  | s, i :: rest => P s ∧ Always step P (step s i) rest

/-- Every step of a run is taken in a state that meets its condition. -/
def EachStep (step : σ → ι → σ) (C : σ → ι → Prop) : σ → List ι → Prop
  | _, [] => True
  | s, i :: rest => C s i ∧ EachStep step C (step s i) rest

instance decidableEachStep (step : σ → ι → σ) (C : σ → ι → Prop) [∀ s i, Decidable (C s i)] :
    ∀ s requests, Decidable (EachStep step C s requests)
  | _, [] => isTrue trivial
  | s, i :: rest =>
    let _ := decidableEachStep step C (step s i) rest
    inferInstanceAs (Decidable (C s i ∧ EachStep step C (step s i) rest))

theorem Always.head {step : σ → ι → σ} {P : σ → Prop} {s : σ} {requests : List ι}
    (h : Always step P s requests) : P s := by
  cases requests with
  | nil => exact h
  | cons i rest => exact h.1

/-- With an invariant that implies `P`, is kept by the steps that meet `C`, and is only followed
    by a failure of `P` where a step does not, `P` holds throughout exactly when `C` does. -/
theorem always_iff_eachStep {step : σ → ι → σ} {P I : σ → Prop} {C : σ → ι → Prop}
    (hP : ∀ s, I s → P s) (hkeep : ∀ s i, I s → C s i → I (step s i))
    (hbreak : ∀ s i, I s → ¬ C s i → ¬ P (step s i)) (requests : List ι) {s : σ} (hs : I s) :
    Always step P s requests ↔ EachStep step C s requests := by
  induction requests generalizing s with
  | nil => exact ⟨fun _ => trivial, fun _ => hP s hs⟩
  | cons i rest ih =>
    constructor
    · rintro ⟨-, hrest⟩
      by_cases hc : C s i
      · exact ⟨hc, (ih (hkeep s i hs hc)).mp hrest⟩
      · exact absurd hrest.head (hbreak s i hs hc)
    · rintro ⟨hc, hrest⟩
      exact ⟨hP s hs, (ih (hkeep s i hs hc)).mpr hrest⟩

theorem EachStep.always {step : σ → ι → σ} {P I : σ → Prop} {C : σ → ι → Prop}
    (hP : ∀ s, I s → P s) (hkeep : ∀ s i, I s → C s i → I (step s i)) {requests : List ι} {s : σ}
    (hs : I s) (h : EachStep step C s requests) : Always step P s requests := by
  induction requests generalizing s with
  | nil => exact hP s hs
  | cons i rest ih => exact ⟨hP s hs, ih (hkeep s i hs h.1) h.2⟩

theorem EachStep.imp {step : σ → ι → σ} {I : σ → Prop} {C D : σ → ι → Prop}
    (hkeep : ∀ s i, I s → C s i → I (step s i)) (himp : ∀ s i, I s → C s i → D s i)
    {requests : List ι} {s : σ} (hs : I s) (h : EachStep step C s requests) :
    EachStep step D s requests := by
  induction requests generalizing s with
  | nil => trivial
  | cons i rest ih => exact ⟨himp s i hs h.1, ih (hkeep s i hs h.1) h.2⟩

theorem EachStep.and {step : σ → ι → σ} {C D : σ → ι → Prop} {requests : List ι} {s : σ}
    (h : EachStep step C s requests) (h' : EachStep step D s requests) :
    EachStep step (fun s i => C s i ∧ D s i) s requests := by
  induction requests generalizing s with
  | nil => trivial
  | cons i rest ih => exact ⟨⟨h.1, h'.1⟩, ih h.2 h'.2⟩

theorem Always.eachStep {step : σ → ι → σ} {P : σ → Prop} {requests : List ι} {s : σ}
    (h : Always step P s requests) : EachStep step (fun s _ => P s) s requests := by
  induction requests generalizing s with
  | nil => trivial
  | cons i rest ih => exact ⟨h.1, ih h.2⟩

theorem Always.imp {step : σ → ι → σ} {P Q : σ → Prop} (himp : ∀ s, P s → Q s)
    {requests : List ι} {s : σ} (h : Always step P s requests) : Always step Q s requests := by
  induction requests generalizing s with
  | nil => exact himp s h
  | cons i rest ih => exact ⟨himp s h.1, ih h.2⟩

/-- One run after another. -/
theorem Always.append {step : σ → ι → σ} {P : σ → Prop} {first rest : List ι} {s : σ}
    (h : Always step P s first) (h' : Always step P (first.foldl step s) rest) :
    Always step P s (first ++ rest) := by
  induction first generalizing s with
  | nil => exact h'
  | cons i first ih => exact ⟨h.1, ih h.2 h'⟩

theorem Always.last {step : σ → ι → σ} {P : σ → Prop} {requests : List ι} {s : σ}
    (h : Always step P s requests) : P (requests.foldl step s) := by
  induction requests generalizing s with
  | nil => exact h
  | cons i rest ih => exact ih h.2

end Conditions

end NewClLang.TransitionRuns
