import Mathlib.Data.List.Basic

set_option autoImplicit false

/-!
# Stateful computations that may be cut short

A predicate on the state is kept by a computation when it holds afterwards, however the computation
ends. Sequencing, branching and bounded repetition keep what their parts keep.
-/
namespace NewClLang.StatefulRuns

section Runs
variable {ε σ α β : Type}

def finalState (x : EStateM ε σ α) (s : σ) : σ :=
  match x s with
  | .ok _ s' => s'
  | .error _ s' => s'

theorem finalState_ok {x : EStateM ε σ α} {s s' : σ} {a : α} (h : x s = .ok a s') :
    finalState x s = s' := by
  rw [finalState, h]

theorem finalState_error {x : EStateM ε σ α} {s s' : σ} {e : ε} (h : x s = .error e s') :
    finalState x s = s' := by
  rw [finalState, h]

theorem bind_ok {x : EStateM ε σ α} {s s' : σ} {a : α} (f : α → EStateM ε σ β)
    (h : x s = .ok a s') : (x >>= f) s = f a s' := by
  change EStateM.bind x f s = _
  rw [EStateM.bind, h]

theorem bind_error {x : EStateM ε σ α} {s s' : σ} {e : ε} (f : α → EStateM ε σ β)
    (h : x s = .error e s') : (x >>= f) s = .error e s' := by
  change EStateM.bind x f s = _
  rw [EStateM.bind, h]

def Keeps (I : σ → Prop) (x : EStateM ε σ α) : Prop := ∀ s, I s → I (finalState x s)

variable {I : σ → Prop}

theorem keeps_pure (a : α) : Keeps I (pure a : EStateM ε σ α) := fun _ h => h

theorem keeps_throw (e : ε) : Keeps I (throw e : EStateM ε σ α) := fun _ h => h

/-- The rest of a computation has to keep the predicate from where the first part ends. -/
theorem keeps_bind_from {x : EStateM ε σ α} {f : α → EStateM ε σ β} (hx : Keeps I x)
    (hf : ∀ s a s', x s = .ok a s' → I s' → I (finalState (f a) s')) : Keeps I (x >>= f) := by
  intro s hs
  have hnext := hx s hs
  cases h : x s with
  | ok a s' =>
    rw [finalState_ok h] at hnext
    rw [finalState, bind_ok f h]
    exact hf s a s' h hnext
  | error e s' =>
    rw [finalState_error h] at hnext
    rw [finalState_error (bind_error f h)]
    exact hnext

theorem keeps_bind {x : EStateM ε σ α} {f : α → EStateM ε σ β} (hx : Keeps I x)
    (hf : ∀ a, Keeps I (f a)) : Keeps I (x >>= f) :=
  keeps_bind_from hx (fun _ a s' _ => hf a s')

theorem keeps_ite {c : Prop} [Decidable c] {x y : EStateM ε σ α} (hx : Keeps I x)
    (hy : Keeps I y) : Keeps I (if c then x else y) := by
  by_cases h : c
  · rw [if_pos h]
    exact hx
  · rw [if_neg h]
    exact hy

/-- Where a computation ends, with its value or without one. -/
def Ends (x : EStateM ε σ α) (s : σ) (post : α → σ → Prop) (failed : σ → Prop) : Prop :=
  match x s with
  | .ok a s' => post a s'
  | .error _ s' => failed s'

section Ends
variable {x : EStateM ε σ α} {s : σ} {post : α → σ → Prop} {failed : σ → Prop}

theorem ends_mono {post' : α → σ → Prop} (h : Ends x s post failed)
    (hpost : ∀ a s', post a s' → post' a s') : Ends x s post' failed := by
  rw [Ends] at h ⊢
  cases hx : x s with
  | ok a s' =>
    rw [hx] at h
    exact hpost a s' h
  | error e s' =>
    rw [hx] at h
    exact h

/-- The rest of a computation starts where the first part ends. -/
theorem ends_bind {f : α → EStateM ε σ β} {mid : α → σ → Prop} {post : β → σ → Prop}
    (hx : Ends x s mid failed) (hf : ∀ a s', mid a s' → Ends (f a) s' post failed) :
    Ends (x >>= f) s post failed := by
  rw [Ends] at hx ⊢
  cases h : x s with
  | ok a s' =>
    rw [h] at hx
    rw [bind_ok f h]
    exact hf a s' hx
  | error e s' =>
    rw [h] at hx
    rw [bind_error f h]
    exact hx

theorem ends_get {f : σ → EStateM ε σ α} (h : Ends (f s) s post failed) :
    Ends (get >>= f) s post failed := h

theorem ends_finalState {final : σ → Prop} (h : Ends x s (fun _ => final) final) :
    final (finalState x s) := by
  rw [Ends] at h
  rw [finalState]
  cases hx : x s with
  | ok a s' =>
    rw [hx] at h
    exact h
  | error e s' =>
    rw [hx] at h
    exact h

end Ends

/-- `step` over and over until it answers `false`, at most `fuel` times. -/
def repeatWhile (outOfFuel : ε) (step : EStateM ε σ Bool) : ℕ → EStateM ε σ Unit
  | 0 => throw outOfFuel
  | fuel + 1 => do
    if ← step then repeatWhile outOfFuel step fuel else pure ()

theorem keeps_repeatWhile {e : ε} {step : EStateM ε σ Bool} (h : Keeps I step) (fuel : ℕ) :
    Keeps I (repeatWhile e step fuel) := by
  induction fuel with
  | zero => exact keeps_throw e
  | succ fuel ih => exact keeps_bind h (fun _ => keeps_ite ih (keeps_pure ()))

theorem repeatWhile_ok {e : ε} {step : EStateM ε σ Bool} {Q : σ → Prop}
    (hstop : ∀ s s', step s = .ok false s' → Q s') (fuel : ℕ) {s s' : σ}
    (h : repeatWhile e step fuel s = .ok () s') : Q s' := by
  induction fuel generalizing s with
  | zero => cases h
  | succ fuel ih =>
    rw [repeatWhile] at h
    cases hstep : step s with
    | error e' s₁ =>
      rw [bind_error _ hstep] at h
      cases h
    | ok again s₁ =>
      rw [bind_ok _ hstep] at h
      cases again with
      | true => exact ih h
      | false =>
        cases h
        exact hstop s _ hstep

end Runs

end NewClLang.StatefulRuns
