import NewClLang.StatefulRuns

set_option autoImplicit false

/-!
# Computations in lockstep

Two stateful computations of one program in two settings. What tells the settings apart leaves a
mark in the state. As long as neither is marked, whatever one computes the other computes too.
-/
namespace NewClLang.Lockstep
open StatefulRuns

section Combinators
variable {ε σ α : Type}

/-- A computation between a change of the state and its undoing. -/
def within (enter : σ → σ) (leave : σ → σ → σ) (x : EStateM ε σ α) : EStateM ε σ α := fun s =>
  match x (enter s) with
  | .ok a s' => .ok a (leave s s')
  | .error e s' => .error e s'

variable {enter : σ → σ} {leave : σ → σ → σ} {x : EStateM ε σ α} {s : σ}

theorem within_ok {a : α} {s' : σ} (h : x (enter s) = .ok a s') :
    within enter leave x s = .ok a (leave s s') := by
  rw [within, h]

theorem within_error {e : ε} {s' : σ} (h : x (enter s) = .error e s') :
    within enter leave x s = .error e s' := by
  rw [within, h]

theorem keeps_within {I : σ → Prop} (hx : Keeps I x) (henter : ∀ s, I s → I (enter s))
    (hleave : ∀ s s', I s' → I (leave s s')) : Keeps I (within enter leave x) := by
  intro s hs
  have hfinal := hx (enter s) (henter s hs)
  cases h : x (enter s) with
  | ok a s' =>
    rw [finalState_ok h] at hfinal
    rw [finalState_ok (within_ok h)]
    exact hleave s s' hfinal
  | error e s' =>
    rw [finalState_error h] at hfinal
    rw [finalState_error (within_error h)]
    exact hfinal

end Combinators

/-- What `x` computes `y` computes too, from related states to related states, unless one of them
    ends marked. Marks stay, and a side that is quiet makes none. -/
structure Follows {ε σ α : Type} (R : σ → σ → Prop) (marked : σ → Prop) (quietLeft quietRight : Prop)
    (x y : EStateM ε σ α) : Prop where
  stays_left : Keeps marked x
  stays_right : Keeps marked y
  quiet_left : quietLeft → Keeps (fun s => ¬marked s) x
  quiet_right : quietRight → Keeps (fun s => ¬marked s) y
  step : ∀ s t a s', R s t → x s = .ok a s' → ¬marked s' → ¬marked (finalState y t) →
    ∃ t', y t = .ok a t' ∧ R s' t'

section Rules
variable {ε σ α β : Type} {R : σ → σ → Prop} {marked : σ → Prop} {ql qr : Prop}

theorem follows_pure (a : α) :
    Follows R marked ql qr (pure a : EStateM ε σ α) (pure a : EStateM ε σ α) where
  stays_left := keeps_pure a
  stays_right := keeps_pure a
  quiet_left _ := keeps_pure a
  quiet_right _ := keeps_pure a
  step s t b s' hR h _ _ := by
    cases h
    exact ⟨t, rfl, hR⟩

theorem follows_throw (e e' : ε) :
    Follows R marked ql qr (throw e : EStateM ε σ α) (throw e' : EStateM ε σ α) where
  stays_left := keeps_throw e
  stays_right := keeps_throw e'
  quiet_left _ := keeps_throw e
  quiet_right _ := keeps_throw e'
  step s t b s' _ h _ _ := by cases h

/-- A computation that fails is followed by any other. -/
theorem follows_fails (e : ε) {y : EStateM ε σ α} (hstays : Keeps marked y)
    (hquiet : qr → Keeps (fun s => ¬marked s) y) :
    Follows R marked ql qr (throw e : EStateM ε σ α) y where
  stays_left := keeps_throw e
  stays_right := hstays
  quiet_left _ := keeps_throw e
  quiet_right := hquiet
  step s t b s' _ h _ _ := by cases h

theorem follows_bind {x y : EStateM ε σ α} {f g : α → EStateM ε σ β}
    (hx : Follows R marked ql qr x y) (hf : ∀ a, Follows R marked ql qr (f a) (g a)) :
    Follows R marked ql qr (x >>= f) (y >>= g) where
  stays_left := keeps_bind hx.stays_left (fun a => (hf a).stays_left)
  stays_right := keeps_bind hx.stays_right (fun a => (hf a).stays_right)
  quiet_left hq := keeps_bind (hx.quiet_left hq) (fun a => (hf a).quiet_left hq)
  quiet_right hq := keeps_bind (hx.quiet_right hq) (fun a => (hf a).quiet_right hq)
  step s t b s' hR h hs' ht' := by
    cases hfirst : x s with
    | error e s₁ =>
      rw [bind_error f hfirst] at h
      cases h
    | ok a s₁ =>
      rw [bind_ok f hfirst] at h
      have hs₁ : ¬marked s₁ := fun hm => by
        have hstays := (hf a).stays_left s₁ hm
        rw [finalState_ok h] at hstays
        exact hs' hstays
      have ht₁ : ¬marked (finalState y t) := fun hm => by
        cases hsecond : y t with
        | error e t₁ =>
          rw [finalState_error (bind_error g hsecond)] at ht'
          rw [finalState_error hsecond] at hm
          exact ht' hm
        | ok a' t₁ =>
          rw [finalState, bind_ok g hsecond] at ht'
          rw [finalState_ok hsecond] at hm
          exact ht' ((hf a').stays_right t₁ hm)
      obtain ⟨t₁, hsecond, hR₁⟩ := hx.step s t a s₁ hR hfirst hs₁ ht₁
      rw [finalState, bind_ok g hsecond] at ht'
      obtain ⟨t₂, hrest, hR₂⟩ := (hf a).step s₁ t₁ b s' hR₁ h hs' ht'
      exact ⟨t₂, (bind_ok g hsecond).trans hrest, hR₂⟩

theorem follows_within {x y : EStateM ε σ α} {enter : σ → σ} {leave : σ → σ → σ}
    (hx : Follows R marked ql qr x y) (henter : ∀ s, marked (enter s) ↔ marked s)
    (hleave : ∀ s s', marked (leave s s') ↔ marked s') (hR : ∀ s t, R s t → R (enter s) (enter t))
    (hR' : ∀ s t s' t', R s t → R s' t' → R (leave s s') (leave t t')) :
    Follows R marked ql qr (within enter leave x) (within enter leave y) where
  stays_left := keeps_within hx.stays_left (fun s => (henter s).2) (fun s s' => (hleave s s').2)
  stays_right := keeps_within hx.stays_right (fun s => (henter s).2) (fun s s' => (hleave s s').2)
  quiet_left hq := keeps_within (hx.quiet_left hq) (fun s => (not_congr (henter s)).2)
    (fun s s' => (not_congr (hleave s s')).2)
  quiet_right hq := keeps_within (hx.quiet_right hq) (fun s => (not_congr (henter s)).2)
    (fun s s' => (not_congr (hleave s s')).2)
  step s t a s' hrel h hs' ht' := by
    cases hinner : x (enter s) with
    | error e s₁ =>
      rw [within_error hinner] at h
      cases h
    | ok b s₁ =>
      rw [within_ok hinner] at h
      cases h
      have hs₁ : ¬marked s₁ := fun hm => hs' ((hleave s s₁).2 hm)
      have ht₁ : ¬marked (finalState y (enter t)) := fun hm => by
        cases hother : y (enter t) with
        | error e t₁ =>
          rw [finalState_error (within_error hother)] at ht'
          rw [finalState_error hother] at hm
          exact ht' hm
        | ok b' t₁ =>
          rw [finalState_ok (within_ok hother)] at ht'
          rw [finalState_ok hother] at hm
          exact ht' ((hleave t t₁).2 hm)
      obtain ⟨t₁, hother, hR₁⟩ := hx.step (enter s) (enter t) a s₁ (hR s t hrel) hinner hs₁ ht₁
      exact ⟨leave t t₁, within_ok hother, hR' s t s₁ t₁ hrel hR₁⟩

/-- Two quiet computations. -/
theorem Follows.quiet {x y : EStateM ε σ α} (h : Follows R marked ql qr x y) (hl : ql) (hr : qr)
    {s t s' : σ} {a : α} (hst : R s t) (hs : ¬marked s) (ht : ¬marked t) (hx : x s = .ok a s') :
    ∃ t', y t = .ok a t' ∧ R s' t' ∧ ¬marked s' ∧ ¬marked t' := by
  have hs' : ¬marked s' := by
    have hfinal := h.quiet_left hl s hs
    rwa [finalState_ok hx] at hfinal
  have hfinal := h.quiet_right hr t ht
  obtain ⟨t', hy, hR⟩ := h.step s t a s' hst hx hs' hfinal
  rw [finalState_ok hy] at hfinal
  exact ⟨t', hy, hR, hs', hfinal⟩

end Rules

end NewClLang.Lockstep
