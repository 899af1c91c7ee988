import Mathlib.Tactic.Common

set_option autoImplicit false

/-!
# What a computation that may raise comes to

A computation in `Except` ends with a result that meets a postcondition or with an error of a kind
that is allowed.
-/
namespace NewClLang.ExceptOutcomes

section Outcomes
variable {ε α β : Type} {E : ε → Prop} {Q R : α → Prop}

/-- The computation gives a result with `Q` or an error with `E`. -/
inductive Ends (E : ε → Prop) (Q : α → Prop) : Except ε α → Prop where
  | ok {a : α} (h : Q a) : Ends E Q (.ok a)
  | error {e : ε} (h : E e) : Ends E Q (.error e)

theorem Ends.bind {x : Except ε α} {f : α → Except ε β} {S : β → Prop} (hx : Ends E Q x)
    (hf : ∀ a, Q a → Ends E S (f a)) : Ends E S (x >>= f) := by
  cases hx with
  | ok h => exact hf _ h
  | error h => exact .error h

theorem Ends.map {x : Except ε α} {f : α → β} {S : β → Prop} (hx : Ends E Q x)
    (hf : ∀ a, Q a → S (f a)) : Ends E S (x.map f) := by
  cases hx with
  | ok h => exact .ok (hf _ h)
  | error h => exact .error h

theorem Ends.imp {E' : ε → Prop} {x : Except ε α} (hx : Ends E Q x) (hE : ∀ e, E e → E' e)
    (hQ : ∀ a, Q a → R a) : Ends E' R x := by
  cases hx with
  | ok hq => exact .ok (hQ _ hq)
  | error he => exact .error (hE _ he)

theorem Ends.mono {x : Except ε α} (hx : Ends E Q x) (h : ∀ a, Q a → R a) : Ends E R x :=
  hx.imp (fun _ he => he) h

/-- Where every error is allowed, only a result has to be looked at. -/
theorem ends_of_ok {x : Except ε α} (h : ∀ a, x = .ok a → Q a) : Ends (fun _ => True) Q x := by
  cases x with
  | ok a => exact .ok (h a rfl)
  | error e => exact .error trivial

/-- The result is the one that the computation gives. -/
theorem Ends.result_eq {x : Except ε α} {d : α} (hx : Ends E Q x) :
    Ends E (fun a => Q a ∧ a = x.toOption.getD d) x := by
  cases hx with
  | ok hq => exact .ok ⟨hq, rfl⟩
  | error he => exact .error he

theorem Ends.result {x : Except ε α} {a : α} (h : Ends E Q x) (hx : x = .ok a) : Q a := by
  rw [hx] at h
  cases h with
  | ok hq => exact hq

theorem Ends.exact {x : Except ε α} {b : α} (h : Ends E Q x) (hE : ∀ e, ¬ E e)
    (hQ : ∀ a, Q a → a = b) : x = .ok b := by
  cases h with
  | ok hq => rw [hQ _ hq]
  | error he => exact absurd he (hE _)

theorem Ends.raised {x : Except ε α} {e : ε} (h : Ends E Q x) (hx : x = .error e) : E e := by
  rw [hx] at h
  cases h with
  | error he => exact he

/-- Where the first part has its result, what is left is the rest. -/
theorem bind_ok {x : Except ε α} {a : α} {f : α → Except ε β} (h : x = .ok a) :
    (x >>= f) = f a := by
  rw [h]
  rfl

theorem bind_error {x : Except ε α} {e : ε} {f : α → Except ε β} (h : x = .error e) :
    (x >>= f) = .error e := by
  rw [h]
  rfl

theorem bind_eq_ok {x : Except ε α} {f : α → Except ε β} {b : β} :
    (x >>= f) = .ok b ↔ ∃ a, x = .ok a ∧ f a = .ok b := by
  cases x with
  | error e =>
    constructor
    · intro h
      cases h
    · rintro ⟨a, ha, _⟩
      cases ha
  | ok a =>
    constructor
    · exact fun h => ⟨a, rfl, h⟩
    · rintro ⟨a', ha, h⟩
      cases ha
      exact h

theorem map_eq_ok {x : Except ε α} {f : α → β} {b : β} :
    x.map f = .ok b ↔ ∃ a, x = .ok a ∧ f a = b := by
  cases x with
  | error e => simp [Except.map]
  | ok a => simp [Except.map]

theorem mapM_ok {f : α → Except ε β} {g : α → β} {as : List α} (h : ∀ a ∈ as, f a = .ok (g a)) :
    as.mapM f = .ok (as.map g) := by
  induction as with
  | nil => rfl
  | cons a as ih =>
    obtain ⟨ha, has⟩ := List.forall_mem_cons.mp h
    rw [List.mapM_cons, bind_ok ha, bind_ok (ih has), List.map_cons]
    rfl

end Outcomes

end NewClLang.ExceptOutcomes
