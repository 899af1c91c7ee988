import NewClLang.CodeEmission

set_option autoImplicit false

/-!
# Logical operators

`emit_binary` emits both operands of `&&` and of `||` before it combines their values, so the right
operand is evaluated too where the left one decides the result.
-/
namespace NewClLang.ShortCircuit
open Syntax StatefulRuns CompiledCode CodeEmission

inductive Logical where
  | conjunction
  | disjunction

def Logical.op : Logical → BinaryOp
  | .conjunction => .logicalAnd
  | .disjunction => .logicalOr

def Logical.connective : Logical → Bool → Bool → Bool
  | .conjunction => and
  | .disjunction => or

/-- The value of the left operand that is the result, whatever the right one is. -/
def Logical.deciding : Logical → Bool
  | .conjunction => false
  | .disjunction => true

section Evaluation
variable {W V : Type}

def bothOperands (p : Primitives W V) (op : Logical) (left right : Run W V) : Run W V := do
  log .operand
  let l ← left
  log .operand
  let r ← right
  pure (p.ofBool (op.connective (p.truth l) (p.truth r)))

/-- The operators of C and Go: the right operand only where the left one does not decide. -/
def shortCircuit (p : Primitives W V) (op : Logical) (left right : Run W V) : Run W V := do
  log .operand
  let l ← left
  if p.truth l = op.deciding then
    pure (p.ofBool op.deciding)
  else
    log .operand
    let r ← right
    pure (p.ofBool (p.truth r))

/-- The left operand, evaluated in `s`, has the deciding value. -/
def Decides (p : Primitives W V) (op : Logical) (left : Run W V) (s : State W) : Prop :=
  ∃ l s', left { s with trace := .operand :: s.trace } = .ok l s' ∧ p.truth l = op.deciding

theorem stable_trace (p : Primitives W V) (past : List Event) :
    Stable p (fun s => past <:+ s.trace) where
  act := by
    intro a vs s hs
    rw [finalState, actOn]
    cases p.act a vs s.world with
    | none => exact hs
    | some answer => exact hs
  operand := fun s hs => List.IsSuffix.trans hs (List.suffix_cons _ _)
  inlined := fun s hs => List.IsSuffix.trans hs (List.suffix_cons _ _)
  register := by
    intro site s hs
    have hnext := List.IsSuffix.trans hs (List.suffix_cons (.passed site s.pending.length) s.trace)
    rw [finalState, registerSite]
    by_cases hroom : s.pending.length < deferStackSize
    · simp only [if_pos hroom]
      exact hnext
    · simp only [if_neg hroom]
      exact hnext
  dropped := fun s site rest known _ _ hs => List.IsSuffix.trans hs (List.suffix_cons _ _)
  started := fun s site rest known _ _ hs =>
    List.IsSuffix.trans hs (List.suffix_append [Event.executed site, .popped site known] s.trace)
  leave := fun deferred s _ hs => List.IsSuffix.trans hs (List.suffix_cons _ _)

theorem trace_suffix (p : Primitives W V) (fuel : ℕ) (c : Code) (s : State W) :
    s.trace <:+ (finalState (exec p fuel c) s).trace :=
  exec_keeps (stable_trace p s.trace) fuel c s (List.suffix_refl _)

theorem bothOperands_of_deciding (p : Primitives W V) (op : Logical) {left right : Run W V}
    {s s' : State W} {l : V} (hleft : left { s with trace := .operand :: s.trace } = .ok l s') :
    bothOperands p op left right s =
      (right >>= fun r => pure (p.ofBool (op.connective (p.truth l) (p.truth r))))
        { s' with trace := .operand :: s'.trace } := by
  rw [bothOperands, bind_ok (x := log .operand) _ rfl, bind_ok (x := left) _ hleft,
    bind_ok (x := log .operand) _ rfl]

theorem bothOperands_ne (p : Primitives W V) (fuel : ℕ) (op : Logical) (left : Run W V) (c : Code)
    {s : State W} (h : Decides p op left s) :
    bothOperands p op left (exec p fuel c) s ≠ shortCircuit p op left (exec p fuel c) s := by
  obtain ⟨l, s', hleft, hdecides⟩ := h
  have hshort : shortCircuit p op left (exec p fuel c) s = .ok (p.ofBool op.deciding) s' := by
    rw [shortCircuit, bind_ok (x := log .operand) _ rfl, bind_ok (x := left) _ hleft,
      if_pos hdecides]
    rfl
  rw [hshort, bothOperands_of_deciding p op hleft]
  have hgrows := trace_suffix p fuel c { s' with trace := .operand :: s'.trace }
  cases hright : exec p fuel c { s' with trace := .operand :: s'.trace } with
  | ok r s₂ =>
    rw [bind_ok _ hright]
    intro heq
    have hstate : s₂ = s' := by
      injection heq
    rw [finalState_ok hright, hstate] at hgrows
    have hlength := hgrows.length_le
    rw [List.length_cons] at hlength
    omega
  | error e s₂ =>
    rw [bind_error _ hright]
    intro heq
    cases heq

theorem bothOperands_eq (p : Primitives W V) (op : Logical) (left right : Run W V) {s : State W}
    (h : ¬ Decides p op left s) : bothOperands p op left right s = shortCircuit p op left right s := by
  rw [bothOperands, shortCircuit, bind_ok (x := log .operand) _ rfl,
    bind_ok (x := log .operand) _ rfl]
  cases hleft : left { s with trace := .operand :: s.trace } with
  | error e s' => rw [bind_error _ hleft, bind_error _ hleft]
  | ok l s' =>
    have hopen : p.truth l ≠ op.deciding := fun hdecides => h ⟨l, s', hleft, hdecides⟩
    rw [bind_ok _ hleft, bind_ok _ hleft, if_neg hopen]
    have hconnective : ∀ r, op.connective (p.truth l) r = r := by
      intro r
      cases op with
      | conjunction =>
        rw [Bool.of_not_eq_false hopen]
        exact Bool.true_and r
      | disjunction =>
        rw [Bool.of_not_eq_true hopen]
        exact Bool.false_or r
    simp only [hconnective]

end Evaluation

section Emission
variable {W V : Type}

theorem emitted_logical (p : Primitives W V) (fuel : ℕ) (m : Bool) (op : Logical)
    (left right : Expr) (b : Builder) :
    exec p fuel (emitExpr m (.operation (.binary op.op) [left, right]) b).1 =
      bothOperands p op (exec p fuel (emitExpr m left b).1)
        (exec p fuel (emitExpr m right (emitExpr m left b).2).1) := by
  have hcode : (emitExpr m (.operation (.binary op.op) [left, right]) b).1 =
      .act (.operation (.binary op.op))
        [(emitExpr m left b).1, (emitExpr m right (emitExpr m left b).2).1] := by
    simp only [emitExpr, emitExprs]
    rfl
  rw [hcode]
  simp only [exec, execOperands, bothOperands, bind_assoc, pure_bind]
  cases op with
  | conjunction => rfl
  | disjunction => rfl

/-- The code of a logical operator short-circuits exactly where its left operand does not decide. -/
theorem emitted_short_circuits_iff (p : Primitives W V) (fuel : ℕ) (m : Bool) (op : Logical)
    (left right : Expr) (b : Builder) (s : State W) :
    exec p fuel (emitExpr m (.operation (.binary op.op) [left, right]) b).1 s =
        shortCircuit p op (exec p fuel (emitExpr m left b).1)
          (exec p fuel (emitExpr m right (emitExpr m left b).2).1) s ↔
      ¬ Decides p op (exec p fuel (emitExpr m left b).1) s := by
  rw [emitted_logical]
  constructor
  · intro heq hdecides
    exact bothOperands_ne p fuel op _ _ hdecides heq
  · exact bothOperands_eq p op _ _

/-- `false && called()`. -/
def guardedCall : Expr :=
  .operation (.binary Logical.conjunction.op) [.literal, .operation (.call "called") []]

/-- The call happens although the guard is false. -/
theorem guarded_call_evaluated :
    exec scripted 1 (emitExpr false guardedCall { sites := [], terminated := false }).1
        (start [false, true]) ≠
      shortCircuit scripted .conjunction (exec scripted 1 (.act .literal []))
        (exec scripted 1 (.act (.operation (.call "called")) [])) (start [false, true]) := by
  intro heq
  have htrace := congrArg (fun result => match result with
    | .ok _ s => s.trace
    | .error _ s => s.trace) heq
  exact absurd htrace (by decide)

end Emission

end NewClLang.ShortCircuit
