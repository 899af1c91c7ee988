import NewClLang.StatefulRuns
import NewClLang.Syntax

set_option autoImplicit false

/-!
# Compiled bodies

The code of a function body, and what it does. What an action does to the world outside of the
control flow is left open: it may read and write memory, call, print or not return.
-/
namespace NewClLang.CompiledCode
open Syntax StatefulRuns

inductive Action where
  | literal
  | identifier (occ : ℕ) (name : String)
  | functionExpr (captures : List (ℕ × String))
  | operation (op : Operation)
  | fallibleStatus
  | fallibleValue
  | bindValue (binder : Binder)
  | bindError (binder : Binder)
  | variableDecl (binder : Binder)
  | lvalue (action : Action)
  | assignment
  | startRange (index : Binder)
  | inRange (index : Binder)
  | startIteration (index value : Binder)
  | nextItem (index value : Binder)
  | advance (index : Binder)
  | endIteration
  | spawn
  | setResult (kind : Exit)

/-- `register` stores `site` in `__nc_defer_stack`, and `body` is the block it stands for; `drain`
    is what `emit_deferred` emits, a loop over the sites known to the code generator there. -/
inductive Code where
  | act (action : Action) (operands : List Code)
  | block (codes : List Code)
  | branch (condition thenCode elseCode : Code)
  | arms (scrutinee : Code) (bodies : List Code)
  | loop (condition body : Code)
  | breakLoop
  | stop
  | register (site : ℕ) (body : Code)
  | inlined (body : Code)
  | drain (sites : List Code)
  | exit (sites : List Code)
  | exitDeferred

inductive Event where
  | operand
  | passed (site pending : ℕ)
  | inlined
  | popped (site known : ℕ)
  | executed (site : ℕ)
  | left (deferred : Bool) (pending : ℕ)
deriving DecidableEq

/-- `pending` is the part of `__nc_defer_stack` below `__nc_defer_top`, the last entry first, and
    `trace` what happened so far, the last event first. -/
structure State (W : Type) where
  world : W
  pending : List ℕ
  trace : List Event

inductive Abrupt where
  | broke
  | left
  | stopped
  | corrupted
  | outOfFuel
deriving DecidableEq

abbrev Run (W α : Type) := EStateM Abrupt (State W) α

structure Primitives (W V : Type) where
  void : V
  truth : V → Bool
  ofBool : Bool → V
  matchesArm : V → ℕ → Bool
  act : Action → List V → W → Option (V × W)

section Steps
variable {W V : Type}

def log (e : Event) : Run W Unit := fun s => .ok () { s with trace := e :: s.trace }

/-- `emit_binary_values` of the logical operators, on operands that have their values. -/
def Action.connective : Action → Option (Bool → Bool → Bool)
  | .operation (.binary .logicalAnd) => some and
  | .operation (.binary .logicalOr) => some or
  | _ => none

def actOn (p : Primitives W V) (a : Action) (vs : List V) : Run W V := fun s =>
  match p.act a vs s.world with
  | some (v, world) => .ok v { s with world := world }
  | none => .error .stopped s

def perform (p : Primitives W V) (a : Action) (vs : List V) : Run W V :=
  match a.connective, vs with
  | some connective, [l, r] => pure (p.ofBool (connective (p.truth l) (p.truth r)))
  | _, vs => actOn p a vs

def deferStackSize : ℕ := 1024

/-- The bounds of `__nc_defer_stack` are not checked. -/
def registerSite (site : ℕ) : Run W Unit := fun s =>
  let s := { s with trace := .passed site s.pending.length :: s.trace }
  if s.pending.length < deferStackSize then .ok () { s with pending := site :: s.pending }
  else .error .corrupted s

/-- One turn of the loop of `emit_deferred`: a site that is not known to it is dropped. -/
def drainStep (blocks : List (Run W V)) : Run W Bool := fun s =>
  match s.pending with
  | [] => .ok false s
  | site :: rest =>
    let s := { s with pending := rest, trace := .popped site blocks.length :: s.trace }
    match blocks[site]? with
    | none => .ok true s
    | some block => (block >>= fun _ => pure true) { s with trace := .executed site :: s.trace }

def leave (deferred : Bool) : Run W V := fun s =>
  .error .left { s with trace := .left deferred s.pending.length :: s.trace }

def breakable (body : Run W V) : Run W Bool := fun s =>
  match body s with
  | .ok _ s => .ok true s
  | .error .broke s => .ok false s
  | .error e s => .error e s

mutual

def exec (p : Primitives W V) (fuel : ℕ) : Code → Run W V
  | .act a operands => execOperands p fuel operands >>= perform p a
  | .block codes => execBlock p fuel p.void codes
  | .branch condition thenCode elseCode =>
      exec p fuel condition >>= fun v =>
        if p.truth v = true then exec p fuel thenCode else exec p fuel elseCode
  | .arms scrutinee bodies => exec p fuel scrutinee >>= fun v => execArms p fuel v 0 bodies
  | .loop condition body =>
      repeatWhile .outOfFuel
        (exec p fuel condition >>= fun v =>
          if p.truth v = true then breakable (exec p fuel body) else pure false) fuel >>= fun _ =>
        pure p.void
  | .breakLoop => throw .broke
  | .stop => throw .stopped
  | .register site _ => registerSite site >>= fun _ => pure p.void
  | .inlined body => log .inlined >>= fun _ => exec p fuel body
  | .drain sites =>
      repeatWhile .outOfFuel (drainStep (execSites p fuel sites)) fuel >>= fun _ => pure p.void
  | .exit sites =>
      repeatWhile .outOfFuel (drainStep (execSites p fuel sites)) fuel >>= fun _ => leave false
  | .exitDeferred => leave true

def execOperands (p : Primitives W V) (fuel : ℕ) : List Code → Run W (List V)
  | [] => pure []
  | c :: cs =>
      log .operand >>= fun _ => exec p fuel c >>= fun v =>
        execOperands p fuel cs >>= fun vs => pure (v :: vs)

/-- The value of a block is that of its last part. -/
def execBlock (p : Primitives W V) (fuel : ℕ) (last : V) : List Code → Run W V
  | [] => pure last
  | c :: cs => exec p fuel c >>= fun v => execBlock p fuel v cs

/-- The first arm that matches; without one, `unreachable`. -/
def execArms (p : Primitives W V) (fuel : ℕ) (v : V) (arm : ℕ) : List Code → Run W V
  | [] => throw .stopped
  | c :: cs => if p.matchesArm v arm = true then exec p fuel c else execArms p fuel v (arm + 1) cs

def execSites (p : Primitives W V) (fuel : ℕ) : List Code → List (Run W V)
  | [] => []
  | c :: cs => exec p fuel c :: execSites p fuel cs

end

def start (world : W) : State W := { world := world, pending := [], trace := [] }

/-- A world in which the truth values of the actions are listed beforehand. -/
def scripted : Primitives (List Bool) Bool where
  void := false
  truth := id
  ofBool := id
  matchesArm := fun v arm => v == (arm == 0)
  act := fun _ _ script => some (script.headD false, script.tail)

end Steps

section Stability
variable {W V : Type} {p : Primitives W V} {I : State W → Prop}

/-- A predicate that every step of compiled code keeps; a function is left, outside of a deferred
    block, with nothing pending. -/
structure Stable (p : Primitives W V) (I : State W → Prop) : Prop where
  act : ∀ a vs, Keeps I (actOn p a vs)
  operand : Keeps I (log .operand)
  inlined : Keeps I (log .inlined)
  register : ∀ site, Keeps I (registerSite site)
  dropped : ∀ s site rest known, s.pending = site :: rest → known ≤ site → I s →
    I { s with pending := rest, trace := .popped site known :: s.trace }
  started : ∀ s site rest known, s.pending = site :: rest → site < known → I s →
    I { s with pending := rest, trace := .executed site :: .popped site known :: s.trace }
  leave : ∀ deferred s, (deferred = false → s.pending = []) → I s →
    I (finalState (leave deferred : Run W V) s)

theorem keeps_breakable {body : Run W V} (h : Keeps I body) : Keeps I (breakable body) := by
  intro s hs
  have hnext := h s hs
  rw [finalState] at hnext
  rw [finalState, breakable]
  cases hbody : body s with
  | ok v s' =>
    rw [hbody] at hnext
    exact hnext
  | error e s' =>
    rw [hbody] at hnext
    cases e with
    | broke => exact hnext
    | left => exact hnext
    | stopped => exact hnext
    | corrupted => exact hnext
    | outOfFuel => exact hnext

theorem keeps_perform (h : Stable p I) (a : Action) (vs : List V) : Keeps I (perform p a vs) := by
  unfold perform
  split
  · exact keeps_pure _
  · exact h.act a _

section Drain
variable {blocks : List (Run W V)} {s : State W} {site : ℕ} {rest : List ℕ}

theorem drainStep_nil (h : s.pending = []) : drainStep blocks s = .ok false s := by
  rw [drainStep, h]

theorem drainStep_dropped (h : s.pending = site :: rest) (hblock : blocks[site]? = none) :
    drainStep blocks s =
      .ok true { s with pending := rest, trace := .popped site blocks.length :: s.trace } := by
  rw [drainStep, h]
  simp only [hblock]

theorem drainStep_started {block : Run W V} (h : s.pending = site :: rest)
    (hblock : blocks[site]? = some block) :
    drainStep blocks s = (block >>= fun _ => pure true)
      { s with
        pending := rest, trace := .executed site :: .popped site blocks.length :: s.trace } := by
  rw [drainStep, h]
  simp only [hblock]

theorem keeps_drainStep (h : Stable p I) (hblocks : ∀ block ∈ blocks, Keeps I block) :
    Keeps I (drainStep blocks) := by
  intro s hs
  cases hpending : s.pending with
  | nil =>
    rw [finalState_ok (drainStep_nil hpending)]
    exact hs
  | cons site rest =>
    cases hblock : blocks[site]? with
    | none =>
      rw [finalState_ok (drainStep_dropped hpending hblock)]
      exact h.dropped s site rest _ hpending (List.getElem?_eq_none_iff.mp hblock) hs
    | some block =>
      have hknown : site < blocks.length := (List.getElem?_eq_some_iff.mp hblock).1
      have hrun : Keeps I (block >>= fun _ => (pure true : Run W Bool)) :=
        keeps_bind (hblocks block (List.mem_of_getElem? hblock)) (fun _ => keeps_pure true)
      rw [finalState, drainStep_started hpending hblock]
      exact hrun _ (h.started s site rest _ hpending hknown hs)

theorem drained {fuel : ℕ} {s' : State W}
    (h : repeatWhile .outOfFuel (drainStep blocks) fuel s = .ok () s') : s'.pending = [] := by
  apply repeatWhile_ok (Q := fun s : State W => s.pending = []) _ fuel h
  intro s s' hstep
  cases hpending : s.pending with
  | nil =>
    rw [drainStep_nil hpending] at hstep
    cases hstep
    exact hpending
  | cons site rest =>
    cases hblock : blocks[site]? with
    | none =>
      rw [drainStep_dropped hpending hblock] at hstep
      cases hstep
    | some block =>
      rw [drainStep_started hpending hblock] at hstep
      generalize ({ s with
        pending := rest, trace := .executed site :: .popped site blocks.length :: s.trace } :
          State W) = s₁ at hstep
      cases hrun : block s₁ with
      | ok v s₂ =>
        rw [bind_ok _ hrun] at hstep
        cases hstep
      | error e s₂ =>
        rw [bind_error _ hrun] at hstep
        cases hstep

end Drain

mutual

theorem exec_keeps (h : Stable p I) (fuel : ℕ) (c : Code) : Keeps I (exec p fuel c) := by
  cases c with
  | act a operands =>
    rw [exec]
    exact keeps_bind (execOperands_keeps h fuel operands) (keeps_perform h a)
  | block codes =>
    rw [exec]
    exact execBlock_keeps h fuel p.void codes
  | branch condition thenCode elseCode =>
    rw [exec]
    exact keeps_bind (exec_keeps h fuel condition)
      (fun _ => keeps_ite (exec_keeps h fuel thenCode) (exec_keeps h fuel elseCode))
  | arms scrutinee bodies =>
    rw [exec]
    exact keeps_bind (exec_keeps h fuel scrutinee) (fun v => execArms_keeps h fuel v 0 bodies)
  | loop condition body =>
    rw [exec]
    have hturn := keeps_bind (exec_keeps h fuel condition)
      (fun v => keeps_ite (c := p.truth v = true) (keeps_breakable (exec_keeps h fuel body))
        (keeps_pure false))
    exact keeps_bind (keeps_repeatWhile hturn fuel) (fun _ => keeps_pure _)
  | breakLoop => exact keeps_throw _
  | stop => exact keeps_throw _
  | register site body =>
    rw [exec]
    exact keeps_bind (h.register site) (fun _ => keeps_pure _)
  | inlined body =>
    rw [exec]
    exact keeps_bind h.inlined (fun _ => exec_keeps h fuel body)
  | drain sites =>
    rw [exec]
    have hloop := keeps_repeatWhile (e := Abrupt.outOfFuel)
      (keeps_drainStep h (execSites_keeps h fuel sites)) fuel
    exact keeps_bind hloop (fun _ => keeps_pure _)
  | exit sites =>
    rw [exec]
    have hloop := keeps_repeatWhile (e := Abrupt.outOfFuel)
      (keeps_drainStep h (execSites_keeps h fuel sites)) fuel
    exact keeps_bind_from hloop (fun _ _ s' hdone hs' => h.leave false s' (fun _ => drained hdone) hs')
  | exitDeferred =>
    rw [exec]
    exact fun s hs => h.leave true s Bool.noConfusion hs

theorem execOperands_keeps (h : Stable p I) (fuel : ℕ) (cs : List Code) :
    Keeps I (execOperands p fuel cs) := by
  cases cs with
  | nil => exact keeps_pure _
  | cons c cs =>
    rw [execOperands]
    exact keeps_bind h.operand (fun _ => keeps_bind (exec_keeps h fuel c)
      (fun _ => keeps_bind (execOperands_keeps h fuel cs) (fun _ => keeps_pure _)))

theorem execBlock_keeps (h : Stable p I) (fuel : ℕ) (last : V) (cs : List Code) :
    Keeps I (execBlock p fuel last cs) := by
  cases cs with
  | nil => exact keeps_pure _
  | cons c cs =>
    rw [execBlock]
    exact keeps_bind (exec_keeps h fuel c) (fun v => execBlock_keeps h fuel v cs)

theorem execArms_keeps (h : Stable p I) (fuel : ℕ) (v : V) (arm : ℕ) (cs : List Code) :
    Keeps I (execArms p fuel v arm cs) := by
  cases cs with
  | nil => exact keeps_throw _
  | cons c cs =>
    rw [execArms]
    exact keeps_ite (exec_keeps h fuel c) (execArms_keeps h fuel v (arm + 1) cs)

theorem execSites_keeps (h : Stable p I) (fuel : ℕ) (cs : List Code) :
    ∀ block ∈ execSites p fuel cs, Keeps I block := by
  cases cs with
  | nil => exact fun block hblock => absurd hblock List.not_mem_nil
  | cons c cs =>
    intro block hblock
    rw [execSites, List.mem_cons] at hblock
    cases hblock with
    | inl heq =>
      rw [heq]
      exact exec_keeps h fuel c
    | inr hmem => exact execSites_keeps h fuel cs block hmem

end

end Stability

end NewClLang.CompiledCode
