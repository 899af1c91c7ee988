import NewClLang.BlockConditions

set_option autoImplicit false

/-!
# Slots in loops

Where the constructs of a body take stack slots and register roots, and whether a turn of a `for`
that comes back passes one that does. A deferred block is in the loop of `emit_deferred`.
-/
namespace NewClLang.SlotConditions
open ControlTrees BlockEmission

/-- `alloca_at_entry` and `root_pointer_slot`. -/
def takesSlot : Instruction → Bool
  | .plain => false
  | .slot => true
  | .root => true

/-- How the paths through a construct end, with the slots that they pass, whether no turn of a loop
in it comes back over one, and whether what follows is emitted. -/
structure Trail where
  flow : Flow
  still : Bool
  continues : Bool

def Trail.seq (t u : Trail) : Trail :=
  if t.continues then ⟨t.flow.seq u.flow, t.still && u.still, u.continues⟩ else t

def Trail.fork (t u : Trail) : Trail :=
  ⟨t.flow.or u.flow, t.still && u.still, t.continues || u.continues⟩

def Trail.loop (head body : Trail) : Trail :=
  ⟨head.flow.loop body.flow, head.still && body.still && !head.flow.cycles body.flow,
    head.continues⟩

def Trail.pass : Trail := ⟨Flow.pass, true, true⟩

def Trail.leave : Trail := ⟨Flow.none, true, false⟩

def Trail.run (instructions : List Instruction) : Trail :=
  ⟨Flow.steps takesSlot instructions, true, true⟩

/-- The block where others join. -/
def Trail.joined (t : Trail) (merge : List Instruction) : Trail :=
  ⟨t.flow.seq (if t.continues then Flow.steps takesSlot merge else Flow.none), t.still, t.continues⟩

/-- What another block follows in any case. -/
def Trail.aside (t : Trail) : Trail := { t with continues := true }

/-- A fallible call. The branch of the error leaves the function or stops the program. -/
def Trail.call (success : Option ℕ) (args : Trail) : Trail :=
  (Trail.run (fallibleOutSlots success)).seq args

/-- A deferred block at an exit: it comes back to the dispatch at its end. -/
def Trail.site (t : Trail) : Bool := t.still && !t.flow.fallsMarked

mutual

def trailExpr (deferred : Bool) : Expr → Trail
  | .operation before operands => (Trail.run before).seq (trailOperands deferred operands)
  | .ifExpr condition test thenBlock elseBlock merge =>
    (trailExpr deferred condition).seq ((Trail.run test).seq
      (((trailStmts deferred thenBlock).fork (trailStmts deferred elseBlock)).joined merge))
  | .blockExpr block => trailStmts deferred block
  | .matchExpr scrutinee arms merge =>
    (trailExpr deferred scrutinee).seq ((trailArms deferred arms).joined merge)
  | .fallibleOp _ success args => Trail.call success (trailOperands deferred args)
  | .errorHandler success args handler merge =>
    (Trail.call success (trailOperands deferred args)).seq
      ((((Trail.run bindError).seq (trailStmts deferred handler)).fork Trail.pass).seq
        (Trail.run merge))
  | .errorMatch success args arms merge =>
    (Trail.call success (trailOperands deferred args)).seq
      ((((Trail.run bindError).seq (trailArms deferred arms)).fork Trail.pass).seq
        (Trail.run merge))
  | .exit _ value convert =>
    (trailExpr deferred value).seq ((Trail.run convert).seq Trail.leave)

def trailOperands (deferred : Bool) : Operands → Trail
  | .nil => Trail.pass
  | .cons operand after rest =>
    (trailExpr deferred operand).seq ((Trail.run after).seq (trailOperands deferred rest))

def trailArms (deferred : Bool) : Arms → Trail
  | .last pattern body => (Trail.run pattern).seq (trailExpr deferred body)
  | .cons pattern body rest =>
    (Trail.run pattern).seq ((trailExpr deferred body).fork (trailArms deferred rest))

def trailStmt (deferred : Bool) : Stmt → Trail
  | .variableDecl roots initializer convert =>
    (Trail.run (rootedSlot roots)).seq ((trailExpr deferred initializer).seq (Trail.run convert))
  | .expression expr => trailExpr deferred expr
  | .forCondition condition test body =>
    ((trailExpr deferred condition).seq (Trail.run test)).loop (trailStmts deferred body)
  | .forIn iteration operands body =>
    (Trail.run iteration.slots).seq ((trailOperands deferred operands).seq
      (Trail.pass.loop (trailStmts deferred body)))
  | .tryCall success args successBlock handled errorBlock =>
    (Trail.call success (trailOperands deferred args)).seq
      ((if handled then (Trail.run bindError).seq (trailStmts deferred errorBlock)
        else Trail.leave).fork
        ((Trail.run ((success.map rootedSlot).getD [])).seq
          (trailStmts deferred successBlock))).aside
  | .defer body =>
    if deferred then trailStmts deferred body
    else ⟨Flow.pass, (trailStmts true body).site, true⟩
  | .breakStmt => ⟨⟨false, false, true, false⟩, true, false⟩

def trailStmts (deferred : Bool) : List Stmt → Trail
  | [] => Trail.pass
  | s :: ss => (trailStmt deferred s).seq (trailStmts deferred ss)

end

/-- The bodies in which no slot is taken by a turn of a `for` that comes back, or by a deferred
block that comes to its end. -/
def stillCallable (f : Callable) : Bool :=
  match f.tail with
  | none => (trailStmts false f.body).still
  | some (tail, _) => ((trailStmts false f.body).seq (trailExpr false tail)).still

end NewClLang.SlotConditions
