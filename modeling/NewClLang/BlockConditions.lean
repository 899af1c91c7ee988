import NewClLang.BlockEmission

set_option autoImplicit false

/-!
# Code after a terminator

What becomes of the basic block in which a construct is emitted, and whether anything is appended to
a block that is terminated.
-/
namespace NewClLang.BlockConditions
open BlockEmission

/-- `silent`: nothing is emitted in a block that is terminated. In one that is not, `sound` is that
nothing follows a terminator, and `falls` that the code comes to its end. -/
structure Fate where
  silent : Bool
  sound : Bool
  falls : Bool

/-- What follows a terminator has to be silent. -/
def Fate.seq (f g : Fate) : Fate where
  silent := f.silent && g.silent
  sound := f.sound && if f.falls then g.sound else g.silent
  falls := f.falls && g.falls

def Fate.pass : Fate := ⟨true, true, true⟩

def Fate.run (instructions : List Instruction) : Fate := ⟨instructions.isEmpty, true, true⟩

/-- What begins in a block of its own. -/
def Fate.own (f : Fate) : Fate := ⟨false, f.sound, f.falls⟩

def Fate.fork (f g : Fate) : Fate := ⟨false, f.sound && g.sound, f.falls || g.falls⟩

/-- What another block follows in any case. -/
def Fate.aside (f : Fate) : Fate := ⟨false, f.sound, true⟩

def Fate.leaves : Fate := ⟨false, true, false⟩

/-- A fallible call, which is emitted with slots for what it returns. -/
def Fate.call (args : Fate) : Fate := (Fate.run [.slot]).seq (args.seq (Fate.run [.plain]))

mutual

/-- What becomes of an expression, `deferred` in a deferred block, and `looped` in a loop that is
around there. -/
def fateExpr (deferred looped : Bool) : Expr → Fate
  | .operation before operands => (Fate.run before).seq (fateOperands deferred looped operands)
  | .ifExpr condition test thenBlock elseBlock _ =>
    (fateExpr deferred looped condition).seq ((Fate.run test).seq
      ((fateStmts deferred looped false thenBlock).fork
        (fateStmts deferred looped false elseBlock)))
  | .blockExpr block => fateStmts deferred looped false block
  | .matchExpr scrutinee arms _ =>
    (fateExpr deferred looped scrutinee).seq (fateArms deferred looped arms)
  | .fallibleOp _ _ args => (Fate.call (fateOperands deferred looped args)).seq Fate.pass.aside
  | .errorHandler _ args handler _ =>
    (Fate.call (fateOperands deferred looped args)).seq
      (fateStmts deferred looped false handler).aside
  | .errorMatch _ args arms _ =>
    (Fate.call (fateOperands deferred looped args)).seq (fateArms deferred looped arms).aside
  | .exit _ value convert =>
    (fateExpr deferred looped value).seq ((Fate.run convert).seq Fate.leaves)

def fateOperands (deferred looped : Bool) : Operands → Fate
  | .nil => Fate.pass
  | .cons operand after rest =>
    (fateExpr deferred looped operand).seq
      ((Fate.run after).seq (fateOperands deferred looped rest))

def fateArms (deferred looped : Bool) : Arms → Fate
  | .last pattern body => (Fate.run pattern).seq (fateExpr deferred looped body).own
  | .cons pattern body rest =>
    (Fate.run pattern).seq ((fateExpr deferred looped body).fork (fateArms deferred looped rest))

def fateStmt (deferred looped : Bool) : Stmt → Fate
  | .variableDecl _ initializer _ =>
    (Fate.run [.slot]).seq ((fateExpr deferred looped initializer).seq (Fate.run [.plain]))
  | .expression expr => fateExpr deferred looped expr
  | .forCondition condition test body =>
    ((fateExpr deferred looped condition).seq ((Fate.run test).seq
      (fateStmts deferred true true body).aside)).own
  | .forIn _ operands body =>
    (Fate.run [.slot]).seq ((fateOperands deferred looped operands).seq
      (fateStmts deferred true true body).aside)
  | .tryCall _ args successBlock handled errorBlock =>
    (Fate.call (fateOperands deferred looped args)).seq
      ((if handled then fateStmts deferred looped true errorBlock else Fate.pass).fork
        (fateStmts deferred looped true successBlock)).aside
  | .defer body =>
    if deferred then fateStmts deferred looped true body
    else (fateStmts true false true body).aside
  | .breakStmt => ⟨false, looped, false⟩

/-- Where `is_terminated` is checked, nothing is emitted after a terminator. -/
def fateStmts (deferred looped checked : Bool) : List Stmt → Fate
  | [] => Fate.pass
  | s :: ss =>
    let f := (fateStmt deferred looped s).seq (fateStmts deferred looped checked ss)
    { f with silent := checked || f.silent }

end

/-- The bodies in which nothing is emitted after a terminator. A body that is a value has an end. -/
def soundCallable (f : Callable) : Bool :=
  match f.tail with
  | none => (fateStmts false false true f.body).sound
  | some (tail, _) =>
    let body := fateStmts false false false f.body
    let value := fateExpr false false tail
    body.sound && (!body.falls || (value.sound && value.falls))

end NewClLang.BlockConditions
