import NewClLang.Syntax

set_option autoImplicit false

/-!
# Fallible functions and their calls

`infer_types`, as far as it marks functions as fallible. `mark_direct_fallible` marks them from
their syntax before any body is walked, the walk marks them again at each `err` and `??` it comes
to, and a call is checked against the marks that are there when it is walked.
-/
namespace NewClLang.FallibleCalls
open Syntax (FallibleOperator Exit)

/-- A `FunctionDeclaration` without parameters and body: the declaration, whether it has a return
    type, and whether it is marked `err`. -/
structure FunctionHead where
  key : ℕ
  returnTypeExplicit : Bool
  fallibleExplicit : Bool
  deriving DecidableEq

mutual

/-- Expressions. The forms that both passes treat as their operands are operations, with the
    functions whose return types the check of the form asks for. A call has the declaration that its
    name resolves to, if it is one, the receiver and arguments, and the default values that stand
    for omitted arguments. -/
inductive Expr where
  | operation (operands : List Expr) (resolves : List ℕ)
  | interpolatedString (parts : List Expr)
  | call (target : Option ℕ) (args omitted : List Expr)
  | functionValue (target : ℕ)
  | functionExpr (returnTypeExplicit : Bool) (body : List Stmt)
  | ifExpr (condition : Expr) (thenBlock elseBlock : List Stmt)
  | blockExpr (block : List Stmt)
  | matchExpr (scrutinee : Expr) (bodies : List Expr)
  | fallibleOp (op : FallibleOperator) (operand : Expr)
  | errorHandler (operand : Expr) (handler : List Stmt)
  | errorMatch (operand : Expr) (bodies : List Expr)
  | exit (kind : Exit) (value : Expr)

/-- Statements. The default values of a declaration are those that `validate_function_defaults`
    walks: an instance of a generic function has none there. -/
inductive Stmt where
  | variableDecl (initializer : Expr)
  | assignment (target value : Expr)
  | update (target : Expr)
  | expression (expr : Expr)
  | exit (kind : Exit) (value : Expr)
  | forCondition (condition : Expr) (body : List Stmt)
  | forIn (iterated : List Expr) (body : List Stmt)
  | tryCall (operand : Expr) (successBlock errorBlock : List Stmt)
  | defer (body : List Stmt)
  | spawn (returnTypeExplicit : Bool) (body : List Stmt)
  | function (head : FunctionHead) (defaults : List Expr) (body : List Stmt)
  | other

end

structure FunctionDecl where
  head : FunctionHead
  defaults : List Expr
  body : List Stmt

abbrev Program := List Stmt

def Stmt.function? : Stmt → Option FunctionDecl
  | .function head defaults body => some ⟨head, defaults, body⟩
  | _ => none

/-- The functions and methods declared at the top. -/
def Program.decls (p : Program) : List FunctionDecl := p.filterMap Stmt.function?

def Program.top (p : Program) : List ℕ := p.decls.map (fun d => d.head.key)

mutual

def markDirectFallible : Expr → Bool
  | .operation operands _ => markDirectFallibleAny operands
  | .interpolatedString _ => false
  | .call _ args _ => markDirectFallibleAny args
  | .functionValue _ => false
  | .functionExpr _ _ => false
  | .ifExpr condition thenBlock elseBlock =>
      markDirectFallible condition || markDirectFallibleBlock thenBlock ||
        markDirectFallibleBlock elseBlock
  | .blockExpr block => markDirectFallibleBlock block
  | .matchExpr scrutinee bodies =>
      markDirectFallible scrutinee || markDirectFallibleAny bodies
  | .fallibleOp .propagate _ => true
  | .fallibleOp .unwrap operand => markDirectFallible operand
  | .errorHandler _ handler => markDirectFallibleBlock handler
  | .errorMatch _ bodies => markDirectFallibleAny bodies
  | .exit .err _ => true
  | .exit .ret value => markDirectFallible value

def markDirectFallibleAny : List Expr → Bool
  | [] => false
  | e :: es => markDirectFallible e || markDirectFallibleAny es

def markDirectFallibleStmt : Stmt → Bool
  | .variableDecl initializer => markDirectFallible initializer
  | .assignment target value => markDirectFallible target || markDirectFallible value
  | .update target => markDirectFallible target
  | .expression expr => markDirectFallible expr
  | .exit .err _ => true
  | .exit .ret value => markDirectFallible value
  | .forCondition _ body => markDirectFallibleBlock body
  | .forIn _ body => markDirectFallibleBlock body
  | .tryCall _ successBlock errorBlock =>
      markDirectFallibleBlock successBlock || markDirectFallibleBlock errorBlock
  | .defer body => markDirectFallibleBlock body
  | .spawn _ _ => false
  | .function _ _ body => markDirectFallibleBlock body
  | .other => false

def markDirectFallibleBlock : List Stmt → Bool
  | [] => false
  | s :: rest => markDirectFallibleStmt s || markDirectFallibleBlock rest

end

/-- The marks of the two passes, the functions whose return types are inferred, and
    `resolving_returns`. -/
structure State where
  premarked : List ℕ
  walked : List ℕ
  resolved : List ℕ
  resolving : List ℕ

inductive Callable where
  | none
  | expression
  | function (key : ℕ)

/-- `current_callable`, `fallible_op_depth` and `defer_depth`. `again` is set where the code has
    been walked before, so that the calls in it have their omitted arguments filled in. -/
structure Context where
  callable : Callable
  depth : ℕ
  deferDepth : ℕ
  again : Bool

inductive Failure where
  | unhandledCall (key : ℕ)
  | fallibleValue (key : ℕ)
  | notFallible
  | errInDefer
  | errOutsideFunction
  | errInFunctionExpr
  | unknownFunction (key : ℕ)
  | inferenceCycle (key : ℕ)
  | markerWithoutBody (key : ℕ)
  | depthExhausted

abbrev Walk := State → Except Failure State

def pass : Walk := fun s => .ok s

def andThen (x y : Walk) : Walk := fun s =>
  match x s with
  | .ok s' => y s'
  | .error failure => .error failure

def failIf (condition : State → Bool) (failure : Failure) : Walk := fun s =>
  if condition s then .error failure else .ok s

/-- The functions declared at the top, and `resolve_function_return`. -/
structure Env where
  top : List ℕ
  resolve : ℕ → Context → Walk

/-- The attribute `fallible` of the declaration that `function_decls` has for a call. -/
def flagged (top : List ℕ) (s : State) (f : ℕ) : Bool :=
  top.contains f && (s.premarked.contains f || s.walked.contains f)

def markCurrentFallible (c : Context) : Walk := fun s =>
  match c.callable with
  | .none => .error .errOutsideFunction
  | .expression => .error .errInFunctionExpr
  | .function f => .ok { s with walked := f :: s.walked }

def failInDefer (c : Context) : Walk := failIf (fun _ => 0 < c.deferDepth) .errInDefer

section Walks
variable (env : Env)

/-- A function declared in a body has no entry in `function_decls`; its return type is known. -/
def resolveTarget (c : Context) (f : ℕ) : Walk :=
  if env.top.contains f then env.resolve f c else pass

def resolveTargets (c : Context) : List ℕ → Walk
  | [] => pass
  | f :: fs => andThen (resolveTarget env c f) (resolveTargets c fs)

def resolveDeclared (c : Context) (f : ℕ) : Walk :=
  if env.top.contains f then env.resolve f c else fun _ => .error (.unknownFunction f)

def checkCall (c : Context) : Option ℕ → Walk
  | none => pass
  | some f => failIf (fun s => flagged env.top s f && c.depth == 0) (.unhandledCall f)

/-- The attribute `fallible` of a node that has been walked. -/
def isFallible (s : State) : Expr → Bool
  | .call (some f) _ _ => flagged env.top s f
  | _ => false

def checkOperand (operand : Expr) : Walk := failIf (fun s => !isFallible env s operand) .notFallible

end Walks

namespace Context

def outsideFallibleOp (c : Context) : Context := { c with depth := 0 }

def insideFallibleOp (c : Context) : Context := { c with depth := c.depth + 1 }

/-- Omitted arguments stand with the others once they are filled in. -/
def forOmitted (c : Context) : Context := if c.again then c.outsideFallibleOp else c

def inFunctionExpr (c : Context) : Context := { c with callable := .expression }

def inFunction (c : Context) (f : ℕ) : Context := { c with callable := .function f }

def inDefer (c : Context) : Context := { c with deferDepth := c.deferDepth + 1 }

def walkedBefore (c : Context) (before : Bool) : Context := { c with again := c.again || before }

end Context

mutual

def walkExpr (env : Env) (c : Context) : Expr → Walk
  | .operation operands resolves =>
      andThen (walkExprs env c operands) (resolveTargets env c resolves)
  | .interpolatedString parts => walkExprs env c parts
  | .call target args omitted =>
      andThen (walkExprs env c.outsideFallibleOp args)
        (andThen (resolveTargets env c target.toList)
          (andThen (walkExprs env c.forOmitted omitted) (checkCall env c target)))
  | .functionValue f =>
      andThen (resolveDeclared env c f) (failIf (fun s => flagged env.top s f) (.fallibleValue f))
  | .functionExpr returnTypeExplicit body =>
      andThen (if returnTypeExplicit then pass else walkStmts env c.inFunctionExpr body)
        (walkStmts env (c.inFunctionExpr.walkedBefore !returnTypeExplicit) body)
  | .ifExpr condition thenBlock elseBlock =>
      andThen (walkExpr env c condition)
        (andThen (walkStmts env c thenBlock) (walkStmts env c elseBlock))
  | .blockExpr block => walkStmts env c block
  | .matchExpr scrutinee bodies => andThen (walkExpr env c scrutinee) (walkExprs env c bodies)
  | .fallibleOp .propagate operand =>
      andThen (failInDefer c)
        (andThen (andThen (walkExpr env c.insideFallibleOp operand) (checkOperand env operand))
          (markCurrentFallible c))
  | .fallibleOp .unwrap operand =>
      andThen (walkExpr env c.insideFallibleOp operand) (checkOperand env operand)
  | .errorHandler operand handler =>
      andThen (andThen (walkExpr env c.insideFallibleOp operand) (checkOperand env operand))
        (walkStmts env c handler)
  | .errorMatch operand bodies =>
      andThen (andThen (walkExpr env c.insideFallibleOp operand) (checkOperand env operand))
        (walkExprs env c bodies)
  | .exit .err value =>
      andThen (failInDefer c) (andThen (walkExpr env c value) (markCurrentFallible c))
  | .exit .ret value => walkExpr env c value

def walkExprs (env : Env) (c : Context) : List Expr → Walk
  | [] => pass
  | e :: es => andThen (walkExpr env c e) (walkExprs env c es)

def walkStmt (env : Env) (c : Context) : Stmt → Walk
  | .variableDecl initializer => walkExpr env c initializer
  | .assignment target value => andThen (walkExpr env c target) (walkExpr env c value)
  | .update target => walkExpr env c target
  | .expression expr => walkExpr env c expr
  | .exit .err value =>
      andThen (failInDefer c) (andThen (walkExpr env c value) (markCurrentFallible c))
  | .exit .ret value => walkExpr env c value
  | .forCondition condition body => andThen (walkExpr env c condition) (walkStmts env c body)
  | .forIn iterated body => andThen (walkExprs env c iterated) (walkStmts env c body)
  | .tryCall operand successBlock errorBlock =>
      andThen (andThen (walkExpr env c.insideFallibleOp operand) (checkOperand env operand))
        (andThen (walkStmts env c successBlock) (walkStmts env c errorBlock))
  | .defer body => walkStmts env c.inDefer body
  | .spawn returnTypeExplicit body =>
      andThen (if returnTypeExplicit then pass else walkStmts env c.inFunctionExpr body)
        (walkStmts env (c.inFunctionExpr.walkedBefore !returnTypeExplicit) body)
  | .function head defaults body =>
      andThen (if head.returnTypeExplicit then pass else resolveDeclared env c head.key)
        (andThen (walkExprs env ((c.inFunction head.key).walkedBefore true) defaults)
          (walkStmts env ((c.inFunction head.key).walkedBefore !head.returnTypeExplicit) body))
  | .other => pass

def walkStmts (env : Env) (c : Context) : List Stmt → Walk
  | [] => pass
  | s :: rest => andThen (walkStmt env c s) (walkStmts env c rest)

end

/-- `infer_return_from_body`: the counters of the caller stay as they are. -/
def inferReturnFromBody (env : Env) (c : Context) (d : FunctionDecl) : Walk :=
  let inner := { c.inFunction d.head.key with again := false }
  andThen (walkExprs env (inner.walkedBefore true) d.defaults) (walkStmts env inner d.body)

/-- `resolve_function_return` and `resolve_method_return`, to a bounded depth of nested calls. -/
def resolveReturn (p : Program) : ℕ → ℕ → Context → Walk
  | 0, _, _ => fun _ => .error .depthExhausted
  | n + 1, f, c => fun s =>
    match p.decls.find? (fun d => d.head.key == f) with
    | none => .error (.unknownFunction f)
    | some d =>
        if d.head.returnTypeExplicit || s.resolved.contains f then .ok s
        else if s.resolving.contains f then .error (.inferenceCycle f)
        else
          match inferReturnFromBody ⟨p.top, resolveReturn p n⟩ c d
              { s with resolving := f :: s.resolving } with
          | .error failure => .error failure
          | .ok s' => .ok { s' with resolving := s.resolving, resolved := f :: s'.resolved }

/-- The functions under inference are distinct, so this depth is never exhausted. -/
def Program.env (p : Program) : Env := ⟨p.top, resolveReturn p (p.top.length + 1)⟩

def outermost : Context := ⟨.none, 0, 0, false⟩

def validateFunctionDefaults (p : Program) : List FunctionDecl → Walk
  | [] => pass
  | d :: ds =>
      andThen (walkExprs p.env outermost d.defaults) (validateFunctionDefaults p ds)

def markDirect (p : Program) (s : State) : State :=
  { s with
    premarked := (p.decls.filter (fun d => markDirectFallibleBlock d.body)).map (·.head.key) }

def checkMarkers : List FunctionDecl → Walk
  | [] => pass
  | d :: ds =>
      andThen (failIf (fun s => d.head.fallibleExplicit && !s.premarked.contains d.head.key)
        (.markerWithoutBody d.head.key)) (checkMarkers ds)

def markedPasses (p : Program) : Walk :=
  andThen (checkMarkers p.decls)
    (andThen (resolveTargets p.env outermost p.top) (walkStmts p.env outermost p))

def initial : State := ⟨[], [], [], []⟩

/-- What `infer_types` does from its first walk on, with the state it accepts a program in. -/
def inferTypes (p : Program) : Except Failure State :=
  andThen (validateFunctionDefaults p p.decls) (fun s => markedPasses p (markDirect p s)) initial

end NewClLang.FallibleCalls
