import NewClLang.TypeRefs
import NewClLang.Lockstep

set_option autoImplicit false

/-!
# Inference of return types

`infer_types`, as far as the walk of a body depends on where it is started from: the scope stack,
the narrowed variables, the depths of loops, deferred blocks and fallible operators, the function
expressions around it, the marks of fallible functions and the return types inferred so far. All
other checks are a parameter. A function whose return type is asked for is walked on top of what the
walk that asks for it stands in.
-/
namespace NewClLang.ReturnInference
open TypeRefs StatefulRuns Lockstep

structure Symbol where
  name : String
  type : TypeRef
  immutable : Bool
  deriving DecidableEq

/-- What a walk stands in, innermost first: `_scopes`, `narrowed_read_stack`, `break_depth`,
    `defer_depth`, the levels in `closure_stack` and `fallible_op_depth`. -/
structure Context where
  scopes : List (List Symbol)
  narrowed : List (String × TypeRef)
  breakDepth : ℕ
  deferDepth : ℕ
  closures : List ℕ
  fallibleOpDepth : ℕ

inductive Callable where
  | none
  | expression
  | function (key : ℕ)
  deriving DecidableEq

inductive FallibleOp where
  | propagate
  | unwrap
  deriving DecidableEq

/-- A function declaration without its body: the return type that is written, whether it has the
    marker `err`, what `mark_direct_fallible` answers for it, and whether it has parameters whose
    types come from their default values. -/
structure FunctionHead where
  node : ℕ
  key : ℕ
  returnType : Option TypeRef
  errMarker : Bool
  directFallible : Bool
  inferredParams : Bool

mutual

/-- Expressions. Those whose case looks at their operands only are operations. -/
inductive Expr where
  | identifier (node : ℕ) (name : String)
  | operation (node : ℕ) (operands : List Expr)
  | notEqual (node : ℕ) (left right : Expr)
  | call (node : ℕ) (args omitted : List Expr)
  | genericFunctionValue (node : ℕ) (key : ℕ)
  | ret (node : ℕ) (value : Expr)
  | retVoid (node : ℕ)
  | err (node : ℕ) (value : Expr)
  | fallibleOp (node : ℕ) (op : FallibleOp) (operand : Expr)
  | errorHandler (node : ℕ) (operand : Expr) (error : String) (handler : List Stmt)
  | errorMatch (node : ℕ) (operand : Expr) (error : String) (arms : List Expr)
  | functionExpr (node : ℕ) (returnType : Option TypeRef) (body : List Stmt)
  | ifExpr (node : ℕ) (condition : Expr) (thenBlock elseBlock : List Stmt)
  | blockExpr (node : ℕ) (block : List Stmt)

/-- Statements. The parameters of a function come first in its body, each with its default value if
    it has one. The forms of `for` are loops over the values of some expressions. -/
inductive Stmt where
  | param (node : ℕ) (name : String) (default : List Expr)
  | variableDecl (node : ℕ) (name : String) (immutable : Bool) (annotated : Option TypeRef)
      (initializer : Expr)
  | assignment (node : ℕ) (target value : Expr)
  | update (node : ℕ) (target : Expr)
  | expression (node : ℕ) (expr : Expr)
  | loop (node : ℕ) (heads : List Expr) (names : List String) (body : List Stmt)
  | tryCall (node : ℕ) (operand : Expr) (success : List String) (successBlock : List Stmt)
      (error : List String) (errorBlock : List Stmt)
  | defer (body : List Stmt)
  | breakLoop (node : ℕ)
  | function (head : FunctionHead) (defaults body : List Stmt)
  | other (node : ℕ)

end

structure FunctionDecl where
  head : FunctionHead
  defaults : List Stmt
  body : List Stmt

abbrev Program := List Stmt

def Stmt.function? : Stmt → Option FunctionDecl
  | .function head defaults body => some ⟨head, defaults, body⟩
  | _ => none

/-- What is no declaration is a statement that is executed, or a variable. -/
def Stmt.isStatement : Stmt → Bool
  | .function _ _ _ => false
  | .other _ => false
  | _ => true

namespace Program

def decls (p : Program) : List FunctionDecl := p.filterMap Stmt.function?

def top (p : Program) : List ℕ := p.decls.map (fun d => d.head.key)

def decl? (p : Program) (f : ℕ) : Option FunctionDecl := p.decls.find? (fun d => d.head.key == f)

def directFallible (p : Program) (f : ℕ) : Bool :=
  p.decls.any (fun d => d.head.key == f && d.head.directFallible)

def inferredParams (p : Program) (f : ℕ) : Bool :=
  p.decls.any (fun d => d.head.key == f && d.head.inferredParams)

end Program

/-- What `infer_return_from_body` and the case of a function declaration save and restore: the part
    of the context that the function itself has made, `current_return_type` (none while it is
    inferred), `inferred_return_values`, `inferred_void_return` and `current_callable`. With them,
    the types that the walk of the function has set. -/
structure Frame where
  own : Context
  returnType : Option TypeRef
  returned : List TypeRef
  returnedVoid : Bool
  callable : Callable
  types : List (ℕ × TypeRef)

/-- The return types known, and `resolving_returns`. -/
structure Memo where
  returns : List (ℕ × TypeRef)
  resolving : List ℕ

/-- The frame of the function that is walked, the context under it, the return types, the functions
    with the attribute `fallible`, those whose parameters have their types, the calls that have
    their omitted arguments, and whether the walk has been told something else than it is told at
    the top level. -/
structure State where
  frame : Frame
  outer : Context
  memo : Memo
  fallible : List ℕ
  validated : List ℕ
  completed : List ℕ
  disturbed : Bool

inductive Failure where
  | rejected (node : ℕ)
  | alreadyDeclared (name : String)
  | unknownFunction (key : ℕ)
  | inferenceCycle (key : ℕ)
  | mixedReturns (node : ℕ)
  | unhandledCall (key : ℕ)
  | fallibleValue (key : ℕ)
  | missingRaise (key : ℕ)
  | depthExhausted

abbrev Walk (α : Type) := EStateM Failure State α

/-- What a check of a node sees: the types of its operands, the variables that hide the names it
    looks up, the return types it asks for, whether the parameters of those functions have types,
    and the function around it. -/
structure View where
  operands : List TypeRef
  symbols : List (Option TypeRef)
  returns : List TypeRef
  ready : Bool
  callable : Callable

/-- The other checks. -/
structure Rules where
  names : ℕ → List TypeRef → List String
  resolves : ℕ → List TypeRef → List ℕ
  callee : ℕ → List TypeRef → Option ℕ
  check : ℕ → View → Option TypeRef
  binds : ℕ → List TypeRef → Option (List TypeRef)
  tailType : ℕ → TypeRef → Option TypeRef
  function : String → Option ℕ
  method : String → Option ℕ
  typeName : String → Option TypeRef

/-- Where a walk gets what it does not find in its own function. -/
structure Env where
  rules : Rules
  directFallible : ℕ → Bool
  context : State → Context
  flag : State → ℕ → Bool
  ready : State → ℕ → Bool
  resolve : ℕ → Walk TypeRef
  peek : ℕ → Walk TypeRef

def voidType : TypeRef := .named "void"

def neverType : TypeRef := .named "__never"

def nilType : TypeRef := .named "__nil"

def errorType : TypeRef := .named "error"

def nonnullable : TypeRef → Option TypeRef
  | .pointer inner true => some (.pointer inner false)
  | _ => none

/-- `lookup` of the symbol table, with the number of scopes from the one it finds the name in. -/
def lookup (name : String) : List (List Symbol) → Option (Symbol × ℕ)
  | [] => none
  | scope :: rest =>
      match scope.find? (fun sym => sym.name == name) with
      | some sym => some (sym, rest.length + 1)
      | none => lookup name rest

/-- What a walk finds for the name of an identifier. -/
structure Sight where
  type : Option TypeRef
  immutable : Bool
  narrowed : Option TypeRef
  captured : Bool
  deriving DecidableEq

namespace Context

def empty : Context := ⟨[], [], 0, 0, [], 0⟩

/-- The context of a walk that is started on top of another. -/
def onTopOf (c outer : Context) : Context where
  scopes := c.scopes ++ outer.scopes
  narrowed := c.narrowed ++ outer.narrowed
  breakDepth := c.breakDepth + outer.breakDepth
  deferDepth := c.deferDepth + outer.deferDepth
  closures := c.closures.map (fun level => level + outer.scopes.length) ++ outer.closures
  fallibleOpDepth := c.fallibleOpDepth + outer.fallibleOpDepth

def variableType (c : Context) (name : String) : Option TypeRef :=
  (lookup name c.scopes).map (fun found => found.1.type)

def sight (c : Context) (name : String) : Sight where
  type := c.variableType name
  immutable := (lookup name c.scopes).any (fun found => found.1.immutable)
  narrowed := c.narrowed.lookup name
  captured :=
    match lookup name c.scopes, c.closures with
    | some found, level :: _ => decide (found.2 < level)
    | _, _ => false

end Context

section Steps
variable {α : Type}

/-- A step on the frame of the function that is walked. -/
def onFrame (step : Frame → Except Failure (α × Frame)) : Walk α := fun s =>
  match step s.frame with
  | .ok (a, frame) => .ok a { s with frame := frame }
  | .error failure => .error failure s

def readFrame (read : Frame → α) : Walk α := onFrame (fun f => .ok (read f, f))

def setOwn (change : Context → Context) : Walk Unit :=
  onFrame (fun f => .ok ((), { f with own := change f.own }))

def inScope (x : Walk α) : Walk α := do
  setOwn (fun c => { c with scopes := [] :: c.scopes })
  let a ← x
  setOwn (fun c => { c with scopes := c.scopes.tail })
  pure a

def inLoop (x : Walk α) : Walk α := do
  setOwn (fun c => { c with breakDepth := c.breakDepth + 1 })
  let a ← x
  setOwn (fun c => { c with breakDepth := c.breakDepth - 1 })
  pure a

def inDefer (x : Walk α) : Walk α := do
  setOwn (fun c => { c with deferDepth := c.deferDepth + 1 })
  let a ← x
  setOwn (fun c => { c with deferDepth := c.deferDepth - 1 })
  pure a

def inFallibleOp (x : Walk α) : Walk α := do
  setOwn (fun c => { c with fallibleOpDepth := c.fallibleOpDepth + 1 })
  let a ← x
  setOwn (fun c => { c with fallibleOpDepth := c.fallibleOpDepth - 1 })
  pure a

/-- The level of a function expression is that of the scope of its parameters. -/
def inClosure (x : Walk α) : Walk α := do
  setOwn (fun c => { c with closures := c.scopes.length :: c.closures })
  let a ← x
  setOwn (fun c => { c with closures := c.closures.tail })
  pure a

def narrowedTo (narrowing : Option (String × TypeRef)) (x : Walk α) : Walk α :=
  match narrowing with
  | none => x
  | some e => do
      setOwn (fun c => { c with narrowed := e :: c.narrowed })
      let a ← x
      setOwn (fun c => { c with narrowed := c.narrowed.tail })
      pure a

def declare (name : String) (type : TypeRef) (immutable : Bool) : Walk Unit :=
  onFrame (fun f =>
    match f.own.scopes with
    | [] => .ok ((), f)
    | scope :: rest =>
        if scope.any (fun sym => sym.name == name) then .error (.alreadyDeclared name)
        else .ok ((), { f with
          own := { f.own with scopes := (⟨name, type, immutable⟩ :: scope) :: rest } }))

def declareAll : List String → List TypeRef → Walk Unit
  | name :: names, type :: types => do
      declare name type false
      declareAll names types
  | _, _ => pure ()

def setType (node : ℕ) (type : TypeRef) : Walk Unit :=
  onFrame (fun f => .ok ((), { f with types := (node, type) :: f.types }))

def addReturned (type : TypeRef) : Walk Unit :=
  onFrame (fun f => .ok ((), { f with returned := f.returned ++ [type] }))

def addReturnedVoid : Walk Unit := onFrame (fun f => .ok ((), { f with returnedVoid := true }))

end Steps

section Settings
variable {α : Type}

def State.setDepths (s : State) (own outer : ℕ) : State :=
  { s with
    frame := { s.frame with own := { s.frame.own with fallibleOpDepth := own } }
    outer := { s.outer with fallibleOpDepth := outer } }

def State.depth (s : State) : ℕ := s.frame.own.fallibleOpDepth + s.outer.fallibleOpDepth

def restoreDepths (s s' : State) : State :=
  s'.setDepths s.frame.own.fallibleOpDepth s.outer.fallibleOpDepth

/-- `walk_expr_outside_fallible_op` -/
def outsideFallibleOp (x : Walk α) : Walk α := within (fun s => s.setDepths 0 0) restoreDepths x

/-- `apply_default_args` walks the omitted arguments at the depth of the call and adds them to the
    others, so that a later walk of the call takes them outside of fallible operators. The depth is
    counted here with that of the context, where no other walk has it. -/
def forOmitted (node : ℕ) (x : Walk α) : Walk α :=
  within
    (fun s =>
      if s.completed.contains node then s.setDepths 0 0
      else { s.setDepths 0 s.depth with completed := node :: s.completed })
    restoreDepths x

/-- A function expression or a function declared in a body, in the context of that body. -/
def asCallable (callable : Callable) (returnType : Option TypeRef) (x : Walk α) : Walk α :=
  within
    (fun s => { s with
      frame := { s.frame with
        returnType := returnType
        returned := []
        returnedVoid := false
        callable := callable } })
    (fun s s' => { s' with
      frame := { s'.frame with
        returnType := s.frame.returnType
        returned := s.frame.returned
        returnedVoid := s.frame.returnedVoid
        callable := s.frame.callable } })
    x

def enterTop (callable : Callable) (returnType : Option TypeRef) (s : State) : State :=
  { s with
    frame := ⟨Context.empty, returnType, [], false, callable, []⟩
    outer := s.frame.own.onTopOf s.outer }

def leaveTop (s s' : State) : State :=
  { s' with
    frame := s.frame
    outer := s.outer }

/-- A top-level function, on top of the walk that it is walked in. -/
def onTop (callable : Callable) (returnType : Option TypeRef) (x : Walk α) : Walk α :=
  within (enterTop callable returnType) leaveTop x

end Settings

section Checks
variable (env : Env)

/-- A question, with the answer that it has at the top level. -/
def ask {β : Type} [DecidableEq β] (answer : State → β) (own : Frame → β) : Walk β := fun s =>
  .ok (answer s) { s with disturbed := s.disturbed || decide (answer s ≠ own s.frame) }

/-- A question to the context, which a function answers for itself. -/
def consult {β : Type} [DecidableEq β] (question : Context → β) : Walk β :=
  ask (fun s => question (env.context s)) (fun f => question f.own)

/-- The attribute `fallible` of a function. -/
def flagged (f : ℕ) : Walk Bool := ask (fun s => env.flag s f) (fun _ => env.directFallible f)

def allReady (fs : List ℕ) : Walk Bool := ask (fun s => fs.all (env.ready s)) (fun _ => true)

def markCurrentFallible (node : ℕ) : Walk Unit := fun s =>
  match s.frame.callable with
  | .function f => .ok () { s with fallible := f :: s.fallible }
  | _ => .error (.rejected node) s

def resolveAll : List ℕ → Walk (List TypeRef)
  | [] => pure []
  | f :: fs => do
      let type ← env.resolve f
      let types ← resolveAll fs
      pure (type :: types)

def check (node : ℕ) (view : View) : Walk TypeRef :=
  match env.rules.check node view with
  | none => throw (.rejected node)
  | some type => do
      setType node type
      pure type

/-- The rest of a node's case, after its operands. -/
def finish (node : ℕ) (types : List TypeRef) : Walk TypeRef := do
  let symbols ← consult env (fun c => (env.rules.names node types).map c.variableType)
  let returns ← resolveAll env (env.rules.resolves node types)
  let ready ← allReady env (env.rules.resolves node types)
  let callable ← readFrame Frame.callable
  check env node ⟨types, symbols, returns, ready, callable⟩

def bindTypes (node : ℕ) (types : List TypeRef) : Walk (List TypeRef) := do
  let _ ← finish env node types
  match env.rules.binds node types with
  | none => throw (.rejected node)
  | some bound => pure bound

def requireAll (node : ℕ) (first : TypeRef) : List TypeRef → Walk Unit
  | [] => pure ()
  | type :: types => do
      let _ ← finish env node [first, type]
      requireAll node first types

/-- The end of `infer_return_from_body`: one type for all values that are returned. -/
def mergeReturns (node : ℕ) (tail : Option TypeRef) : Walk TypeRef := do
  let returned ← readFrame Frame.returned
  let void ← readFrame Frame.returnedVoid
  match (returned ++ tail.toList).filter (fun type => type ≠ neverType) with
  | [] => pure voidType
  | first :: rest =>
      if void then throw (.mixedReturns node)
      else do
        requireAll env node first rest
        pure first

def noteReturn (node : ℕ) (type : TypeRef) : Walk Unit := do
  let expected ← readFrame Frame.returnType
  match expected with
  | none => addReturned type
  | some expected => do
      let _ ← finish env node [type, expected]

def noteReturnVoid (node : ℕ) : Walk Unit := do
  let expected ← readFrame Frame.returnType
  match expected with
  | none => addReturnedVoid
  | some expected => if expected = voidType then pure () else throw (.rejected node)

/-- A fallible call has to stand under a fallible operator. -/
def checkCall (callee : Option ℕ) : Walk Bool :=
  match callee with
  | none => pure false
  | some f => do
      let fallible ← flagged env f
      if fallible then do
        let handled ← consult env (fun c => decide (0 < c.fallibleOpDepth))
        if handled then pure true else throw (.unhandledCall f)
      else pure false

def failInDefer (node : ℕ) : Walk Unit := do
  let deferred ← consult env (fun c => decide (0 < c.deferDepth))
  if deferred then throw (.rejected node) else pure ()

end Checks

/-- A walked expression: its type, its name if it is an identifier, its attributes `fallible` and
    `is_capture`, and what `maybe_narrow_condition` makes of it. -/
structure Typed where
  type : TypeRef
  name? : Option String
  fallible : Bool
  captured : Bool
  narrowing : Option (String × TypeRef)

def Typed.plain (type : TypeRef) : Typed := ⟨type, none, false, false, none⟩

def maybeNarrowCondition (left right : Typed) : Option (String × TypeRef) :=
  let compared :=
    if left.name?.isSome && right.type == nilType then some left
    else if right.name?.isSome && left.type == nilType then some right
    else none
  match compared with
  | none => none
  | some var =>
      match var.name?, nonnullable var.type with
      | some name, some type => some (name, type)
      | _, _ => none

def requireFallible (node : ℕ) (t : Typed) : Walk Unit :=
  if t.fallible then pure () else throw (.rejected node)

def ifPropagating (op : FallibleOp) (x : Walk Unit) : Walk Unit :=
  match op with
  | .propagate => x
  | .unwrap => pure ()

section Names
variable (env : Env)

def functionValue (node : ℕ) (f : ℕ) : Walk Typed := do
  let returned ← env.resolve f
  let fallible ← flagged env f
  if fallible then throw (.fallibleValue f)
  else do
    let callable ← readFrame Frame.callable
    let type ← check env node ⟨[], [], [returned], true, callable⟩
    pure (Typed.plain type)

def setRead (node : ℕ) (name : String) (seen : Sight) (type : TypeRef) : Walk Typed := do
  setType node (seen.narrowed.getD type)
  pure ⟨seen.narrowed.getD type, some name, false, seen.captured, none⟩

/-- A method is in the global scope as well, with the return type that it has so far. -/
def walkIdentifier (node : ℕ) (name : String) : Walk Typed := do
  let seen ← consult env (fun c => c.sight name)
  match seen.type with
  | some type => setRead node name seen type
  | none =>
      match env.rules.function name, env.rules.method name, env.rules.typeName name with
      | some f, _, _ => functionValue env node f
      | none, some f, _ => do
          let type ← env.peek f
          setRead node name seen type
      | none, none, some type => setRead node name seen type
      | none, none, none => throw (.rejected node)

def writtenOr (returnType : Option TypeRef) (infer : Walk TypeRef) : Walk TypeRef :=
  match returnType with
  | some type => pure type
  | none => infer

/-- A function declared in a body is inferred as the top-level function of its name. -/
def nestedReturnType (head : FunctionHead) : Walk TypeRef :=
  writtenOr head.returnType do
    let _ ← env.resolve head.key
    pure voidType

def returnTypeOf (head : FunctionHead) : Walk TypeRef :=
  writtenOr head.returnType (env.resolve head.key)

/-- The target of an assignment may be no constant, no narrowed variable and no capture. -/
def checkTarget (node : ℕ) (target : Typed) : Walk Unit :=
  match target.name? with
  | none => pure ()
  | some name => do
      let seen ← consult env (fun c => c.sight name)
      if seen.immutable || seen.narrowed.isSome || target.captured then throw (.rejected node)
      else pure ()

end Names

mutual

def walkExpr (env : Env) : Expr → Walk Typed
  | .identifier node name => walkIdentifier env node name
  | .operation node operands => do
      let types ← walkExprs env operands
      let type ← finish env node types
      pure (Typed.plain type)
  | .notEqual node left right => do
      let l ← walkExpr env left
      let r ← walkExpr env right
      let type ← finish env node [l.type, r.type]
      pure ⟨type, none, false, false, maybeNarrowCondition l r⟩
  | .call node args omitted => do
      let types ← walkArgs env args
      let _ ← resolveAll env (env.rules.resolves node types)
      let defaults ← forOmitted node (walkExprs env omitted)
      let type ← finish env node (types ++ defaults)
      let fallible ← checkCall env (env.rules.callee node types)
      pure ⟨type, none, fallible, false, none⟩
  | .genericFunctionValue node key => functionValue env node key
  | .ret node value => do
      let t ← walkExpr env value
      noteReturn env node t.type
      setType node neverType
      pure (Typed.plain neverType)
  | .retVoid node => do
      noteReturnVoid node
      setType node neverType
      pure (Typed.plain neverType)
  | .err node value => do
      failInDefer env node
      let t ← walkExpr env value
      let _ ← finish env node [t.type]
      markCurrentFallible node
      setType node neverType
      pure (Typed.plain neverType)
  | .fallibleOp node op operand => do
      ifPropagating op (failInDefer env node)
      let t ← inFallibleOp (walkExpr env operand)
      requireFallible node t
      ifPropagating op (markCurrentFallible node)
      setType node t.type
      pure (Typed.plain t.type)
  | .errorHandler node operand error handler => do
      let t ← inFallibleOp (walkExpr env operand)
      requireFallible node t
      let tail ← inScope do
        declare error errorType false
        inScope (walkStmts env handler)
      let type ← finish env node (t.type :: tail.toList)
      pure (Typed.plain type)
  | .errorMatch node operand error arms => do
      let t ← inFallibleOp (walkExpr env operand)
      requireFallible node t
      let types ← inScope do
        declare error errorType false
        walkExprs env arms
      let type ← finish env node (t.type :: types)
      pure (Typed.plain type)
  | .functionExpr node returnType body => do
      let returned ← writtenOr returnType (asCallable .expression none do
        let tail ← inScope (walkStmts env body)
        mergeReturns env node tail)
      let type ← asCallable .expression (some returned) do
        let tail ← inScope (inClosure (walkStmts env body))
        finish env node (returned :: tail.toList)
      pure (Typed.plain type)
  | .ifExpr node condition thenBlock elseBlock => do
      let c ← walkExpr env condition
      let _ ← finish env node [c.type]
      let thenTail ← inScope (narrowedTo c.narrowing (walkStmts env thenBlock))
      let elseTail ← inScope (walkStmts env elseBlock)
      let type ← finish env node [thenTail.getD voidType, elseTail.getD voidType]
      pure (Typed.plain type)
  | .blockExpr node block => do
      let tail ← inScope (walkStmts env block)
      let type ← finish env node tail.toList
      pure (Typed.plain type)

def walkExprs (env : Env) : List Expr → Walk (List TypeRef)
  | [] => pure []
  | e :: es => do
      let t ← walkExpr env e
      let types ← walkExprs env es
      pure (t.type :: types)

def walkArgs (env : Env) : List Expr → Walk (List TypeRef)
  | [] => pure []
  | e :: es => do
      let t ← outsideFallibleOp (walkExpr env e)
      let types ← walkArgs env es
      pure (t.type :: types)

/-- The value is the type of the statement if it can be the value of a block. -/
def walkStmt (env : Env) : Stmt → Walk (Option TypeRef)
  | .param node name default => do
      let ts ← walkExprs env default
      let types ← bindTypes env node ts
      declareAll [name] types
      pure none
  | .variableDecl node name immutable annotated initializer => do
      let t ← walkExpr env initializer
      let _ ← finish env node [t.type]
      declare name (annotated.getD t.type) immutable
      pure none
  | .assignment node target value => do
      let t ← walkExpr env target
      let _ ← finish env node [t.type]
      checkTarget env node t
      let v ← walkExpr env value
      let _ ← finish env node [t.type, v.type]
      pure none
  | .update node target => do
      let t ← walkExpr env target
      let _ ← finish env node [t.type]
      checkTarget env node t
      pure none
  | .expression node expr => do
      let t ← walkExpr env expr
      pure (env.rules.tailType node t.type)
  | .loop node heads names body => do
      let ts ← walkExprs env heads
      let types ← bindTypes env node ts
      let _ ← inScope do
        declareAll names types
        inLoop (walkStmts env body)
      pure none
  | .tryCall node operand success successBlock error errorBlock => do
      let t ← inFallibleOp (walkExpr env operand)
      requireFallible node t
      let types ← bindTypes env node [t.type]
      let _ ← inScope do
        declareAll success types
        walkStmts env successBlock
      let _ ← inScope do
        declareAll error [errorType]
        walkStmts env errorBlock
      pure none
  | .defer body => do
      let _ ← inDefer (walkStmts env body)
      pure none
  | .breakLoop node => do
      let inside ← consult env (fun c => decide (0 < c.breakDepth))
      if inside then pure none else throw (.rejected node)
  | .function head _ body => do
      let returned ← nestedReturnType env head
      asCallable (.function head.key) (some returned) do
        let tail ← inScope (walkStmts env body)
        let _ ← finish env head.node (returned :: tail.toList)
      pure none
  | .other node => do
      let _ ← finish env node []
      pure none

def walkStmts (env : Env) : List Stmt → Walk (Option TypeRef)
  | [] => pure none
  | [s] => walkStmt env s
  | s :: next :: rest => do
      let _ ← walkStmt env s
      walkStmts env (next :: rest)

end

/-- `infer_return_from_body` of a declaration -/
def inferReturnFromBody (env : Env) (d : FunctionDecl) : Walk TypeRef :=
  onTop (.function d.head.key) none do
    let tail ← inScope (walkStmts env d.body)
    mergeReturns env d.head.node tail

def startInference (f : ℕ) : Walk Unit := fun s =>
  .ok () { s with memo := { s.memo with resolving := f :: s.memo.resolving } }

def endInference (f : ℕ) (type : TypeRef) (resolving : List ℕ) : Walk Unit := fun s =>
  .ok () { s with memo := ⟨(f, type) :: s.memo.returns, resolving⟩ }

/-- The return type of a function so far. -/
def Program.known (p : Program) (s : State) (f : ℕ) : Option TypeRef :=
  ((p.decl? f).bind (fun d => d.head.returnType)).or (s.memo.returns.lookup f)

def peekReturn (p : Program) (f : ℕ) : Walk TypeRef := fun s =>
  match p.known s f with
  | some type => .ok type s
  | none => .ok voidType { s with disturbed := true }

/-- The setting of a walk on top of others. -/
def leakyEnv (rules : Rules) (p : Program) (resolve : ℕ → Walk TypeRef) : Env where
  rules := rules
  directFallible := p.directFallible
  context s := s.frame.own.onTopOf s.outer
  flag s f := s.fallible.contains f
  ready s f := !p.inferredParams f || s.validated.contains f
  resolve := resolve
  peek := peekReturn p

/-- `resolve_function_return` and `resolve_method_return`, to a bounded depth of nested calls. -/
def resolveReturn (rules : Rules) (p : Program) : ℕ → ℕ → Walk TypeRef
  | 0, _ => throw .depthExhausted
  | n + 1, f =>
      match p.decl? f with
      | none => throw (.unknownFunction f)
      | some d => do
          let s ← get
          match p.known s f with
          | some type => pure type
          | none =>
              if s.memo.resolving.contains f then throw (.inferenceCycle f)
              else do
                startInference f
                let type ← inferReturnFromBody (leakyEnv rules p (resolveReturn rules p n)) d
                endInference f type s.memo.resolving
                pure type

/-- The functions under inference are distinct, so this depth is never exhausted. -/
def Program.env (rules : Rules) (p : Program) : Env :=
  leakyEnv rules p (resolveReturn rules p (p.top.length + 1))

def validate (f : ℕ) : Walk Unit := fun s => .ok () { s with validated := f :: s.validated }

def validateFunctionDefaults (env : Env) : List FunctionDecl → Walk Unit
  | [] => pure ()
  | d :: ds => do
      let _ ← onTop .none (some voidType) (inScope (walkStmts env d.defaults))
      validate d.head.key
      validateFunctionDefaults env ds

/-- The functions that `mark_direct_fallible` finds are marked before the bodies are walked. -/
def markDirect (p : Program) : Walk Unit := fun s =>
  .ok () { s with fallible := p.top.filter p.directFallible ++ s.fallible }

def checkMarker (env : Env) (head : FunctionHead) : Walk Unit :=
  if head.errMarker then do
    let fallible ← flagged env head.key
    if fallible then pure () else throw (.missingRaise head.key)
  else pure ()

def checkMarkers (env : Env) : List FunctionDecl → Walk Unit
  | [] => pure ()
  | d :: ds => do
      checkMarker env d.head
      checkMarkers env ds

/-- The check of a top-level function, with the types that it sets. -/
def walkFunction (env : Env) (head : FunctionHead) (body : List Stmt) :
    Walk (List (ℕ × TypeRef)) := do
  let returned ← returnTypeOf env head
  onTop (.function head.key) (some returned) do
    let tail ← inScope (walkStmts env body)
    let _ ← finish env head.node (returned :: tail.toList)
    readFrame Frame.types

def walkOther (env : Env) (node : ℕ) : Walk (List (ℕ × TypeRef)) :=
  onTop .none (some voidType) do
    let _ ← finish env node []
    readFrame Frame.types

/-- The statements of a program, with the types that are set in each of its declarations. -/
def walkTop (env : Env) : Program → Walk (List (List (ℕ × TypeRef)))
  | [] => pure []
  | .function head _ body :: rest => do
      let types ← walkFunction env head body
      let more ← walkTop env rest
      pure (types :: more)
  | .other node :: rest => do
      let types ← walkOther env node
      let more ← walkTop env rest
      pure (types :: more)
  | s :: rest => do
      let _ ← walkStmt env s
      walkTop env rest

/-- The return types of the functions, and the types that the walk sets: those in each declaration,
    the last one first, and before them those in the other statements. -/
structure Inferred where
  returns : List (ℕ × TypeRef)
  types : List (List (ℕ × TypeRef))

/-- The passes of `infer_types` over the functions. -/
def passes (env : Env) (p : Program) : Walk Inferred := do
  validateFunctionDefaults env p.decls
  markDirect p
  checkMarkers env p.decls
  let returns ← resolveAll env p.top
  let types ← walkTop env p
  pure ⟨p.top.zip returns, types⟩

def topFrame : Frame := ⟨{ Context.empty with scopes := [[]] }, some voidType, [], false, .none, []⟩

def initial : State := ⟨topFrame, Context.empty, ⟨[], []⟩, [], [], [], false⟩

def inferTypes (rules : Rules) (p : Program) : Walk Inferred := passes (p.env rules) p

/-- Where `infer_types` ends, whether it accepts the program or not. -/
def outcome (rules : Rules) (p : Program) : State := finalState (inferTypes rules p) initial

/-- The types of an accepted program. -/
def inferredTypes (rules : Rules) (p : Program) : Option Inferred :=
  match inferTypes rules p initial with
  | .ok result s => some ⟨result.returns, s.frame.types :: result.types⟩
  | .error _ _ => none

end NewClLang.ReturnInference
