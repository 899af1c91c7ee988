import NewClLang.Numbering

set_option autoImplicit false

/-!
# Closures of a program

`_collect_llvm_inputs` walks a program twice, for declarations and for function expressions, and
stores the number of a function expression in its node. The emission of a body comes to other nodes
than the walk does: it skips what follows a terminator and enters what the walk has no case for.
-/
namespace NewClLang.ClosureCollection
open NewClLang.Numbering

/-- A node `FunctionExpr`: the object, the module of its `source_file`, its return type and
    parameters as `closure_symbol` prints them, and whether it returns a value. -/
structure Closure where
  node : ℕ
  owner : Option String
  signature : String
  returnsValue : Bool
  deriving DecidableEq

/-- A `FunctionDeclaration` without its body. `symbol` is its `function_symbol` and `abi` its LLVM
    type; `erasedMin` is set on an erased generic function that uses the ordering. -/
structure FunctionHead where
  name : String
  owner : Option String
  isExtern : Bool
  symbol : String
  abi : String
  returnsValue : Bool
  erasedMin : Bool
  deriving DecidableEq

mutual

/-- Expressions. The literals and names, and all that emits its operands and no control flow, are
    operations; patterns of `match` are literals and left out. -/
inductive Expr where
  | operation (operands : List Expr)
  | functionExpr (closure : Closure) (body : List Stmt)
  | ifExpr (condition : Expr) (thenBlock elseBlock : List Stmt)
  | matchExpr (scrutinee : Expr) (bodies : List Expr)
  | blockExpr (block : List Stmt)
  | errorHandler (call : Expr) (handler : List Stmt)
  | errorMatch (call : Expr) (bodies : List Expr)
  | exit (value : Expr)

/-- Statements. `exit` is `ret` or `err`; a missing value or error block is an empty one. -/
inductive Stmt where
  | variableDecl (initializer : Expr)
  | assignment (target value : Expr)
  | update (target : Expr)
  | expression (expr : Expr)
  | exit (value : Expr)
  | forCondition (condition : Expr) (body : List Stmt)
  | forIn (iterated : List Expr) (body : List Stmt)
  | tryCall (call : Expr) (successBlock errorBlock : List Stmt)
  | defer (body : List Stmt)
  | spawn (closure : Closure) (body : List Stmt)
  | breakStmt
  | function (head : FunctionHead) (body : List Stmt)
  | externBlock (functions : List FunctionHead)
  | declaration

end

structure FunctionExpr where
  closure : Closure
  body : List Stmt

structure FunctionDecl where
  head : FunctionHead
  body : List Stmt

/-- What the walk appends to its result. -/
inductive Item where
  | closure (expr : FunctionExpr)
  | function (decl : FunctionDecl)

mutual

/-- `collect_top_level` on one statement. -/
def topLevel : Stmt → List Item
  | .function head body =>
      .function ⟨head, body⟩ :: if head.isExtern then [] else topLevelAll body
  | .externBlock functions => functions.map (fun head => .function ⟨head, []⟩)
  | .forCondition _ body => topLevelAll body
  | .forIn _ body => topLevelAll body
  | .defer body => topLevelAll body
  | .spawn closure body =>
      topLevelAll body ++ .closure ⟨closure, body⟩ :: (topLevelAll body ++ closureStmts body)
  | _ => []

def topLevelAll : List Stmt → List Item
  | [] => []
  | s :: rest => topLevel s ++ topLevelAll rest

/-- `collect_closure_expr`, which has no case for error handlers and for exits. -/
def closureExpr : Expr → List Item
  | .operation operands => closureExprs operands
  | .functionExpr closure body =>
      .closure ⟨closure, body⟩ :: (topLevelAll body ++ closureStmts body)
  | .ifExpr condition thenBlock elseBlock =>
      closureExpr condition ++ closureStmts thenBlock ++ closureStmts elseBlock
  | .matchExpr scrutinee bodies => closureExpr scrutinee ++ closureExprs bodies
  | .blockExpr block => closureStmts block
  | .errorHandler _ _ => []
  | .errorMatch _ _ => []
  | .exit _ => []

def closureExprs : List Expr → List Item
  | [] => []
  | e :: rest => closureExpr e ++ closureExprs rest

/-- `collect_closure_stmt`, which has no case for `spawn`. -/
def closureStmt : Stmt → List Item
  | .variableDecl initializer => closureExpr initializer
  | .assignment target value => closureExpr target ++ closureExpr value
  | .update target => closureExpr target
  | .expression expr => closureExpr expr
  | .exit value => closureExpr value
  | .forCondition condition body => closureExpr condition ++ closureStmts body
  | .forIn iterated body => closureExprs iterated ++ closureStmts body
  | .tryCall call successBlock errorBlock =>
      closureExpr call ++ closureStmts successBlock ++ closureStmts errorBlock
  | .defer body => closureStmts body
  | .function _ body => closureStmts body
  | _ => []

def closureStmts : List Stmt → List Item
  | [] => []
  | s :: rest => closureStmt s ++ closureStmts rest

end

/-- The statements of a type-checked program and the modules of its source files. -/
structure Program where
  statements : List Stmt
  modules : List String
  modules_nodup : modules.Nodup

def Item.closure? : Item → Option FunctionExpr
  | .closure expr => some expr
  | .function _ => none

def Item.function? : Item → Option FunctionDecl
  | .closure _ => none
  | .function decl => some decl

def FunctionDecl.isMain (f : FunctionDecl) : Bool :=
  !f.head.isExtern && f.head.name == "main"

def Stmt.isTopStmt : Stmt → Bool
  | .function _ _ => false
  | .externBlock _ => false
  | .declaration => false
  | _ => true

namespace Program

def items (p : Program) : List Item := topLevelAll p.statements ++ closureStmts p.statements

def closures (p : Program) : List FunctionExpr := p.items.filterMap Item.closure?

def functions (p : Program) : List FunctionDecl := p.items.filterMap Item.function?

/-- `funcs` of `generate`: a later `main` takes the place of an earlier one. -/
def funcs (p : Program) : List FunctionDecl :=
  p.functions.filter (fun f => !f.isMain) ++ (p.functions.filter FunctionDecl.isMain).getLast?.toList

def topStmts (p : Program) : List Stmt := p.statements.filter Stmt.isTopStmt

/-- The closure numbers after the walk, and the closures that the walk numbered. -/
def collect (numbers : Closure → Option ℕ) (p : Program) : Numbered Closure FunctionExpr :=
  numberAll FunctionExpr.closure numbers p.closures

end Program

/-- The function expressions that an emission has come to, and whether its block is terminated. -/
structure Emission where
  created : List Closure
  terminated : Bool

namespace Emission

def beginBlock (e : Emission) : Emission := { e with terminated := false }

def terminate (e : Emission) : Emission := { e with terminated := true }

def create (c : Closure) (e : Emission) : Emission := { e with created := e.created ++ [c] }

end Emission

mutual

def emitExpr : Expr → Emission → Emission
  | .operation operands, e => emitExprs operands e
  | .functionExpr closure _, e => e.create closure
  | .ifExpr condition thenBlock elseBlock, e =>
      let thenEnd := emitValue thenBlock (emitExpr condition e).beginBlock
      let elseEnd := emitValue elseBlock thenEnd.beginBlock
      { elseEnd with terminated := thenEnd.terminated && elseEnd.terminated }
  | .matchExpr scrutinee bodies, e => emitArms bodies (emitExpr scrutinee e).terminate
  | .blockExpr block, e => emitValue block e
  | .errorHandler call handler, e => (emitValue handler (emitExpr call e).beginBlock).beginBlock
  | .errorMatch call bodies, e => (emitArms bodies (emitExpr call e).terminate).beginBlock
  | .exit value, e => (emitExpr value e).terminate

def emitExprs : List Expr → Emission → Emission
  | [], e => e
  | x :: rest, e => emitExprs rest (emitExpr x e)

/-- The arms of a match, each in a block of its own. What follows is reached from an arm that
    continues; `terminated` says that none did so far. -/
def emitArms : List Expr → Emission → Emission
  | [], e => e
  | body :: rest, e =>
      let armEnd := emitExpr body e.beginBlock
      emitArms rest { armEnd with terminated := e.terminated && armEnd.terminated }

def emitStmt : Stmt → Emission → Emission
  | .variableDecl initializer, e => emitExpr initializer e
  | .assignment target value, e => emitExpr value (emitExpr target e)
  | .update target, e => emitExpr target e
  | .expression expr, e => emitExpr expr e
  | .exit value, e => (emitExpr value e).terminate
  | .forCondition condition body, e =>
      (emitBlock body (emitExpr condition e).beginBlock).beginBlock
  | .forIn iterated body, e => (emitBlock body (emitExprs iterated e).beginBlock).beginBlock
  | .tryCall call successBlock errorBlock, e =>
      let errorEnd := emitBlock errorBlock (emitExpr call e).beginBlock
      (emitBlock successBlock errorEnd.beginBlock).beginBlock
  -- the block is emitted at the exits that follow, each in a block of its own
  | .defer body, e => { emitBlock body e.beginBlock with terminated := e.terminated }
  | .spawn closure _, e => e.create closure
  | .breakStmt, e => e.terminate
  | .function _ _, e => e
  | .externBlock _, e => e
  | .declaration, e => e

/-- `emit_block` stops at a terminator. -/
def emitBlock : List Stmt → Emission → Emission
  | [], e => e
  | s :: rest, e => if e.terminated then e else emitBlock rest (emitStmt s e)

/-- `emit_block_value` does not. -/
def emitValue : List Stmt → Emission → Emission
  | [], e => e
  | s :: rest, e => emitValue rest (emitStmt s e)

end

def Stmt.isExpression : Stmt → Bool
  | .expression _ => true
  | _ => false

/-- `emit_callable_body`. -/
def emitCallable (returnsValue : Bool) (body : List Stmt) : Emission :=
  let start : Emission := ⟨[], false⟩
  match body.getLast? with
  | some tail =>
      if returnsValue && tail.isExpression then
        let prefixEnd := emitValue body.dropLast start
        if prefixEnd.terminated then prefixEnd else emitStmt tail prefixEnd
      else emitBlock body start
  | none => start

def FunctionExpr.created (x : FunctionExpr) : List Closure :=
  (emitCallable x.closure.returnsValue x.body).created

/-- The function expressions that `emit_function` comes to. The body of an erased function that
    uses the ordering is `emit_erased_ord_min_body`. -/
def FunctionDecl.created (f : FunctionDecl) : List Closure :=
  if f.head.erasedMin then [] else (emitCallable f.head.returnsValue f.body).created

end NewClLang.ClosureCollection
