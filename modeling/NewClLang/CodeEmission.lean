import NewClLang.CompiledCode

set_option autoImplicit false

/-!
# Emission of compiled bodies

`emit_stmt` and `emit_expr`, as far as the control flow goes. The code generator numbers the defer
statements in the order in which it emits them, and each exit dispatches on those emitted so far.
-/
namespace NewClLang.CodeEmission
open Syntax CompiledCode

/-- `defer_sites`, as code, and whether the current basic block `is_terminated`. -/
structure Builder where
  sites : List Code
  terminated : Bool

abbrev Emit (α : Type) := StateM Builder α

section Combinators
variable {α β : Type}

def beginBlock : Emit Unit := modify (fun b => { b with terminated := false })

def terminate : Emit Unit := modify (fun b => { b with terminated := true })

def unlessTerminated (checked : Bool) (skipped : α) (e : Emit α) : Emit α := fun b =>
  if checked && b.terminated then (skipped, b) else e b

/-- Two branches that meet: what follows is unreachable when neither continues. -/
def branches (x : Emit α) (y : Emit β) : Emit (α × β) := fun b =>
  let first := x { b with terminated := false }
  let second := y { first.2 with terminated := false }
  ((first.1, second.1),
    { second.2 with terminated := first.2.terminated && second.2.terminated })

/-- `emit_defer`, with the emission of the block. In a deferred block the block is emitted there. -/
def emitDefer (m : Bool) (body : Emit (List Code)) : Emit Code := fun b =>
  if m then
    let emitted := body b
    (.inlined (.block emitted.1), emitted.2)
  else
    let block := Code.block (body { sites := [], terminated := false }).1
    (.register b.sites.length block, { b with sites := b.sites ++ [block] })

def emitExit (m : Bool) : Emit Code := fun b =>
  (if m then .exitDeferred else .exit b.sites, { b with terminated := true })

/-- `emit_lvalue`: the operands are those of the value. -/
def asLvalue : Code → Code
  | .act a operands => .act (.lvalue a) operands
  | c => c

/-- The error branch of a `try`, which stops the program when there is no `else`. -/
def errorBranch : Option Binder → List Code → Code
  | none, _ => .stop
  | some b, codes => .block (.act (.bindError b) [] :: codes)

end Combinators

mutual

/-- The code of an expression, `m` inside a deferred block. -/
def emitExpr (m : Bool) : Expr → Emit Code
  | .literal => pure (.act .literal [])
  | .identifier occ name => pure (.act (.identifier occ name) [])
  | .operation op operands => do
    let codes ← emitExprs m operands
    pure (.act (.operation op) codes)
  | .ifExpr condition thenBlock elseBlock => do
    let c ← emitExpr m condition
    let codes ← branches (emitStmts m false thenBlock) (emitStmts m false elseBlock)
    pure (.branch c (.block codes.1) (.block codes.2))
  | .blockExpr block => do
    let codes ← emitStmts m false block
    pure (.block codes)
  | .matchExpr scrutinee bodies => do
    let c ← emitExpr m scrutinee
    let codes ← emitArms m bodies
    pure (.arms c codes)
  | .fallibleOp .propagate call => do
    let c ← emitExpr m call
    let exit ← emitExit m
    beginBlock
    pure (.branch (.act .fallibleStatus [c]) exit (.act .fallibleValue []))
  | .fallibleOp .unwrap call => do
    let c ← emitExpr m call
    beginBlock
    pure (.branch (.act .fallibleStatus [c]) .stop (.act .fallibleValue []))
  | .errorHandler call error handler => do
    let c ← emitExpr m call
    beginBlock
    let codes ← emitStmts m false handler
    beginBlock
    pure (.branch (.act .fallibleStatus [c]) (.block (.act (.bindError error) [] :: codes))
      (.act .fallibleValue []))
  | .errorMatch call error bodies => do
    let c ← emitExpr m call
    let codes ← emitArms m bodies
    beginBlock
    pure (.branch (.act .fallibleStatus [c]) (.arms (.act (.bindError error) []) codes)
      (.act .fallibleValue []))
  | .functionExpr captures _ _ _ => pure (.act (.functionExpr captures) [])
  | .exit kind value => do
    let c ← emitExpr m value
    let exit ← emitExit m
    pure (.block [.act (.setResult kind) [c], exit])

def emitExprs (m : Bool) : List Expr → Emit (List Code)
  | [] => pure []
  | e :: es => do
    let code ← emitExpr m e
    let codes ← emitExprs m es
    pure (code :: codes)

def emitArms (m : Bool) : List Expr → Emit (List Code)
  | [] => do
    terminate
    pure []
  | e :: es => do
    let codes ← branches (emitExpr m e) (emitArms m es)
    pure (codes.1 :: codes.2)

def emitStmt (m : Bool) : Stmt → Emit Code
  | .variableDecl b initializer => do
    let c ← emitExpr m initializer
    pure (.act (.variableDecl b) [c])
  | .expression e => emitExpr m e
  | .assignment target value => do
    let c₁ ← emitExpr m target
    let c₂ ← emitExpr m value
    pure (.act .assignment [asLvalue c₁, c₂])
  | .forCondition condition body => do
    let c ← emitExpr m condition
    beginBlock
    let codes ← emitStmts m true body
    beginBlock
    pure (.loop c (.block codes))
  | .forRange index start stop body => do
    let c₁ ← emitExpr m start
    let c₂ ← emitExpr m stop
    beginBlock
    let codes ← emitStmts m true body
    beginBlock
    pure (.block [.act (.startRange index) [c₁, c₂],
      .loop (.act (.inRange index) []) (.block (codes ++ [.act (.advance index) []]))])
  | .forIn index value iterable body => do
    let c ← emitExpr m iterable
    beginBlock
    let codes ← emitStmts m true body
    beginBlock
    pure (.block [.act (.startIteration index value) [c],
      .loop (.act (.nextItem index value) []) (.block (codes ++ [.act (.advance index) []])),
      .act .endIteration []])
  | .tryCall call success successBlock error errorBlock => do
    let c ← emitExpr m call
    beginBlock
    let onError ← emitStmts m true errorBlock
    beginBlock
    let onSuccess ← emitStmts m true successBlock
    beginBlock
    pure (.branch (.act .fallibleStatus [c]) (errorBranch error onError)
      (.block (success.toList.map (fun b => .act (.bindValue b) []) ++ onSuccess)))
  | .defer body => emitDefer m (emitStmts true true body)
  | .spawn function => do
    let c ← emitExpr m function
    pure (.act .spawn [c])
  | .breakStmt => do
    terminate
    pure .breakLoop

/-- A block: `emit_block` stops after a terminator, `emit_block_value` does not. -/
def emitStmts (m checked : Bool) : List Stmt → Emit (List Code)
  | [] => pure []
  | s :: ss => unlessTerminated checked [] (do
    let code ← emitStmt m s
    let codes ← emitStmts m checked ss
    pure (code :: codes))

end

/-- The end of a body without a value: `emit_callable_body` calls `emit_deferred`, and so does the
    `emit_success_return` of every function but `main`. -/
def fallThrough (isMain : Bool) : Emit (List Code) := fun b =>
  (if isMain then [.exit b.sites] else [.drain b.sites, .exit b.sites], b)

def emitBody (isMain : Bool) (body : List Stmt) : Option Expr → Emit Code
  | none => do
    let codes ← emitStmts false true body
    let last ← unlessTerminated true [] (fallThrough isMain)
    pure (.block (codes ++ last))
  | some tail => do
    let codes ← emitStmts false false body
    let last ← unlessTerminated true [] (do
      let c ← emitExpr false tail
      let exit ← emitExit false
      pure [.act (.setResult .ret) [c], exit])
    pure (.block (codes ++ last))

def emitFunction (isMain : Bool) (body : List Stmt) (tail : Option Expr) : Code × Builder :=
  emitBody isMain body tail { sites := [], terminated := false }

end NewClLang.CodeEmission
