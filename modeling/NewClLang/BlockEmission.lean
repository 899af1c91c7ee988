import NewClLang.ControlTrees

set_option autoImplicit false

/-!
# Emission into basic blocks

The instructions and terminators that `emit_stmt` and `emit_expr` append, block by block, and the
control flow graph they make. `llvmlite` appends an instruction to a block that is terminated, and
refuses a second terminator.
-/
namespace NewClLang.BlockEmission

section Syntax

/-- An instruction that is no terminator: `slot` is an `alloca`, and `root` registers a root, with
the address that it takes. -/
inductive Instruction where
  | plain
  | slot
  | root
deriving DecidableEq

/-- What a `for` goes over, with the roots in an element, or in a key and a value. -/
inductive Iteration where
  | range
  | slice (roots : ℕ)
  | map (keyRoots valueRoots : ℕ)

inductive FallibleOperator where
  | propagate
  | unwrap

inductive Exit where
  | ret
  | err

mutual

/-- Expressions, with the instructions that depend on types. `success` is the number of roots in the
value of a fallible call, unless it is void. -/
inductive Expr where
  /-- Literals, names, operators, accesses, calls, function expressions: what is appended before the
  first operand and after each of them. A loop that copies bytes counts for an instruction. -/
  | operation (before : List Instruction) (operands : Operands)
  | ifExpr (condition : Expr) (test : List Instruction) (thenBlock elseBlock : List Stmt)
      (merge : List Instruction)
  | blockExpr (block : List Stmt)
  | matchExpr (scrutinee : Expr) (arms : Arms) (merge : List Instruction)
  | fallibleOp (op : FallibleOperator) (success : Option ℕ) (args : Operands)
  | errorHandler (success : Option ℕ) (args : Operands) (handler : List Stmt)
      (merge : List Instruction)
  | errorMatch (success : Option ℕ) (args : Operands) (arms : Arms) (merge : List Instruction)
  | exit (kind : Exit) (value : Expr) (convert : List Instruction)

inductive Operands where
  | nil
  | cons (operand : Expr) (after : List Instruction) (rest : Operands)

/-- The arms of a `match`, with the tests of their patterns. The type checker asks for one. -/
inductive Arms where
  | last (pattern : List Instruction) (body : Expr)
  | cons (pattern : List Instruction) (body : Expr) (rest : Arms)

/-- Assignments, updates and `spawn` are expressions here: they append what an operation does. -/
inductive Stmt where
  | variableDecl (roots : ℕ) (initializer : Expr) (convert : List Instruction)
  | expression (expr : Expr)
  | forCondition (condition : Expr) (test : List Instruction) (body : List Stmt)
  | forIn (iteration : Iteration) (operands : Operands) (body : List Stmt)
  | tryCall (success : Option ℕ) (args : Operands) (successBlock : List Stmt) (handled : Bool)
      (errorBlock : List Stmt)
  | defer (body : List Stmt)
  | breakStmt

end

/-- A function, a method or a function expression. A body that has to give a value ends in an
expression or in `ret` or `err`. -/
structure Callable where
  isMain : Bool
  fallible : Bool
  parameters : List Instruction
  body : List Stmt
  tail : Option (Expr × List Instruction)

end Syntax

section Builders

inductive Item where
  | instruction (i : Instruction)
  | terminator
deriving DecidableEq

abbrev Block := List Item

/-- The control flow graph, from its entry on. -/
abbrev Code := ControlTrees.Code Instruction

/-- A deferred block, as it is emitted at each exit: the blocks that it is emitted to, the last one
first, and whether a `break` in it has no loop there. -/
structure Site where
  current : Block
  left : List Block
  raised : Bool
  code : Code

/-- `builder`, with the block it is positioned at and those it has left, `defer_sites`, and the
length of `break_stack`. Emission raises an error at a `break` when that is empty. -/
structure Builder where
  current : Block
  left : List Block
  sites : List Site
  loops : ℕ
  raised : Bool

abbrev Emit (α : Type) := StateM Builder α

def Builder.isTerminated (b : Builder) : Bool := b.current.contains .terminator

def append (instructions : List Instruction) : Emit Code := fun b =>
  (.run instructions, { b with current := b.current ++ instructions.map .instruction })

/-- `branch`, `cbranch`, `ret` and `unreachable`. -/
def terminate : Emit Unit := fun b => ((), { b with current := b.current ++ [.terminator] })

/-- `position_at_end`, at a block that is new. -/
def position : Emit Unit := fun b => ((), { b with current := [], left := b.current :: b.left })

def jump : Emit Unit := do
  terminate
  position

def closeBlock : Emit Unit := fun b => if b.isTerminated then ((), b) else terminate b

/-- The block is left for another one. -/
def leaving {α : Type} (last : Emit α) : Emit α := do
  let a ← last
  position
  pure a

/-- A block that joins others, and whether it continues there. -/
def arm {α : Type} (x : Emit α) : Emit (α × Bool) := do
  let a ← x
  let b ← get
  leaving closeBlock
  pure (a, !b.isTerminated)

/-- Two branches, and whether one of them continues. -/
def fork {α β : Type} (x : Emit α) (y : Emit β) : Emit ((α × β) × Bool) := do
  let a ← arm x
  let c ← arm y
  pure ((a.1, c.1), a.2 || c.2)

/-- The block where others join. It is `unreachable` when none continues there. -/
def joined (continues : Bool) (merge : List Instruction) : Emit Code :=
  if continues then append merge
  else do
    terminate
    pure .leave

/-- `break_stack` during the emission of a body. -/
def inLoop {α : Type} (x : Emit α) : Emit α := fun b =>
  let r := x { b with loops := b.loops + 1 }
  (r.1, { r.2 with loops := b.loops })

/-- The end of the body of a `for` over elements. -/
def advance : Emit Code := fun b =>
  if b.isTerminated then (.run [], b)
  else
    ((do
      let code ← append [.plain]
      terminate
      pure code) : Emit Code) b

def unlessTerminated {α : Type} (checked : Bool) (skipped : α) (x : Emit α) : Emit α := fun b =>
  if checked && b.isTerminated then (skipped, b) else x b

end Builders

section Parts

/-- `root_slots_for_type`, at a new slot. -/
def rootedSlot (roots : ℕ) : List Instruction := .slot :: List.replicate roots .root

/-- `fallible_out_slots`. -/
def fallibleOutSlots (success : Option ℕ) : List Instruction :=
  (match success with
    | some roots => rootedSlot roots
    | none => []) ++ rootedSlot 1

/-- The load of the value of a fallible call. -/
def loadValue : Option ℕ → List Instruction
  | some _ => [.plain]
  | none => []

def bindError : List Instruction := rootedSlot 1 ++ [.plain]

/-- `emit_error_append_frame`. -/
def appendFrame : List Instruction :=
  [.slot, .plain, .slot, .plain, .slot, .plain, .plain, .plain]

/-- `emit_print_error`. -/
def printError : List Instruction := [.slot, .plain, .plain]

/-- The slots of the variables of a `for`. -/
def Iteration.slots : Iteration → List Instruction
  | .range => [.slot]
  | .slice roots => .slot :: rootedSlot roots
  | .map keyRoots valueRoots =>
    [.slot, .slot, .slot, .slot, .slot] ++ List.replicate (keyRoots + valueRoots) .root

/-- What a turn of a `for` begins with. -/
def Iteration.element : Iteration → List Instruction
  | .slice _ => [.plain]
  | _ => []

/-- The end of `emit_error_return_value`. A function that is not fallible stops the program, and
`main` returns. -/
def errorEnd (fallible : Bool) : List Instruction :=
  if fallible then [.plain] else printError ++ [.plain]

end Parts

section Deferred

/-- `emit_block` of a deferred block, from a block of its own on. -/
def enterSite (site : Site) : Emit Unit := fun b =>
  ((),
    { b with
      current := site.current
      left := site.left ++ b.current :: b.left
      raised := b.raised || (site.raised && b.loops == 0) })

/-- One deferred block, in the dispatch of `emit_deferred`. -/
def emitSite (site : Site) : Emit Unit := do
  terminate
  enterSite site
  leaving closeBlock

def emitSites : List Site → Emit Unit
  | [] => pure ()
  | site :: sites => do
    emitSite site
    emitSites sites

/-- The loop of `emit_deferred`. -/
def dispatch (sites : List Site) : Emit Code := do
  jump
  let head ← append [.plain]
  jump
  let next ← append [.plain]
  emitSites sites
  leaving closeBlock
  jump
  pure (.loop head (.sequence [next, .oneOf (.run [] :: sites.map Site.code)]))

/-- `emit_deferred`. In a deferred block it emits nothing. -/
def emitDeferred (deferred : Bool) : Emit Code := fun b =>
  if deferred then (.run [], b) else dispatch b.sites b

/-- `emit_defer`, with the emission of the block. In a deferred block it is emitted there. -/
def emitDefer (deferred : Bool) (body : Emit (List Code)) : Emit Code := fun b =>
  if deferred then
    let r := body b
    (.sequence r.1, r.2)
  else
    let r := body ⟨[], [], [], 0, false⟩
    append [.plain]
      { b with sites := b.sites ++ [⟨r.2.current, r.2.left, r.2.raised, .sequence r.1⟩] }

/-- The end of an exit: the deferred blocks, and a terminator. -/
def emitExit (deferred : Bool) (last : List Instruction) : Emit Code := do
  let drain ← emitDeferred deferred
  let code ← append last
  terminate
  pure (.sequence [drain, code, .leave])

end Deferred

section Emission

/-- Where code is emitted: `emitting_defer` and `current_is_fallible`. -/
structure Context where
  deferred : Bool
  fallible : Bool

/-- `emit_error_return_value`. -/
def emitErrorReturn (c : Context) : Emit Code := do
  let frame ← append (appendFrame ++ [.plain])
  let exit ← emitExit c.deferred (errorEnd c.fallible)
  pure (.sequence [frame, exit])

/-- `emit_fallible_call_raw`, with the emission of the arguments. -/
def emitCall (success : Option ℕ) (args : Emit Code) : Emit Code := do
  let slots ← append (fallibleOutSlots success)
  let codes ← args
  let call ← append [.plain]
  pure (.sequence [slots, codes, call])

/-- The error branch of a `try`, which stops the program when there is no `else`. -/
def emitHandler (handled : Bool) (errorBlock : Emit (List Code)) : Emit Code := do
  let frame ← append (.plain :: appendFrame)
  if handled then
    let bound ← append bindError
    let codes ← arm errorBlock
    pure (.sequence [frame, bound, .sequence codes.1])
  else
    let stop ← append (printError ++ [.plain])
    jump
    pure (.sequence [frame, stop, .leave])

def emitBreak : Emit Code := fun b =>
  (.breakLoop,
    { b with current := b.current ++ [.terminator], raised := b.raised || b.loops == 0 })

mutual

/-- `emit_expr`. -/
def emitExpr (c : Context) : Expr → Emit Code
  | .operation before operands => do
    let first ← append before
    let codes ← emitOperands c operands
    pure (.sequence [first, codes])
  | .ifExpr condition test thenBlock elseBlock merge => do
    let code ← emitExpr c condition
    let tested ← append test
    jump
    let codes ← fork (emitStmts c false thenBlock) (emitStmts c false elseBlock)
    let last ← joined codes.2 merge
    pure (.sequence [code, tested, .oneOf [.sequence codes.1.1, .sequence codes.1.2], last])
  | .blockExpr block => do
    let codes ← emitStmts c false block
    pure (.sequence codes)
  | .matchExpr scrutinee arms merge => do
    let code ← emitExpr c scrutinee
    let body ← emitArms c arms
    let last ← joined body.2 merge
    pure (.sequence [code, body.1, last])
  | .fallibleOp .propagate success args => do
    let code ← emitCall success (emitOperands c args)
    jump
    let loaded ← append [.plain]
    let error ← leaving (emitErrorReturn c)
    let value ← append (loadValue success)
    pure (.sequence [code, .oneOf [.sequence [loaded, error], value]])
  | .fallibleOp .unwrap success args => do
    let code ← emitCall success (emitOperands c args)
    jump
    let error ← append (.plain :: appendFrame ++ printError ++ [.plain])
    jump
    let value ← append (loadValue success)
    pure (.sequence [code, .oneOf [.sequence [error, .leave], value]])
  | .errorHandler success args handler merge => do
    let code ← emitCall success (emitOperands c args)
    jump
    let bound ← append (.plain :: appendFrame ++ bindError)
    let handled ← arm (emitStmts c false handler)
    let value ← append (loadValue success)
    jump
    let last ← append merge
    pure (.sequence [code, .oneOf [.sequence [bound, .sequence handled.1], value], last])
  | .errorMatch success args arms merge => do
    let code ← emitCall success (emitOperands c args)
    jump
    let bound ← append (.plain :: appendFrame ++ bindError ++ [.plain])
    let body ← emitArms c arms
    let value ← append (loadValue success)
    jump
    let last ← append merge
    pure (.sequence [code, .oneOf [.sequence [bound, body.1], value], last])
  | .exit .ret value convert => do
    let code ← emitExpr c value
    let converted ← append convert
    let exit ← emitExit c.deferred [.plain]
    pure (.sequence [code, converted, exit])
  | .exit .err value convert => do
    let code ← emitExpr c value
    let converted ← append convert
    let exit ← emitErrorReturn c
    pure (.sequence [code, converted, exit])

def emitOperands (c : Context) : Operands → Emit Code
  | .nil => pure (.sequence [])
  | .cons operand after rest => do
    let code ← emitExpr c operand
    let last ← append after
    let codes ← emitOperands c rest
    pure (.sequence [code, last, codes])

/-- The tests and the arms. What follows the last test is `unreachable`. -/
def emitArms (c : Context) : Arms → Emit (Code × Bool)
  | .last pattern body => do
    let test ← append pattern
    jump
    let code ← arm (emitExpr c body)
    leaving closeBlock
    pure (.sequence [test, .oneOf [code.1, .leave]], code.2)
  | .cons pattern body rest => do
    let test ← append pattern
    jump
    let code ← arm (emitExpr c body)
    let codes ← emitArms c rest
    pure (.sequence [test, .oneOf [code.1, codes.1]], code.2 || codes.2)

/-- `emit_stmt`. -/
def emitStmt (c : Context) : Stmt → Emit Code
  | .variableDecl roots initializer convert => do
    let slot ← append (rootedSlot roots)
    let code ← emitExpr c initializer
    let store ← append (convert ++ [.plain])
    pure (.sequence [slot, code, store])
  | .expression expr => emitExpr c expr
  | .forCondition condition test body => do
    jump
    let code ← emitExpr c condition
    let tested ← append test
    jump
    let codes ← inLoop (emitStmts c true body)
    leaving closeBlock
    pure (.loop (.sequence [code, tested]) (.sequence codes))
  | .forIn iteration operands body => do
    let slots ← append iteration.slots
    let code ← emitOperands c operands
    let first ← append [.plain]
    jump
    let head ← append [.plain]
    jump
    let element ← append iteration.element
    let codes ← inLoop (emitStmts c true body)
    let next ← leaving advance
    pure (.sequence [slots, code, first, .loop head (.sequence [element, .sequence codes, next])])
  | .tryCall success args successBlock handled errorBlock => do
    let code ← emitCall success (emitOperands c args)
    jump
    let error ← emitHandler handled (emitStmts c true errorBlock)
    let bound ← append (match success with
      | some roots => rootedSlot roots ++ [.plain]
      | none => [])
    let codes ← arm (emitStmts c true successBlock)
    pure (.sequence [code, .oneOf [error, .sequence [bound, .sequence codes.1]]])
  | .defer body => emitDefer c.deferred (emitStmts { c with deferred := true } true body)
  | .breakStmt => emitBreak

/-- A block: `emit_block` stops after a terminator, `emit_block_value` does not. -/
def emitStmts (c : Context) (checked : Bool) : List Stmt → Emit (List Code)
  | [] => pure []
  | s :: ss => unlessTerminated checked [] (do
    let code ← emitStmt c s
    let codes ← emitStmts c checked ss
    pure (code :: codes))

end

/-- The end of a body without a value: `emit_callable_body` calls `emit_deferred`, and so does the
`emit_success_return` of every function but `main`. -/
def fallThrough (isMain : Bool) : Emit Code :=
  if isMain then emitExit false [.plain]
  else do
    let drain ← emitDeferred false
    let exit ← emitExit false [.plain]
    pure (.sequence [drain, exit])

/-- `emit_callable_body`. -/
def emitBody (c : Context) (isMain : Bool) (body : List Stmt) :
    Option (Expr × List Instruction) → Emit Code
  | none => do
    let codes ← emitStmts c true body
    let last ← unlessTerminated true (.run []) (fallThrough isMain)
    pure (.sequence [.sequence codes, last])
  | some (tail, convert) => do
    let codes ← emitStmts c false body
    let last ← unlessTerminated true (.run []) (do
      let code ← emitExpr c tail
      let store ← append (convert ++ [.plain])
      let exit ← emitExit false [.plain]
      pure (.sequence [code, store, exit]))
    pure (.sequence [.sequence codes, last])

/-- `emit_function` and `emit_closure_function`: the slots of deferred blocks come first. -/
def emitCallable (f : Callable) : Code × Builder :=
  ((do
    let entry ← append ([.slot, .slot, .plain] ++ f.parameters ++ [.plain])
    let code ← emitBody ⟨false, f.fallible⟩ f.isMain f.body f.tail
    pure (.sequence [entry, code])) : Emit Code) ⟨[], [], [], 0, false⟩

end Emission

end NewClLang.BlockEmission
