import NewClLang.Syntax
import Mathlib.Logic.Function.Basic

set_option autoImplicit false

/-!
# Slots of names

The scope stack of the type checker gives every identifier a declaration; the code generator looks
the name up in its map `vars`. Both are followed here through every construct, down to the slot.
-/
namespace NewClLang.SlotEmission
open Syntax

/-- The slot that a declaration gets where it stands, the one it gets in the replay of a deferred
    block in progress, the one that an earlier replay has left behind, and the field of a closure
    environment. -/
inductive Slot where
  | inPlace (decl : ℕ)
  | replayed (decl : ℕ)
  | leftover (decl : ℕ)
  | capture (name : String)
deriving DecidableEq

/-- The slot of a declaration emitted now; `m` is `emitting_defer`. -/
def ownSlot (m : Bool) (decl : ℕ) : Slot := if m then .replayed decl else .inPlace decl

abbrev Vars := String → Option Slot

/-- An occurrence of an identifier with its slot. -/
abbrev Read := ℕ × Option Slot

def declareAll (m : Bool) : List Binder → Vars → Vars
  | [], vars => vars
  | b :: bs, vars => declareAll m bs (Function.update vars b.name (some (ownSlot m b.decl)))

section Checker

mutual

/-- The names that a statement declares in the frame it stands in. `walk_stmts` walks a deferred
    block in the frame of the `defer`. -/
def declaredBy : Stmt → List Binder
  | .variableDecl b _ => [b]
  | .defer body => declaredByAll body
  | .expression _ => []
  | .assignment _ _ => []
  | .forCondition _ _ => []
  | .forRange _ _ _ _ => []
  | .forIn _ _ _ _ => []
  | .tryCall _ _ _ _ _ => []
  | .spawn _ => []
  | .breakStmt => []

def declaredByAll : List Stmt → List Binder
  | [] => []
  | s :: ss => declaredBy s ++ declaredByAll ss

end

/-- The names of the enclosing function as a closure sees them. -/
def closureScope (scope : Vars) : Vars := fun name => (scope name).map (fun _ => .capture name)

mutual

/-- The resolution of every identifier, `m` inside a deferred block. -/
def resolveExpr (m : Bool) : Expr → Vars → List Read
  | .literal, _ => []
  | .identifier occ name, scope => [(occ, scope name)]
  | .operation _ operands, scope => resolveExprs m operands scope
  | .ifExpr condition thenBlock elseBlock, scope =>
      resolveExpr m condition scope ++
        (resolveStmts m thenBlock scope ++ resolveStmts m elseBlock scope)
  | .blockExpr block, scope => resolveStmts m block scope
  | .matchExpr scrutinee bodies, scope =>
      resolveExpr m scrutinee scope ++ resolveExprs m bodies scope
  | .fallibleOp _ call, scope => resolveExpr m call scope
  | .errorHandler call error handler, scope =>
      resolveExpr m call scope ++ resolveStmts m handler (declareAll m [error] scope)
  | .errorMatch call error bodies, scope =>
      resolveExpr m call scope ++ resolveExprs m bodies (declareAll m [error] scope)
  | .functionExpr captures params body none, scope =>
      captures.map (fun c => (c.1, scope c.2)) ++
        resolveStmts false body (declareAll false params (closureScope scope))
  | .functionExpr captures params body (some tail), scope =>
      captures.map (fun c => (c.1, scope c.2)) ++
        (resolveStmts false body (declareAll false params (closureScope scope)) ++
          resolveExpr false tail (declareAll false (declaredByAll body)
            (declareAll false params (closureScope scope))))
  | .exit _ value, scope => resolveExpr m value scope

def resolveExprs (m : Bool) : List Expr → Vars → List Read
  | [], _ => []
  | e :: es, scope => resolveExpr m e scope ++ resolveExprs m es scope

def resolveStmt (m : Bool) : Stmt → Vars → List Read
  | .variableDecl _ initializer, scope => resolveExpr m initializer scope
  | .expression e, scope => resolveExpr m e scope
  | .assignment target value, scope => resolveExpr m target scope ++ resolveExpr m value scope
  | .forCondition condition body, scope =>
      resolveExpr m condition scope ++ resolveStmts m body scope
  | .forRange index start stop body, scope =>
      (resolveExpr m start scope ++ resolveExpr m stop scope) ++
        resolveStmts m body (declareAll m [index] scope)
  | .forIn index value iterable body, scope =>
      resolveExpr m iterable scope ++ resolveStmts m body (declareAll m [index, value] scope)
  | .tryCall call success successBlock error errorBlock, scope =>
      resolveExpr m call scope ++
        (resolveStmts m errorBlock (declareAll m error.toList scope) ++
          resolveStmts m successBlock (declareAll m success.toList scope))
  | .defer body, scope => resolveStmts true body scope
  | .spawn function, scope => resolveExpr m function scope
  | .breakStmt, _ => []

def resolveStmts (m : Bool) : List Stmt → Vars → List Read
  | [], _ => []
  | s :: ss, scope =>
      resolveStmt m s scope ++ resolveStmts m ss (declareAll m (declaredBy s) scope)

end

end Checker

section Emitter

structure Output where
  vars : Vars
  reads : List Read

/-- A deferred block, as `emit_deferred` emits it. -/
abbrev Site := Output → Output

/-- The state of the code generator: `terminated` is that of the current basic block. -/
structure Emitter extends Output where
  sites : List Site
  terminated : Bool

abbrev Emit := Emitter → Emitter

def pass : Emit := fun st => st

def Emit.seq (a b : Emit) : Emit := fun st => b (a st)

def emitRead (occ : ℕ) (name : String) : Emit :=
  fun st => { st with reads := st.reads ++ [(occ, st.vars name)] }

def bindAll (m : Bool) (bs : List Binder) : Emit :=
  fun st => { st with vars := declareAll m bs st.vars }

/-- `saved_vars`, and back. -/
def restoring (e : Emit) : Emit := fun st => { e st with vars := st.vars }

def newBlock : Emit := fun st => { st with terminated := false }

def stop : Emit := fun st => { st with terminated := true }

/-- Two branches that meet: what follows is unreachable when neither continues. -/
def branches (a b : Emit) : Emit := fun st =>
  { b (newBlock (a (newBlock st))) with
    terminated := (a (newBlock st)).terminated && (b (newBlock (a (newBlock st)))).terminated }

def unlessTerminated (skipped : Bool) (e : Emit) : Emit :=
  fun st => if skipped && st.terminated then st else e st

def Slot.age : Slot → Slot
  | .replayed decl => .leftover decl
  | slot => slot

def replay (body : Emit) : Site := fun out =>
  let done := body { toOutput := out, sites := [], terminated := false }
  { vars := fun name => (done.vars name).map Slot.age, reads := done.reads }

/-- `emit_defer` outside a deferred block. -/
def register (body : Emit) : Emit := fun st => { st with sites := st.sites ++ [replay body] }

/-- `emit_deferred`: every site known so far, in the order of emission. -/
def emitDeferred (m : Bool) : Emit :=
  fun st => if m then st else { st with toOutput := st.sites.foldl (fun out s => s out) st.toOutput }

/-- The end of a body without a value: `emit_callable_body` calls `emit_deferred`, and so does the
    `emit_success_return` of every function but `main`. -/
def fallThrough (isMain : Bool) : Emit :=
  unlessTerminated true
    (if isMain then emitDeferred false else (emitDeferred false).seq (emitDeferred false))

/-- The function of a closure is emitted on its own. -/
def separately (vars : Vars) (e : Emit) : Emit := fun st =>
  { st with reads :=
      (e { vars := vars, reads := st.reads, sites := [], terminated := false }).reads }

def captureVars (captures : List (ℕ × String)) : Vars :=
  fun name => if name ∈ captures.map Prod.snd then some (.capture name) else none

def emitCaptures : List (ℕ × String) → Emit
  | [] => pass
  | c :: cs => (emitRead c.1 c.2).seq (emitCaptures cs)

mutual

def emitExpr (m : Bool) : Expr → Emit
  | .literal => pass
  | .identifier occ name => emitRead occ name
  | .operation _ operands => emitExprs m operands
  | .ifExpr condition thenBlock elseBlock =>
      (emitExpr m condition).seq
        (branches (emitStmts m false thenBlock) (emitStmts m false elseBlock))
  | .blockExpr block => restoring (emitStmts m false block)
  | .matchExpr scrutinee bodies => (emitExpr m scrutinee).seq (emitArms m bodies)
  | .fallibleOp .propagate call => (emitExpr m call).seq ((emitDeferred m).seq newBlock)
  | .fallibleOp .unwrap call => (emitExpr m call).seq newBlock
  | .errorHandler call error handler =>
      (emitExpr m call).seq
        ((restoring ((bindAll m [error]).seq (newBlock.seq (emitStmts m false handler)))).seq
          newBlock)
  | .errorMatch call error bodies =>
      (emitExpr m call).seq
        ((restoring ((bindAll m [error]).seq (emitArms m bodies))).seq newBlock)
  | .functionExpr captures params body none =>
      (emitCaptures captures).seq
        (separately (declareAll false params (captureVars captures))
          ((emitStmts false true body).seq (fallThrough false)))
  | .functionExpr captures params body (some tail) =>
      (emitCaptures captures).seq
        (separately (declareAll false params (captureVars captures))
          ((emitStmts false false body).seq
            (unlessTerminated true ((emitExpr false tail).seq (emitDeferred false)))))
  | .exit _ value => (emitExpr m value).seq ((emitDeferred m).seq stop)

def emitExprs (m : Bool) : List Expr → Emit
  | [] => pass
  | e :: es => (emitExpr m e).seq (emitExprs m es)

def emitArms (m : Bool) : List Expr → Emit
  | [] => stop
  | e :: es => branches (emitExpr m e) (emitArms m es)

def emitStmt (m : Bool) : Stmt → Emit
  | .variableDecl b initializer => (bindAll m [b]).seq (emitExpr m initializer)
  | .expression e => emitExpr m e
  | .assignment target value => (emitExpr m target).seq (emitExpr m value)
  | .forCondition condition body =>
      (emitExpr m condition).seq (newBlock.seq ((emitStmts m true body).seq newBlock))
  | .forRange index start stop body =>
      ((bindAll m [index]).seq ((emitExpr m start).seq (emitExpr m stop))).seq
        (newBlock.seq ((emitStmts m true body).seq newBlock))
  | .forIn index value iterable body =>
      restoring (((bindAll m [index, value]).seq (emitExpr m iterable)).seq
        (newBlock.seq ((emitStmts m true body).seq newBlock)))
  | .tryCall call success successBlock error errorBlock =>
      (emitExpr m call).seq
        ((restoring ((bindAll m error.toList).seq (newBlock.seq (emitStmts m true errorBlock)))).seq
          ((restoring
            ((bindAll m success.toList).seq (newBlock.seq (emitStmts m true successBlock)))).seq
            newBlock))
  | .defer body => if m then emitStmts true true body else register (emitStmts true true body)
  | .spawn function => emitExpr m function
  | .breakStmt => stop

/-- A block: `emit_block` stops after a terminator, `emit_block_value` does not. -/
def emitStmts (m checked : Bool) : List Stmt → Emit
  | [] => pass
  | s :: ss => unlessTerminated checked ((emitStmt m s).seq (emitStmts m checked ss))

end

mutual

def declsExpr : Expr → List ℕ
  | .literal => []
  | .identifier _ _ => []
  | .operation _ operands => declsExprs operands
  | .ifExpr condition thenBlock elseBlock =>
      declsExpr condition ++ (declsStmts thenBlock ++ declsStmts elseBlock)
  | .blockExpr block => declsStmts block
  | .matchExpr scrutinee bodies => declsExpr scrutinee ++ declsExprs bodies
  | .fallibleOp _ call => declsExpr call
  | .errorHandler call error handler => declsExpr call ++ (error.decl :: declsStmts handler)
  | .errorMatch call error bodies => declsExpr call ++ (error.decl :: declsExprs bodies)
  | .functionExpr _ params body none => params.map Binder.decl ++ declsStmts body
  | .functionExpr _ params body (some tail) =>
      params.map Binder.decl ++ (declsStmts body ++ declsExpr tail)
  | .exit _ value => declsExpr value

def declsExprs : List Expr → List ℕ
  | [] => []
  | e :: es => declsExpr e ++ declsExprs es

def declsStmt : Stmt → List ℕ
  | .variableDecl b initializer => b.decl :: declsExpr initializer
  | .expression e => declsExpr e
  | .assignment target value => declsExpr target ++ declsExpr value
  | .forCondition condition body => declsExpr condition ++ declsStmts body
  | .forRange index start stop body =>
      (index.decl :: (declsExpr start ++ declsExpr stop)) ++ declsStmts body
  | .forIn index value iterable body =>
      (index.decl :: value.decl :: declsExpr iterable) ++ declsStmts body
  | .tryCall call success successBlock error errorBlock =>
      declsExpr call ++
        ((error.toList.map Binder.decl ++ declsStmts errorBlock) ++
          (success.toList.map Binder.decl ++ declsStmts successBlock))
  | .defer body => declsStmts body
  | .spawn function => declsExpr function
  | .breakStmt => []

def declsStmts : List Stmt → List ℕ
  | [] => []
  | s :: ss => declsStmt s ++ declsStmts ss

end

def functionScope (params : List Binder) : Vars := declareAll false params (fun _ => none)

def resolveBody (body : List Stmt) (scope : Vars) : Option Expr → List Read
  | none => resolveStmts false body scope
  | some tail =>
      resolveStmts false body scope ++
        resolveExpr false tail (declareAll false (declaredByAll body) scope)

def declsBody (body : List Stmt) : Option Expr → List ℕ
  | none => declsStmts body
  | some tail => declsStmts body ++ declsExpr tail

def emitBody (isMain : Bool) (body : List Stmt) : Option Expr → Emit
  | none => (emitStmts false true body).seq (fallThrough isMain)
  | some tail =>
      (emitStmts false false body).seq
        (unlessTerminated true ((emitExpr false tail).seq (emitDeferred false)))

/-- A function whose declarations, and whose identifiers, are told apart. -/
structure FunctionDecl where
  params : List Binder
  body : List Stmt
  tail : Option Expr
  isMain : Bool
  decls : (params.map Binder.decl ++ declsBody body tail).Nodup
  occurrences : ((resolveBody body (functionScope params) tail).map Prod.fst).Nodup

def FunctionDecl.resolution (fn : FunctionDecl) : List Read :=
  resolveBody fn.body (functionScope fn.params) fn.tail

/-- The slot that `vars` yields each time an identifier is emitted. -/
def FunctionDecl.emitted (fn : FunctionDecl) : List Read :=
  (emitBody fn.isMain fn.body fn.tail
    { vars := functionScope fn.params, reads := [], sites := [], terminated := false }).reads

end Emitter

end NewClLang.SlotEmission
