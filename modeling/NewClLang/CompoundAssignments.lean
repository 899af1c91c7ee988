import NewClLang.AccessExpressions

set_option autoImplicit false

/-!
# Compound assignments

What the type checker lets through of an assignment `t op= e` (`walk_stmts`), and the ways in which
it is emitted (`emit_stmt`, `emit_map_set_to_ptr`, `emit_operator_method_value`).
-/
namespace NewClLang.CompoundAssignments
open TypeRefs Comparisons AccessExpressions

section Syntax

inductive ArithmeticOp where
  | add
  | sub
  | mul
  | div
  | rem
  | and
  | or
  | xor
  | shl
  | shr
deriving DecidableEq

/-- `&`, `|`, `^`, `<<` and `>>`. -/
def ArithmeticOp.isBitwise : ArithmeticOp → Bool
  | .and | .or | .xor | .shl | .shr => true
  | _ => false

/-- The call of the method that overloads an operator, and the path to the embedded struct that has
it. `validate_operator_method` does not ask whether the method is fallible. -/
structure Overload where
  occ : ℕ
  path : List String
  fallible : Bool

/-- An assignment `target op= value`, as the type checker marks it. -/
structure Compound where
  target : Expr
  op : ArithmeticOp
  overload : Option Overload
  value : Expr

end Syntax

section Checking
variable (d : Declarations)

def isInteger : TypeRef → Bool
  | .named name => integerTypes.contains name
  | _ => false

/-- `walk_stmts` at a compound assignment. -/
def acceptsCompound (a : Compound) : Bool :=
  acceptsExpr d a.target && acceptsExpr d a.value && isPlaceNode a.target &&
    match a.overload with
    | some _ =>
      !a.op.isBitwise && (structFields d (typeOf d a.target)).isSome &&
        decide (typeOf d a.value = typeOf d a.target)
    | none =>
      (if a.op.isBitwise || a.op = .rem then
        isInteger (typeOf d a.target) && isInteger (typeOf d a.value)
      else if a.op = .add ∧ typeOf d a.target = str then isAssignable d (typeOf d a.value) str
      else isNumeric (typeOf d a.target) && isNumeric (typeOf d a.value)) &&
        isAssignable d (typeOf d a.value) (typeOf d a.target)

end Checking

section Emission

/-- The code of a compound assignment. -/
inductive Statement where
  | update (place : Place) (op : ArithmeticOp) (value : Code)
  | overloaded (place : Place) (occ : ℕ) (value : Code)
  | mapUpdate (map : Place) (key : Code) (op : ArithmeticOp) (value : Code)
  | mapAppend (map : Place) (key value : Code)

variable (d : Declarations)

/-- `emit_map_set_to_ptr`. Instructions for arithmetic on values that are not numbers are not well
formed. -/
def emitMapSet (a : Compound) (map index : Expr) : Option Statement := do
  let p ← (emitLvalue d map).place?
  let key ← emitExpr d index
  let value ← emitExpr d a.value
  if elementType (typeOf d map) = str ∧ a.op = .add then some (.mapAppend p key value)
  else if isNumeric (elementType (typeOf d map)) then some (.mapUpdate p key a.op value)
  else none

/-- `emit_stmt` at an assignment. `emit_operator_method_value` passes a slot with the whole value,
which is of another type than the receiver of a method that is promoted, and no slots for what a
fallible method returns. -/
def emitPlaceSet (a : Compound) : Option Statement := do
  let p ← (emitLvalue d a.target).place?
  let value ← emitExpr d a.value
  match a.overload with
  | some overload =>
    if overload.path.isEmpty && !overload.fallible then some (.overloaded p overload.occ value)
    else none
  | none => if isNumeric (typeOf d a.target) then some (.update p a.op value) else none

def emitCompound (a : Compound) : Option Statement :=
  match a.target with
  | .index obj index =>
    if isMap (typeOf d obj) then emitMapSet d a obj index else emitPlaceSet d a
  | _ => emitPlaceSet d a

end Emission

section Runs

/-- A machine that also stores values, at places and in maps. -/
structure Memory (σ V P : Type) extends Machine σ V P where
  store : P → V → σ → σ
  mapSet : V → V → V → σ → σ
  load_store : ∀ p v s, load p (store p v s) = some v
  get_mapSet : ∀ map key v s, compute "map.get" [map, key] (mapSet map key v s) = some v

variable {σ V P : Type} (m : Memory σ V P)

def changing (f : σ → σ) : Run σ Unit := fun s => some ((), f s)

def ArithmeticOp.instruction : ArithmeticOp → String
  | .add => "add"
  | .sub => "sub"
  | .mul => "mul"
  | .div => "div"
  | .rem => "rem"
  | .and => "and"
  | .or => "or"
  | .xor => "xor"
  | .shl => "shl"
  | .shr => "shr"

/-- `emit_binary_values`. -/
def arithmetic (op : ArithmeticOp) (old v : V) : Run σ V :=
  reading (m.compute op.instruction [old, v])

/-- `emit_str_cat`. -/
def append (old v : V) : Run σ V := reading (m.compute "str.cat" [old, v])

def execStatement : Statement → Run σ Unit
  | .update place op value => do
    let p ← execPlace m.toMachine place
    let v ← exec m.toMachine value
    let old ← m.get p
    let result ← arithmetic m op old v
    changing (m.store p result)
  | .overloaded place occ value => do
    let p ← execPlace m.toMachine place
    let old ← m.get p
    let v ← exec m.toMachine value
    let result ← m.perform occ [m.pointer (m.temporary old), v]
    changing (m.store p result)
  | .mapUpdate map key op value => do
    let p ← execPlace m.toMachine map
    let k ← exec m.toMachine key
    let v ← exec m.toMachine value
    let old ← reading (m.compute "map.get" [m.pointer p, k])
    let result ← arithmetic m op old v
    changing (m.mapSet (m.pointer p) k result)
  | .mapAppend map key value => do
    let p ← execPlace m.toMachine map
    let k ← exec m.toMachine key
    let v ← exec m.toMachine value
    let old ← reading (m.compute "map.get" [m.pointer p, k])
    let result ← append m old v
    changing (m.mapSet (m.pointer p) k result)

end Runs

section Meaning
variable {σ V P : Type} (d : Declarations) (m : Memory σ V P)

/-- What an assignment writes to. -/
inductive Location (V P : Type) where
  | place (p : P)
  | entry (map key : V)

def readLocation : Location V P → σ → Option V
  | .place p => m.load p
  | .entry map key => m.compute "map.get" [map, key]

def writeLocation : Location V P → V → σ → σ
  | .place p => m.store p
  | .entry map key => m.mapSet map key

/-- The evaluation of the subexpressions of a target, by the code that is emitted for them. -/
def locate (target : Expr) : Run σ (Location V P) :=
  match target with
  | .index obj index =>
    if isMap (typeOf d obj) then
      match (emitLvalue d obj).place?, emitExpr d index with
      | some map, some key => do
        let p ← execPlace m.toMachine map
        let k ← exec m.toMachine key
        return .entry (m.pointer p) k
      | _, _ => reading fun _ => none
    else
      match (emitLvalue d target).place? with
      | some place => do return .place (← execPlace m.toMachine place)
      | none => reading fun _ => none
  | _ =>
    match (emitLvalue d target).place? with
    | some place => do return .place (← execPlace m.toMachine place)
    | none => reading fun _ => none

def evaluate (e : Expr) : Run σ V :=
  match emitExpr d e with
  | some c => exec m.toMachine c
  | none => reading fun _ => none

/-- The operator of an assignment, on the old value and the one on the right. -/
def operate (a : Compound) (old v : V) : Run σ V :=
  match a.overload with
  | some overload => do
    let receiver ← projectAll d m.toMachine (typeOf d a.target) overload.path old
    m.perform overload.occ [m.pointer (m.temporary receiver), v]
  | none => if typeOf d a.target = str then append m old v else arithmetic m a.op old v

/-- The assignment `t = t op e`, with the subexpressions of `t` evaluated once, and its old value
read before `e` is evaluated. -/
def assigned (a : Compound) : Run σ Unit := do
  let location ← locate d m a.target
  let old ← reading (readLocation m location)
  let v ← evaluate d m a.value
  let result ← operate d m a old v
  changing (writeLocation m location result)

/-- A compound assignment is compiled, and does in every state what it means. -/
def AssignsOperation (a : Compound) : Prop :=
  ∃ code, emitCompound d a = some code ∧ ∀ s, execStatement m code s = assigned d m a s

end Meaning

end NewClLang.CompoundAssignments
