import NewClLang.Comparisons

set_option autoImplicit false

/-!
# Accesses to fields and elements

The expressions that `emit_expr` and `emit_lvalue` take apart, the code they emit, and what it does
on a machine. An operation stands for every other expression: a literal, an operator, a call. What
the blocks of `if`, `match`, `err?` and functions do belongs to the operation; the expressions in
them are emitted for themselves.
-/
namespace NewClLang.AccessExpressions
open TypeRefs Comparisons

section Syntax

/-- `compute` at most reads the state, and `perform` may change it: a call, an allocation. -/
inductive Operation where
  | compute (name : String)
  | perform (occ : ℕ)
deriving DecidableEq

/-- Expressions as the type checker leaves them, with promoted fields spelled out. -/
inductive Expr where
  | constant (text : String) (type : TypeRef)
  | variable (name : String) (type : TypeRef)
  | operation (op : Operation) (type : TypeRef) (operands : List Expr)
  /-- An overloaded operator: a `derived` one is written with its receiver last. -/
  | overloaded (occ : ℕ) (type : TypeRef) (path : List String) (derived : Bool) (receiver : Expr)
      (others : List Expr)
  | structLiteral (op : Operation) (name : String) (names : List String) (values : List Expr)
  | field (obj : Expr) (name : String)
  | index (obj index : Expr)
  | slice (occ : ℕ) (obj : Expr) (bounds : List Expr)
  | method (occ : ℕ) (type : TypeRef) (obj : Expr) (args : List Expr)
  /-- `has`, `delete` and `clear`. -/
  | mapCall (op : Operation) (type : TypeRef) (map : Expr) (args : List Expr)

end Syntax

section Types
variable (d : Declarations)

def i32 : TypeRef := .named "i32"

/-- The type of a field. `ptr`, `len` and `cap` are there for the standard library. -/
def fieldType (obj : TypeRef) (name : String) : Option TypeRef :=
  match obj with
  | .slice elem =>
    if name = "ptr" then some (.pointer elem true)
    else if name = "len" ∨ name = "cap" then some (.named "u64")
    else none
  | .pointer inner false => (structFields d inner).bind (·.lookup name)
  | t =>
    if t = str then
      if name = "ptr" then some (.pointer (.named "i8") true)
      else if name = "len" then some (.named "u64")
      else none
    else (structFields d t).bind (·.lookup name)

/-- The type of an element. -/
def elementType : TypeRef → TypeRef
  | .slice elem => elem
  | .array _ elem => elem
  | .generic _ [_, value] => value
  | _ => i32

/-- `node.type`. -/
def typeOf : Expr → TypeRef
  | .constant _ type => type
  | .variable _ type => type
  | .operation _ type _ => type
  | .overloaded _ type _ _ _ _ => type
  | .structLiteral (.compute _) name _ _ => .named name
  | .structLiteral (.perform _) name _ _ => .pointer (.named name) false
  | .field obj name => (fieldType d (typeOf obj) name).getD (.named "void")
  | .index obj _ => elementType (typeOf obj)
  | .slice _ obj _ =>
    match typeOf obj with
    | .array _ elem => .slice elem
    | t => t
  | .method _ type _ _ => type
  | .mapCall _ type _ _ => type

def declaredNames (name : String) : List String :=
  ((structFields d (.named name)).getD []).map Prod.fst

mutual

/-- `walk_expr`: the object of an access is of the right type, and a struct literal gives each field
once. -/
def acceptsExpr : Expr → Bool
  | .constant _ _ => true
  | .variable _ _ => true
  | .operation _ _ operands => acceptsExprs operands
  | .overloaded _ _ _ _ receiver others =>
    acceptsExpr receiver && acceptsExprs others && (structFields d (typeOf d receiver)).isSome
  | .structLiteral _ name names values =>
    acceptsExprs values && decide (names.length = values.length) && decide names.Nodup &&
      names.isPerm (declaredNames d name)
  | .field obj name => acceptsExpr obj && (fieldType d (typeOf d obj) name).isSome
  | .index obj index =>
    acceptsExpr obj && acceptsExpr index &&
      match typeOf d obj with
      | .slice _ => decide (typeOf d index = i32)
      | .array _ _ => decide (typeOf d index = i32)
      | .generic (.named "map") [key, _] => isAssignable d (typeOf d index) key
      | t => decide (t = str) && decide (typeOf d index = i32)
  | .slice _ obj bounds =>
    acceptsExpr obj && acceptsExprs bounds &&
      (isSlice (typeOf d obj) || isArray (typeOf d obj) || decide (typeOf d obj = str))
  | .method _ _ obj args =>
    acceptsExpr obj && acceptsExprs args &&
      match typeOf d obj with
      | .pointer inner nullable => !nullable && (structFields d inner).isSome
      | t => decide (t = str) || isIface d t || (structFields d t).isSome
  | .mapCall _ _ map args => acceptsExpr map && acceptsExprs args && isMap (typeOf d map)

def acceptsExprs : List Expr → Bool
  | [] => true
  | e :: es => acceptsExpr e && acceptsExprs es

end

end Types

section Emission

mutual

/-- Code that comes to a value. `load`, `address` and `temporary` give what is stored at a place, a
pointer to it, and a pointer to a new slot with a value. -/
inductive Code where
  | constant (text : String)
  | load (place : Place)
  | address (place : Place)
  | temporary (value : Code)
  | operation (op : Operation) (operands : List Code)
  /-- What was emitted of a place before it was given up stays. -/
  | afterAttempt (attempt : Place) (value : Code)

/-- Code that comes to a place: `gep`. -/
inductive Place where
  | variable (name : String)
  | field (struct : Place) (name : String)
  | through (pointer : Code) (name : String)
  | element (source index : Code)

end

/-- What `emit_lvalue` does: it returns a place, or raises `NotImplementedError`. Nothing is kept of
what was emitted before an expression failed, as that expression fails again. -/
inductive Lvalue where
  | place (place : Place)
  | refused (attempt : Option Place)

def Lvalue.place? : Lvalue → Option Place
  | .place p => some p
  | .refused _ => none

def fieldPlace (obj : TypeRef) (p : Place) (name : String) : Place :=
  if TypeRefs.isPointer obj then .through (.load p) name else .field p name

/-- `emit_lvalue` of a field. -/
def fieldLvalue (obj : TypeRef) (name : String) : Lvalue → Lvalue
  | .place p => .place (fieldPlace obj p name)
  | .refused attempt => .refused attempt

/-- `emit_lvalue` of an element. -/
def elementLvalue (obj : TypeRef) (lvalue : Lvalue) (value index : Option Code) : Lvalue :=
  if isSlice obj then
    match value, index with
    | some source, some i => .place (.element source i)
    | _, _ => .refused none
  else
    match lvalue with
    | .refused attempt => .refused attempt
    | .place p =>
      if isArray obj then
        match index with
        | some i => .place (.element (.load p) i)
        | none => .refused none
      else .refused (some p)

/-- `map_pointer_for_expr`. -/
def mapPointer (lvalue : Lvalue) (value : Option Code) : Option Code :=
  match lvalue with
  | .place p => some (.address p)
  | .refused none => value.map .temporary
  | .refused (some attempt) => value.map fun c => .afterAttempt attempt (.temporary c)

/-- The nodes for which `emit_receiver_arg` calls `emit_lvalue`. -/
def isPlaceNode : Expr → Bool
  | .variable _ _ => true
  | .field _ _ => true
  | .index _ _ => true
  | _ => false

/-- `emit_receiver_arg`, for a struct. -/
def receiverArg (receiver : Expr) (lvalue : Lvalue) (value : Option Code) : Option Code :=
  if isPlaceNode receiver then lvalue.place?.map .address else value.map .temporary

/-- The receiver of `emit_method_call`. -/
def methodArg (isStruct : Bool) (obj : Expr) (lvalue : Lvalue) (value : Option Code) :
    Option Code :=
  if isStruct then receiverArg obj lvalue value else value

/-- What `emit_slice_expr` takes a slice of. -/
def sliceSource (obj : TypeRef) (lvalue : Lvalue) (value : Option Code) : Option Code :=
  if isArray obj then lvalue.place?.map .load
  else if isSlice obj ∨ obj = str then value
  else none

/-- Values given under names, in the order of other names. -/
def reorder {α : Type} (declared names : List String) (values : List α) : List α :=
  declared.filterMap fun name => (names.zip values).lookup name

variable (d : Declarations)

/-- A place below another, along a path of fields. -/
def descend (obj : TypeRef) (p : Place) : List String → Place
  | [] => p
  | name :: path =>
    descend ((fieldType d obj name).getD (.named "void")) (fieldPlace obj p name) path

/-- The receiver of `emit_binary` for an overloaded operator. -/
def overloadArg (receiver : Expr) (path : List String) (lvalue : Lvalue) (value : Option Code) :
    Option Code :=
  if path.isEmpty then receiverArg receiver lvalue value
  else lvalue.place?.map fun p => .temporary (.load (descend d (typeOf d receiver) p path))

mutual

/-- `emit_expr`. -/
def emitExpr : Expr → Option Code
  | .constant text _ => some (.constant text)
  | .variable name _ => some (.load (.variable name))
  | .operation op _ operands => do
    let codes ← emitExprs operands
    some (.operation op codes)
  | .overloaded occ _ path _ receiver others => do
    let arg ← overloadArg d receiver path (emitLvalue receiver) (emitExpr receiver)
    let codes ← emitExprs others
    some (.operation (.perform occ) (arg :: codes))
  | .structLiteral op name names values => do
    let codes ← emitExprs values
    some (.operation op (reorder (declaredNames d name) names codes))
  | .field obj name => (fieldLvalue (typeOf d obj) name (emitLvalue obj)).place?.map .load
  | .index obj index =>
    if isMap (typeOf d obj) then do
      let map ← mapPointer (emitLvalue obj) (emitExpr obj)
      let key ← emitExpr index
      some (.operation (.compute "map.get") [map, key])
    else if typeOf d obj = str then do
      let value ← emitExpr obj
      let i ← emitExpr index
      some (.operation (.compute "str.byte") [value, i])
    else
      (elementLvalue (typeOf d obj) (emitLvalue obj) (emitExpr obj) (emitExpr index)).place?.map
        .load
  | .slice occ obj bounds => do
    let source ← sliceSource (typeOf d obj) (emitLvalue obj) (emitExpr obj)
    let codes ← emitExprs bounds
    some (.operation (.perform occ) (source :: codes))
  | .method occ _ obj args => do
    let arg ← methodArg (structFields d (typeOf d obj)).isSome obj (emitLvalue obj) (emitExpr obj)
    let codes ← emitExprs args
    some (.operation (.perform occ) (arg :: codes))
  | .mapCall op _ map args => do
    let pointer ← mapPointer (emitLvalue map) (emitExpr map)
    let codes ← emitExprs args
    some (.operation op (pointer :: codes))

/-- `emit_lvalue`. -/
def emitLvalue : Expr → Lvalue
  | .variable name _ => .place (.variable name)
  | .field obj name => fieldLvalue (typeOf d obj) name (emitLvalue obj)
  | .index obj index =>
    elementLvalue (typeOf d obj) (emitLvalue obj) (emitExpr obj) (emitExpr index)
  | _ => .refused none

def emitExprs : List Expr → Option (List Code)
  | [] => some []
  | e :: es => do
    let code ← emitExpr e
    let codes ← emitExprs es
    some (code :: codes)

end

end Emission

section Runs

/-- A machine that runs the code, with values `V` and places `P`. Only `perform` changes the
state. -/
structure Machine (σ V P : Type) where
  constant : String → V
  slot : String → P
  fieldPlace : P → String → P
  element : V → V → Option P
  pointee : V → Option P
  pointer : P → V
  temporary : V → P
  fieldOf : V → String → V
  load : P → σ → Option V
  compute : String → List V → σ → Option V
  perform : ℕ → List V → σ → Option (V × σ)
  load_field : ∀ p name s, load (fieldPlace p name) s = (load p s).map (fieldOf · name)

abbrev Run (σ α : Type) := StateT σ Option α

variable {σ V P : Type}

def reading {α : Type} (f : σ → Option α) : Run σ α := fun s => (f s).map fun v => (v, s)

variable (m : Machine σ V P)

def Machine.act : Operation → List V → Run σ V
  | .compute name, vs => reading (m.compute name vs)
  | .perform occ, vs => m.perform occ vs

def Machine.get (p : P) : Run σ V := reading (m.load p)

mutual

def exec : Code → Run σ V
  | .constant text => pure (m.constant text)
  | .load p => do m.get (← execPlace p)
  | .address p => do return m.pointer (← execPlace p)
  | .temporary value => do return m.pointer (m.temporary (← exec value))
  | .operation op operands => do m.act op (← execs operands)
  | .afterAttempt attempt value => do
    let _ ← execPlace attempt
    exec value

def execPlace : Place → Run σ P
  | .variable name => pure (m.slot name)
  | .field struct name => do return m.fieldPlace (← execPlace struct) name
  | .through pointer name => do
    let v ← exec pointer
    let p ← reading fun _ => m.pointee v
    return m.fieldPlace p name
  | .element source index => do
    let v ← exec source
    let i ← exec index
    reading fun _ => m.element v i

def execs : List Code → Run σ (List V)
  | [] => pure []
  | c :: cs => do
    let v ← exec c
    let vs ← execs cs
    return v :: vs

end

end Runs

section Meaning

/-- An expression that stands for a place. -/
def isPlaced (d : Declarations) : Expr → Bool
  | .variable _ _ => true
  | .field obj _ => TypeRefs.isPointer (typeOf d obj) || isPlaced d obj
  | .index obj _ => isSlice (typeOf d obj) || isArray (typeOf d obj)
  | _ => false

variable {σ V P : Type} (d : Declarations) (m : Machine σ V P)

/-- The field of a value. -/
def project (obj : TypeRef) (name : String) (v : V) : Run σ V :=
  if TypeRefs.isPointer obj then do
    let p ← reading fun _ => m.pointee v
    m.get (m.fieldPlace p name)
  else return m.fieldOf v name

def projectAll (obj : TypeRef) : List String → V → Run σ V
  | [], v => pure v
  | name :: path, v => do
    projectAll ((fieldType d obj name).getD (.named "void")) path (← project m obj name v)

/-- A pointer to the place that an expression stands for, or to a temporary. -/
def pointing (placed : Bool) (place : Run σ P) (value : Run σ V) : Run σ V :=
  if placed then return m.pointer (← place)
  else return m.pointer (m.temporary (← value))

/-- The receiver of a method: a struct is passed by a pointer. -/
def methodReceiver (isStruct placed : Bool) (place : Run σ P) (value : Run σ V) : Run σ V :=
  if isStruct then pointing m placed place value else value

/-- The receiver of an overloaded operator: a field on the path is passed by a temporary. -/
def overloadReceiver (obj : TypeRef) (path : List String) (placed : Bool) (place : Run σ P)
    (value : Run σ V) : Run σ V :=
  if path.isEmpty then pointing m placed place value
  else do
    let v ← projectAll d m obj path (← value)
    return m.pointer (m.temporary v)

def sequence {α : Type} : List (Run σ α) → Run σ (List α)
  | [] => pure []
  | x :: xs => do
    let v ← x
    let vs ← sequence xs
    return v :: vs

mutual

/-- What an expression means: an access takes a part of the value of its object. Operands are
evaluated in the order in which they are emitted. -/
def eval : Expr → Run σ V
  | .constant text _ => pure (m.constant text)
  | .variable name _ => m.get (m.slot name)
  | .operation op _ operands => do m.act op (← sequence (evals operands))
  | .overloaded occ _ path _ receiver others => do
    let arg ← overloadReceiver d m (typeOf d receiver) path (isPlaced d receiver)
      (evalPlace receiver) (eval receiver)
    let vs ← sequence (evals others)
    m.perform occ (arg :: vs)
  | .structLiteral op name names values => do
    m.act op (← sequence (reorder (declaredNames d name) names (evals values)))
  | .field obj name => do project m (typeOf d obj) name (← eval obj)
  | .index obj index =>
    if isMap (typeOf d obj) then do
      let map ← pointing m (isPlaced d obj) (evalPlace obj) (eval obj)
      let key ← eval index
      reading (m.compute "map.get" [map, key])
    else do
      let v ← eval obj
      let i ← eval index
      if typeOf d obj = str then reading (m.compute "str.byte" [v, i])
      else m.get (← reading fun _ => m.element v i)
  | .slice occ obj bounds => do
    let source ← eval obj
    let vs ← sequence (evals bounds)
    m.perform occ (source :: vs)
  | .method occ _ obj args => do
    let arg ← methodReceiver m (structFields d (typeOf d obj)).isSome (isPlaced d obj)
      (evalPlace obj) (eval obj)
    let vs ← sequence (evals args)
    m.perform occ (arg :: vs)
  | .mapCall op _ map args => do
    let pointer ← pointing m (isPlaced d map) (evalPlace map) (eval map)
    let vs ← sequence (evals args)
    m.act op (pointer :: vs)

/-- The place of an expression that stands for one. -/
def evalPlace : Expr → Run σ P
  | .variable name _ => pure (m.slot name)
  | .field obj name =>
    if TypeRefs.isPointer (typeOf d obj) then do
      let v ← eval obj
      let p ← reading fun _ => m.pointee v
      return m.fieldPlace p name
    else do return m.fieldPlace (← evalPlace obj) name
  | .index obj index => do
    let v ← eval obj
    let i ← eval index
    reading fun _ => m.element v i
  | _ => reading fun _ => none

def evals : List Expr → List (Run σ V)
  | [] => []
  | e :: es => eval e :: evals es

end

/-- An expression is compiled, and on every machine the code does what the expression means. -/
def Yields (e : Expr) : Prop :=
  ∃ c, emitExpr d e = some c ∧
    ∀ (σ V P : Type) (m : Machine σ V P), exec m c = eval d m e

end Meaning

end NewClLang.AccessExpressions
