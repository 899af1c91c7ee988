import NewClLang.OrderedComparisons
import NewClLang.TypeRefs

set_option autoImplicit false

/-!
# Comparison operators

What the type checker lets through of the operators `==`, `!=`, `<`, `<=`, `>` and `>=`
(`walk_expr`, `comparable_error_type`), and what the code generator makes of them (`emit_binary`,
`emit_struct_eq`, `emit_eq_values`).
-/
namespace NewClLang.Comparisons
open OrderedComparisons TypeRefs

section Declarations

def integerTypes : List String := ["i8", "i16", "i32", "i64", "u8", "u16", "u32", "u64"]

def floatTypes : List String := ["f32", "f64"]

/-- `NUMERIC_TYPES`. -/
def numericTypes : List String := integerTypes ++ floatTypes

/-- `UNSIGNED_INT_TYPES`. -/
def unsignedIntTypes : List String := ["u8", "u16", "u32", "u64", "bool", "rune"]

/-- The types a program does not declare. -/
def builtinTypes : List String := numericTypes ++ ["bool", "rune", "str", "error", "__nil"]

/-- What a name of a type stands for. -/
inductive Declaration where
  | struct (fields : List (String × TypeRef))
  | enum (variants : List String)
  | iface
deriving DecidableEq

/-- The types a program declares, each name once, and what `__lt__` is for its structs. -/
structure Declarations where
  declared : String → Option Declaration
  /-- `pointer_implements_iface`. -/
  implements : TypeRef → String → Bool
  /-- The embedded fields and the receiver that `validate_operator_method` finds for `__lt__`. -/
  orderMethod : String → Option (List String × String)
  apart : ∀ name ∈ builtinTypes, declared name = none

variable (d : Declarations)

/-- `STRUCT_FIELDS`, where a type is a struct. -/
def structFields : TypeRef → Option (List (String × TypeRef))
  | .named name =>
    match d.declared name with
    | some (.struct fields) => some fields
    | _ => none
  | _ => none

def isPointer : TypeRef → Bool
  | .pointer _ _ => true
  | _ => false

def isNullablePointer : TypeRef → Bool
  | .pointer _ nullable => nullable
  | _ => false

def isNumeric : TypeRef → Bool
  | .named name => numericTypes.contains name
  | _ => false

def isIface : TypeRef → Bool
  | .named name => d.declared name = some .iface
  | _ => false

def nil : TypeRef := .named "__nil"

def str : TypeRef := .named "str"

def rune : TypeRef := .named "rune"

end Declarations

section Checking
variable (d : Declarations)

/-- `is_assignable_type`. -/
def isAssignable (actual expected : TypeRef) : Bool :=
  if actual = expected then true
  else if actual = str ∧ expected = .named "error" then true
  else
    match expected with
    | .named name =>
      if isIface d expected then d.implements actual name else false
    | .pointer inner true => actual = nil || actual = .pointer inner false
    | _ => false

/-- `comparable_error_type`: the types that have been seen, where no type is found that cannot be
compared. -/
def comparableWithin : ℕ → List TypeRef → TypeRef → Option (List TypeRef)
  | 0, _, _ => none
  | fuel + 1, seen, t =>
    if t ∈ seen then some seen
    else
      match t with
      | .named name =>
        if name ∈ numericTypes ++ ["bool", "str", "rune"] then some (t :: seen)
        else if name = "error" then none
        else
          match d.declared name with
          | some (.struct fields) =>
            fields.foldlM (fun seen field => comparableWithin fuel seen field.2) (t :: seen)
          | some (.enum _) => some (t :: seen)
          | _ => none
      | .pointer _ _ => some (t :: seen)
      | _ => none

/-- The mark that `walk_expr` leaves on an operator that is overloaded. -/
structure Overload where
  path : List String
  base : String
  receiverRight : Bool
  negate : Bool

/-- `<`, and `DERIVED_ORDER_FROM_LT`; `==` and `!=` are not overloaded. -/
def derivedOrder : Predicate → Option (Bool × Bool)
  | .lt => some (false, false)
  | .le => some (true, true)
  | .gt => some (true, false)
  | .ge => some (false, true)
  | .eq | .ne => none

/-- The overloading of an operator between two structs. -/
def overload (op : Predicate) (left right : TypeRef) : Option Overload :=
  match derivedOrder op, left with
  | some (receiverRight, negate), .named name =>
    if (structFields d left).isSome ∧ right = left then
      (d.orderMethod name).map fun (path, base) => ⟨path, base, receiverRight, negate⟩
    else none
  | _, _ => none

/-- `walk_expr` at a comparison. -/
def accepts (fuel : ℕ) (op : Predicate) (left right : TypeRef) : Bool :=
  if op = .eq ∨ op = .ne then
    if left = nil ∨ right = nil then isNullablePointer (if left = nil then right else left)
    else isAssignable d right left && (comparableWithin d fuel [] left).isSome
  else if left = rune ∨ right = rune then false
  else if isPointer left || isPointer right then false
  else if left = str ∨ right = str then isAssignable d right left
  else if isNumeric left && isNumeric right then isAssignable d right left
  else (overload d op left right).isSome

end Checking

section Values

inductive Value where
  | int (width : ℕ) (bits : BitVec width)
  | float (f : Format) (bits : BitVec f.width)
  | str (bytes : List UInt8)
  | pointer (address : ℕ)
  | struct (fields : List Value)
  /-- A slice, an array, a map, a function, an error or an interface. -/
  | other

/-- `INT_TYPES`. -/
def intWidth (name : String) : Option ℕ :=
  [("i8", 8), ("i16", 16), ("i32", 32), ("i64", 64), ("u8", 8), ("u16", 16), ("u32", 32),
    ("u64", 64), ("bool", 1), ("rune", 32)].lookup name

/-- The formats of `FLOAT_TYPES`. -/
def floatFormat (name : String) : Option Format :=
  [("f32", binary32), ("f64", binary64)].lookup name

/-- How the values of a type are laid out. -/
inductive Layout where
  | int (width : ℕ)
  | float (f : Format)
  | str
  | pointer
  | struct (fields : List (String × TypeRef))
  | other

variable (d : Declarations)

/-- `llvm_type`. The value of `nil` is a pointer. -/
def llvmType : TypeRef → Layout
  | .named name =>
    match intWidth name, floatFormat name with
    | some width, _ => .int width
    | none, some f => .float f
    | none, none =>
      if name = "str" then .str
      else if name = "__nil" then .pointer
      else
        match d.declared name with
        | some (.enum _) => .int 32
        | some (.struct fields) => .struct fields
        | _ => .other
  | .pointer _ _ => .pointer
  | _ => .other

mutual

/-- A value of a type. -/
def HasType : Value → TypeRef → Prop
  | .int width _, t => llvmType d t = .int width
  | .float f _, t => llvmType d t = .float f
  | .str _, t => llvmType d t = .str
  | .pointer address, t => llvmType d t = .pointer ∧ (t = nil → address = 0)
  | .struct values, t => ∃ fields, llvmType d t = .struct fields ∧ HaveTypes values fields
  | .other, t => llvmType d t = .other

def HaveTypes : List Value → List (String × TypeRef) → Prop
  | [], [] => True
  | value :: values, field :: fields => HasType value field.2 ∧ HaveTypes values fields
  | _, _ => False

end

end Values

section Runtime

/-- `memcmp`: the first bytes that differ decide. -/
def memcmp : ℕ → List UInt8 → List UInt8 → ℤ
  | n + 1, x :: xs, y :: ys =>
    if x = y then memcmp n xs ys else (x.toNat : ℤ) - y.toNat
  | _, _, _ => 0

/-- `__nc_str_eq`. -/
def strEq (a b : List UInt8) : ℤ :=
  if a.length ≠ b.length then 0
  else if a.length = 0 then 1
  else if memcmp a.length a b = 0 then 1 else 0

/-- `__nc_str_cmp_ptr`. -/
def strCmp (a b : List UInt8) : ℤ :=
  let n := if a.length < b.length then a.length else b.length
  if n ≠ 0 ∧ memcmp n a b < 0 then -1
  else if n ≠ 0 ∧ 0 < memcmp n a b then 1
  else if a.length < b.length then -1
  else if b.length < a.length then 1
  else 0

end Runtime

section Emission
variable (d : Declarations)

/-- `emit_str_eq`. -/
def emitStrEq : Value → Value → Option Bool
  | .str a, .str b => some (decide (strEq a b ≠ 0))
  | _, _ => none

/-- `emit_str_cmp`, and the comparison of its result with zero. -/
def emitStrOrder (op : Predicate) : Value → Value → Option Bool
  | .str a, .str b => some (op.holds (strCmp a b) 0)
  | _, _ => none

/-- `icmp`, on integers as the predicate reads them and on pointers. -/
def icmp (unsigned : Bool) (op : Predicate) : Value → Value → Option Bool
  | .int v x, .int w y =>
    if h : w = v then
      let y := y.cast h
      some (if unsigned then op.holds x.toNat y.toNat else op.holds x.toInt y.toInt)
    else none
  | .pointer a, .pointer b => some (op.holds a b)
  | _, _ => none

/-- `emit_float_binary`. -/
def emitFloatBinary (op : Predicate) : Value → Value → Option Bool
  | .float f x, .float g y =>
    if h : g = f then some (ordered op x (y.cast (congrArg Format.width h))) else none
  | _, _ => none

/-- `emit_binary_values`. -/
def emitBinaryValues (left : Value) (op : Predicate) (right : Value) (t : TypeRef) : Option Bool :=
  match t with
  | .named name =>
    if name ∈ floatTypes then emitFloatBinary op left right
    else icmp (decide (name ∈ unsignedIntTypes)) op left right
  | _ => icmp false op left right

mutual

/-- `emit_eq_values`. -/
def emitEqValues (t : TypeRef) : Value → Value → Option Bool
  | .struct left, .struct right =>
    match structFields d t with
    | some fields => emitStructEq fields left right true
    | none => none
  | left, right =>
    if t = str then emitStrEq left right
    else
      match structFields d t with
      | some fields => if fields = [] then some true else none
      | none => emitBinaryValues left .eq right t

/-- The loop of `emit_struct_eq`. -/
def emitStructEq : List (String × TypeRef) → List Value → List Value → Bool → Option Bool
  | [], _, _, result => some result
  | field :: fields, left :: lefts, right :: rights, result =>
    match emitEqValues field.2 left right with
    | some eq => emitStructEq fields lefts rights (result && eq)
    | none => none
  | _, _, _, _ => none

end

/-- A call of a method with a receiver and an argument, which may change the state. -/
abbrev MethodCall (σ : Type) := String → Value → Value → σ → Bool × σ

/-- The embedded struct that a path of fields leads to. -/
def followPath : List String → TypeRef → Value → Option Value
  | [], _, value => some value
  | name :: path, t, .struct values => do
    let fields ← structFields d t
    let index := fields.findIdx (·.1 = name)
    let field ← fields[index]?
    followPath path field.2 (← values[index]?)
  | _, _, _ => none

variable {σ : Type} (call : MethodCall σ)

/-- `emit_operator_method_call` for an overloaded comparison. -/
def emitOverload (o : Overload) (t : TypeRef) (left right : Value) (s : σ) : Option (Bool × σ) := do
  let receiver ← followPath d o.path t (if o.receiverRight then right else left)
  let (result, s) := call o.base receiver (if o.receiverRight then left else right) s
  some (if o.negate then !result else result, s)

/-- `emit_binary` for a comparison that is not overloaded. -/
def emitPlain (op : Predicate) (leftType rightType : TypeRef) (left right : Value) : Option Bool :=
  if (op = .eq ∨ op = .ne) ∧ (leftType = nil ∨ rightType = nil) then do
    let eq ← icmp true .eq left right
    some (if op = .ne then !eq else eq)
  else if leftType = str ∧ (op = .eq ∨ op = .ne) then do
    let eq ← emitStrEq left right
    some (if op = .ne then !eq else eq)
  else if leftType = str then emitStrOrder op left right
  else if (structFields d leftType).isSome ∧ (op = .eq ∨ op = .ne) then do
    let eq ← emitEqValues d leftType left right
    some (if op = .ne then !eq else eq)
  else emitBinaryValues left op right leftType

/-- `emit_binary` for a comparison. -/
def emitBinary (op : Predicate) (leftType rightType : TypeRef) (left right : Value) (s : σ) :
    Option (Bool × σ) :=
  match overload d op leftType rightType with
  | some o => emitOverload d call o leftType left right s
  | none => (emitPlain d op leftType rightType left right).map (·, s)

end Emission

end NewClLang.Comparisons
