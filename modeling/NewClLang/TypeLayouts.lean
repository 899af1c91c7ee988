import NewClLang.DataLayouts
import NewClLang.TypeRefs

set_option autoImplicit false

/-!
# The layouts that the compiler computes

`llvm_type` and `LLVMLayout` of `compiler/llvm_layout.py`, and `map_desc` of `compiler/llvm_map.py`.
-/
namespace NewClLang.TypeLayouts
open DataLayouts
open TypeRefs (TypeRef)

section Tables

/-- The keys of `ENUM_VARIANTS` and `IFACE_METHODS`, and `STRUCT_FIELDS`. A name is declared once at
global scope, where `raw` stands from the beginning. -/
structure TypeTables where
  enums : String → Bool
  ifaces : String → Bool
  structs : String → Option (List (String × TypeRef))
  enum_once : ∀ n, enums n = true → ifaces n = false ∧ structs n = none
  iface_once : ∀ n, ifaces n = true → structs n = none
  raw_enum : enums "raw" = false
  raw_iface : ifaces "raw" = false
  raw_struct : structs "raw" = none

/-- `NotImplementedError`, by its message, or a recursion that has not come to its end. -/
inductive Unsupported where
  | llvm (t : TypeRef)
  | sizeof (t : TypeRef)
  | alignof (t : TypeRef)
  | sizeofVoid
  | alignofVoid
  | unfinished

end Tables

section LLVM
variable (D : TypeTables)

def strType : IRType := .literal [.pointer, .int 64]

def rawSliceType : IRType := .literal [.pointer, .int 64, .int 64]

def errorType : IRType := .literal [strType, rawSliceType]

def mapType : IRType := .literal [.pointer, .pointer, .int 64, .int 64, .int 64]

def isMap : TypeRef → List TypeRef → Bool
  | .named name, [_, _] => name == "map"
  | _, _ => false

/-- `INT_TYPES`. -/
def intBits : String → Option ℕ
  | "i8" => some 8
  | "i16" => some 16
  | "i32" => some 32
  | "i64" => some 64
  | "u8" => some 8
  | "u16" => some 16
  | "u32" => some 32
  | "u64" => some 64
  | "bool" => some 1
  | "rune" => some 32
  | _ => none

def llvmNamed (name : String) : Except Unsupported IRType :=
  if name = "void" then .ok .void
  else
    match intBits name with
    | some bits => .ok (.int bits)
    | none =>
      if name = "f32" then .ok .float
      else if name = "f64" then .ok .double
      else if name = "str" then .ok strType
      else if name = "error" then .ok errorType
      else if name = "nc_map" then .ok mapType
      else if D.ifaces name then .ok (.literal [.pointer, .pointer])
      else if name = "raw" then .ok .pointer
      else if D.enums name then .ok (.int 32)
      else if (D.structs name).isSome then .ok (.identified name)
      else .error (.llvm (.named name))

mutual

/-- `llvm_type`. A pointer is typed in the source; its layout does not depend on that. -/
def llvmType : TypeRef → Except Unsupported IRType
  | .named name => llvmNamed D name
  | .generic base args =>
    if isMap base args then .ok mapType else .error (.llvm (.generic base args))
  | .function params ret _ => do
    let _ ← llvmType ret
    let _ ← llvmTypes params
    .ok (.literal [.pointer, .pointer])
  | .pointer inner _ => do
    let _ ← llvmType inner
    .ok .pointer
  | .slice elem => do
    let _ ← llvmType elem
    .ok (.literal [.pointer, .int 64, .int 64])
  | .array _ elem => do
    let _ ← llvmType elem
    .ok .pointer

def llvmTypes : List TypeRef → Except Unsupported (List IRType)
  | [] => .ok []
  | t :: ts => do
    let llvm ← llvmType t
    let rest ← llvmTypes ts
    .ok (llvm :: rest)

end

/-- The bodies that `register_structs` gives to the identified types. -/
def bodies (name : String) : Option (List IRType) :=
  (D.structs name).bind fun fields => (llvmTypes D (fields.map (·.2))).toOption

end LLVM

section Sizes
variable (D : TypeTables)

/-- The results of a function over a list, or the first error. -/
def eachOk {α β ε : Type} (f : α → Except ε β) : List α → Except ε (List β)
  | [] => .ok []
  | a :: as => do
    let b ← f a
    let bs ← eachOk f as
    .ok (b :: bs)

def alignofNamed (alignof : TypeRef → Except Unsupported ℕ) (name : String) :
    Except Unsupported ℕ :=
  if name = "void" then .error .alignofVoid
  else if name ∈ ["i8", "u8", "bool"] then .ok 1
  else if name ∈ ["i16", "u16"] then .ok 2
  else if name ∈ ["i32", "u32", "f32", "rune"] ∨ D.enums name = true then .ok 4
  else if name ∈ ["i64", "u64", "f64", "str", "error", "nc_map"] then .ok 8
  else if D.ifaces name = true then .ok 8
  else
    match D.structs name with
    | some fields => do
      let aligns ← eachOk alignof (fields.map (·.2))
      .ok (aligns.max?.getD 1)
    | none => .error (.alignof (.named name))

/-- `alignof_type`. -/
def alignofType : ℕ → TypeRef → Except Unsupported ℕ
  | 0, _ => .error .unfinished
  | fuel + 1, t =>
    match t with
    | .named name => alignofNamed D (alignofType fuel) name
    | .generic base args => if isMap base args then .ok 8 else .error (.alignof t)
    | .pointer _ _ => .ok 8
    | .function _ _ _ => .ok 8
    | .slice _ => .ok 8
    | .array _ _ => .ok 8

/-- The loop of `sizeof_fields`. -/
def sizeofLoop (sizeof alignof : TypeRef → Except Unsupported ℕ) :
    ℕ → ℕ → List TypeRef → Except Unsupported ℕ
  | offset, largest, [] => .ok (alignTo offset largest)
  | offset, largest, t :: ts => do
    let align ← alignof t
    let size ← sizeof t
    sizeofLoop sizeof alignof (alignTo offset align + size) (max largest align) ts

def sizeofNamed (sizeof alignof : TypeRef → Except Unsupported ℕ) (name : String) :
    Except Unsupported ℕ :=
  if name = "void" then .error .sizeofVoid
  else if name ∈ ["i8", "u8", "bool"] then .ok 1
  else if name ∈ ["i16", "u16"] then .ok 2
  else if name ∈ ["i32", "u32", "f32", "rune"] ∨ D.enums name = true then .ok 4
  else if name ∈ ["i64", "u64", "f64"] then .ok 8
  else if name = "str" then .ok 16
  else if name = "error" then .ok 40
  else if name = "nc_map" then .ok 40
  else if name = "raw" then .ok 8
  else if D.ifaces name = true then .ok 16
  else
    match D.structs name with
    | some fields => sizeofLoop sizeof alignof 0 1 (fields.map (·.2))
    | none => .error (.sizeof (.named name))

/-- `sizeof_type`. -/
def sizeofType : ℕ → TypeRef → Except Unsupported ℕ
  | 0, _ => .error .unfinished
  | fuel + 1, t =>
    match t with
    | .named name => sizeofNamed D (sizeofType fuel) (alignofType D fuel) name
    | .generic base args => if isMap base args then .ok 40 else .error (.sizeof t)
    | .pointer _ _ => .ok 8
    | .function _ _ _ => .ok 16
    | .slice _ => .ok 24
    | .array _ _ => .ok 8

/-- `sizeof_fields`. -/
def sizeofFields (fuel : ℕ) (ts : List TypeRef) : Except Unsupported ℕ :=
  sizeofLoop (sizeofType D fuel) (alignofType D fuel) 0 1 ts

/-- `aligned_sizeof_type`. -/
def alignedSizeofType (fuel : ℕ) (t : TypeRef) : Except Unsupported ℕ := do
  let size ← sizeofType D fuel t
  let align ← alignofType D fuel t
  .ok (alignTo size align)

/-- The numbers of `MAP_DESC_TYPE`. -/
structure MapDesc where
  keySize : ℕ
  valueSize : ℕ
  entrySize : ℕ
  keyOffset : ℕ
  valueOffset : ℕ
  stateOffset : ℕ
deriving DecidableEq, Repr

/-- `map_desc`. -/
def mapDesc (fuel : ℕ) (key value : TypeRef) : Except Unsupported MapDesc := do
  let keySize ← sizeofType D fuel key
  let valueSize ← sizeofType D fuel value
  let keyAlign ← alignofType D fuel key
  let valueAlign ← alignofType D fuel value
  let keyOffset := 0
  let valueOffset := alignTo (keyOffset + keySize) valueAlign
  let stateOffset := alignTo (valueOffset + valueSize) 4
  let entrySize := alignTo (stateOffset + 4) (max (max (max 8 keyAlign) valueAlign) 4)
  .ok ⟨keySize, valueSize, entrySize, keyOffset, valueOffset, stateOffset⟩

end Sizes

end NewClLang.TypeLayouts
