import NewClLang.Comparisons
import NewClLang.GraphSearch
import NewClLang.TypeRoundTrip

set_option autoImplicit false

/-!
# Properties of types

`hash_comparable_error_type`, `comparable_error_type` and `zero_value_error_type` of
`compiler/type_rules.py`, on types in either of their two forms. Each goes through a type in the
same way, with the types that it has seen, and differs in what it makes of one type.
-/
namespace NewClLang.TypeProperties
open TypeRefs TypeSyntax TypeTexts GraphSearch
open Comparisons (integerTypes floatTypes numericTypes)

section Declarations

/-- The types that a program declares. Their names are identifiers, and not those of `void` and
    `error`. -/
structure TypeDeclarations where
  structs : List (String × List (String × TypeRef))
  enums : List String
  ifaces : List String
  names : ∀ name ∈ structs.map Prod.fst ++ enums ++ ifaces,
    IsTypeName name ∧ name ≠ "void" ∧ name ≠ "error"
  fields : ∀ s ∈ structs, ∀ f ∈ s.2, WellNamed f.2

/-- The symbols that declare a type which is no interface. -/
inductive Symbol where
  | struct (fields : List (String × TypeRef))
  | enum

/-- `symtab.lookup`, and `lookup_struct` where a struct is found. -/
def TypeDeclarations.lookup (d : TypeDeclarations) (name : String) : Option Symbol :=
  match d.structs.lookup name with
  | some fields => some (.struct fields)
  | none => if name ∈ d.enums then some .enum else none

/-- A type as a string or as an object. -/
inductive TypeForm where
  | text (s : String)
  | object (r : TypeRef)

/-- `parse_type_ref`. -/
def TypeForm.ref : TypeForm → Option TypeRef
  | .text s => parseTypeRef s
  | .object r => some r

/-- What `==` and `in` compare. -/
def TypeForm.spelled : TypeForm → String
  | .text s => s
  | .object r => typeKey r

end Declarations

section Rules

def isPointerType : TypeRef → Bool
  | .pointer _ nullable => !nullable
  | _ => false

def isNullablePointerType : TypeRef → Bool
  | .pointer _ nullable => nullable
  | _ => false

/-- Whether `as_map_type` finds the type of a map. -/
def isMapType : TypeRef → Bool
  | .generic (.named name) [_, _] => name == "map"
  | _ => false

variable (d : TypeDeclarations)

/-- `is_iface_type`. -/
def isIfaceType (r : TypeRef) : Bool := d.ifaces.contains (typeKey r)

/-- What the fields of a struct, or nothing, says of a declared type. -/
def declaredVerdict (r : TypeRef) : Verdict TypeForm :=
  match d.lookup (typeKey r) with
  | none => .bad
  | some .enum => .good
  | some (.struct fields) => .parts (fields.map (fun f => .object f.2))

def hashVerdict (t : TypeForm) (r : TypeRef) : Verdict TypeForm :=
  if t.spelled ∈ floatTypes then .bad
  else if t.spelled ∈ numericTypes ++ ["bool", "str", "rune"] then .good
  else if t.spelled = "error" then .bad
  else if isPointerType r || isNullablePointerType r then .good
  else if isMapType r then .bad
  else if isSlice r || isArray r || isFn r then .bad
  else if isIfaceType d r then .bad
  else declaredVerdict d r

def comparableVerdict (t : TypeForm) (r : TypeRef) : Verdict TypeForm :=
  if t.spelled ∈ numericTypes ++ ["bool", "str", "rune"] then .good
  else if t.spelled = "error" then .bad
  else if isPointerType r || isNullablePointerType r then .good
  else if isMapType r then .bad
  else if isSlice r || isArray r || isFn r then .bad
  else if isIfaceType d r then .bad
  else declaredVerdict d r

/-- The element type of an array is passed on as a string. -/
def zeroVerdict (t : TypeForm) (r : TypeRef) : Verdict TypeForm :=
  if t.spelled = "void" then .bad
  else if t.spelled ∈ numericTypes ++ ["bool", "str", "rune"] then .good
  else if isPointerType r then .bad
  else if isNullablePointerType r then .good
  else if isMapType r then .good
  else
    match r with
    | .slice _ => .good
    | .array _ elem => .parts [.text (typeKey elem)]
    | .function _ _ _ => .good
    | r => if isIfaceType d r then .good else declaredVerdict d r

/-- A type is marked as seen with its key. -/
def lookByKey (verdict : TypeForm → TypeRef → Verdict TypeForm) (t : TypeForm) :
    Option (String × Verdict TypeForm) :=
  t.ref.map fun r => (typeKey r, verdict t r)

/-- A type is marked as seen itself. -/
def lookBySelf (verdict : TypeForm → TypeRef → Verdict TypeForm) (t : TypeForm) :
    Option (String × Verdict TypeForm) :=
  t.ref.map fun r => (t.spelled, verdict t r)

def hashComparableErrorType : ℕ → TypeForm → List String → Option (Found TypeForm String) :=
  search (lookByKey (hashVerdict d))

def zeroValueErrorType : ℕ → TypeForm → List String → Option (Found TypeForm String) :=
  search (lookByKey (zeroVerdict d))

def comparableErrorType : ℕ → TypeForm → List String → Option (Found TypeForm String) :=
  search (lookBySelf (comparableVerdict d))

end Rules

section Matrix

/-- The rows of the matrix of type properties in `docs/generics.md`. -/
inductive Kind where
  | integer
  | float
  | bool
  | str
  | rune
  | enum
  | pointer
  | nullablePointer
  | slice
  | array
  | map
  | function
  | iface
  | struct
  | void
  /-- A type that the matrix does not name. -/
  | other

inductive Entry where
  | yes
  | no
  | ifParts

def eqColumn : Kind → Entry
  | .integer | .float | .bool | .str | .rune | .enum | .pointer | .nullablePointer => .yes
  | .struct => .ifParts
  | .slice | .array | .map | .function | .iface | .void | .other => .no

def hashColumn : Kind → Entry
  | .integer | .bool | .str | .rune | .enum | .pointer | .nullablePointer => .yes
  | .struct => .ifParts
  | .float | .slice | .array | .map | .function | .iface | .void | .other => .no

def zeroColumn : Kind → Entry
  | .integer | .float | .bool | .str | .rune | .enum | .nullablePointer | .slice | .map | .function
  | .iface => .yes
  | .array | .struct => .ifParts
  | .pointer | .void | .other => .no

variable (d : TypeDeclarations)

def namedKind (name : String) : Kind :=
  if name ∈ floatTypes then .float
  else if name ∈ integerTypes then .integer
  else if name = "bool" then .bool
  else if name = "str" then .str
  else if name = "rune" then .rune
  else if name = "void" then .void
  else if name ∈ d.ifaces then .iface
  else
    match d.lookup name with
    | none => .other
    | some .enum => .enum
    | some (.struct _) => .struct

def kind : TypeRef → Kind
  | .named name => namedKind d name
  | .pointer _ nullable => if nullable then .nullablePointer else .pointer
  | .slice _ => .slice
  | .array _ _ => .array
  | .function _ _ _ => .function
  | r => if isMapType r then .map else .other

/-- The types of the fields of a struct, and the type of the elements of an array. -/
def partsOf : TypeRef → List TypeRef
  | .named name =>
    match d.lookup name with
    | some (.struct fields) => fields.map Prod.snd
    | _ => []
  | .array _ elem => [elem]
  | _ => []

/-- A part that the entry for a type refers to. -/
def PartOf (column : Kind → Entry) (r s : TypeRef) : Prop :=
  column (kind d r) = .ifParts ∧ s ∈ partsOf d r

/-- No type without the property can be reached through parts. -/
def Has (column : Kind → Entry) (r : TypeRef) : Prop :=
  ∀ s, Relation.ReflTransGen (PartOf d column) r s → column (kind d s) ≠ .no

/-- Where a type can be used as a key of a map, it can be compared. -/
theorem eq_of_hash {r : TypeRef} (h : Has d hashColumn r) : Has d eqColumn r := by
  have hentries : ∀ k, eqColumn k = .ifParts → hashColumn k = .ifParts := by
    intro k hk
    cases k <;> first | rfl | cases hk
  have hyes : ∀ k, hashColumn k ≠ .no → eqColumn k ≠ .no := by
    intro k hk
    cases k <;> first | exact hk | exact fun h => nomatch h
  intro s hs
  refine hyes _ (h s ?_)
  have hle : PartOf d eqColumn ≤ PartOf d hashColumn := fun a b hpart =>
    ⟨hentries _ hpart.1, hpart.2⟩
  exact Relation.ReflTransGen.mono hle _ _ hs

end Matrix

end NewClLang.TypeProperties
