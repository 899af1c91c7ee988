import NewClLang.ExceptOutcomes
import NewClLang.TypeProperties
import Mathlib.Data.List.Forall2

set_option autoImplicit false

/-!
# Hash and equality of keys

`emit_map_hash_value`, `emit_map_eq_value` and `emit_map_hash_mix` of `compiler/llvm_map.py`: the
code that is emitted for a type of keys, and its run on keys that are loaded from memory.
-/
namespace NewClLang.MapKeyFunctions
open ExceptOutcomes TypeRefs TypeSyntax TypeProperties
open Comparisons (Declarations Value intWidth memcmp)

section Emission

inductive HashCode where
  | str
  | struct (fields : List HashCode)
  | mix

inductive EqCode where
  | str
  | struct (fields : List EqCode)
  | icmp

/-- What ends an emission. -/
inductive Failure where
  | outOfFuel
  /-- `NotImplementedError`. -/
  | notImplemented (message : String)

abbrev Emission := Except Failure

/-- `self.struct_fields` and `self.enum_variants`. -/
structure KeyTypes where
  structFields : String → Option (List (String × TypeRef))
  enumVariants : String → Bool

variable (types : KeyTypes)

/-- `isinstance(typ, str) and (typ.startswith("*") or typ.startswith("?*"))`. -/
def isPointerText : TypeForm → Bool
  | .text s => ['*'].isPrefixOf s.toList || ['?', '*'].isPrefixOf s.toList
  | .object _ => false

/-- The fields of a struct, one after the other. -/
def emitFields {γ : Type} (emit : TypeRef → Emission γ) :
    List (String × TypeRef) → Emission (List γ)
  | [] => .ok []
  | field :: fields => do
    let code ← emit field.2
    let codes ← emitFields emit fields
    .ok (code :: codes)

/-- The types of fields are objects. The fuel bounds the nesting of structs. -/
def emitMapHashValue : ℕ → TypeForm → Emission HashCode
  | 0, _ => .error .outOfFuel
  | fuel + 1, typ =>
    if typ.spelled = "str" then .ok .str
    else
      match types.structFields typ.spelled with
      | some fields => (emitFields (fun t => emitMapHashValue fuel (.object t)) fields).map .struct
      | none =>
        if isPointerText typ then .ok .mix
        else if types.enumVariants typ.spelled || (intWidth typ.spelled).isSome then .ok .mix
        else .error (.notImplemented ("LLVM backend cannot hash map key " ++ typ.spelled))

def emitMapEqValue : ℕ → TypeForm → Emission EqCode
  | 0, _ => .error .outOfFuel
  | fuel + 1, typ =>
    if typ.spelled = "str" then .ok .str
    else
      match types.structFields typ.spelled with
      | some fields => (emitFields (fun t => emitMapEqValue fuel (.object t)) fields).map .struct
      | none => .ok .icmp

/-- The tables of a program that declares these types. -/
def declaredTypes (d : TypeDeclarations) : KeyTypes where
  structFields name := d.structs.lookup name
  enumVariants name := decide (name ∈ d.enums)

/-- The tables of a program for which comparisons are emitted. -/
def comparedTypes (c : Declarations) : KeyTypes where
  structFields name :=
    match c.declared name with
    | some (.struct fields) => some fields
    | _ => none
  enumVariants name :=
    match c.declared name with
    | some (.enum _) => true
    | _ => false

end Emission

section Fields
variable {γ : Type} {emit emit' : TypeRef → Emission γ} {fields : List (String × TypeRef)}

theorem emitFields_ok {codes : List γ} :
    emitFields emit fields = .ok codes ↔
      List.Forall₂ (fun field code => emit field.2 = .ok code) fields codes := by
  induction fields generalizing codes with
  | nil =>
    rw [emitFields, List.forall₂_nil_left_iff]
    exact ⟨fun h => (Except.ok.inj h).symm, fun h => by rw [h]⟩
  | cons field fields ih =>
    rw [emitFields, bind_eq_ok]
    constructor
    · rintro ⟨code, hcode, hrest⟩
      obtain ⟨codes', hcodes, hlist⟩ := bind_eq_ok.mp hrest
      cases hlist
      exact .cons hcode (ih.mp hcodes)
    · rintro (_ | ⟨hcode, hcodes⟩)
      exact ⟨_, hcode, bind_eq_ok.mpr ⟨_, ih.mpr hcodes, rfl⟩⟩

theorem emitFields_all :
    (∃ codes, emitFields emit fields = .ok codes) ↔ ∀ f ∈ fields, ∃ code, emit f.2 = .ok code := by
  induction fields with
  | nil => exact ⟨fun _ f hf => absurd hf List.not_mem_nil, fun _ => ⟨[], rfl⟩⟩
  | cons field fields ih =>
    rw [List.forall_mem_cons, ← ih]
    constructor
    · rintro ⟨codes, h⟩
      obtain ⟨code, hcode, hrest⟩ := bind_eq_ok.mp h
      obtain ⟨codes', hcodes, _⟩ := bind_eq_ok.mp hrest
      exact ⟨⟨code, hcode⟩, codes', hcodes⟩
    · rintro ⟨⟨code, hcode⟩, codes, hcodes⟩
      exact ⟨code :: codes, bind_eq_ok.mpr ⟨code, hcode, bind_eq_ok.mpr ⟨codes, hcodes, rfl⟩⟩⟩

theorem emitFields_mono (hle : ∀ t code, emit t = .ok code → emit' t = .ok code)
    {codes : List γ} (h : emitFields emit fields = .ok codes) :
    emitFields emit' fields = .ok codes :=
  emitFields_ok.mpr ((emitFields_ok.mp h).imp fun f code hcode => hle f.2 code hcode)

end Fields

section Loading

abbrev Memory := BitVec 64 → UInt8

/-- `llvm_type`, with the structs in it taken apart. -/
inductive KeyLayout where
  | int (width : ℕ)
  | pointer
  | str
  | struct (fields : List KeyLayout)
  | other

def keyLayout (c : Declarations) : ℕ → TypeRef → Emission KeyLayout
  | 0, _ => .error .outOfFuel
  | fuel + 1, t =>
    match Comparisons.llvmType c t with
    | .int width => .ok (.int width)
    | .pointer => .ok .pointer
    | .str => .ok .str
    | .struct fields => (emitFields (keyLayout c fuel) fields).map .struct
    | .float _ | .other => .ok .other

/-- A key as it is loaded. -/
inductive KeyValue where
  | int (width : ℕ) (bits : BitVec width)
  | pointer (address : BitVec 64)
  | str (ptr len : BitVec 64)
  | struct (fields : List KeyValue)
  | other

/-- The least significant byte stands first. -/
def readInt (m : Memory) (width : ℕ) (a : BitVec 64) : BitVec width :=
  let bytes := (List.range ((width + 7) / 8)).map (fun i => m (a + BitVec.ofNat 64 i))
  BitVec.ofNat width (bytes.foldr (fun byte rest => byte.toNat + 256 * rest) 0)

/-- The offsets of the fields of a struct, with whatever padding between them. -/
abbrev Offsets := List KeyLayout → ℕ → BitVec 64

variable (offsets : Offsets) (m : Memory)

mutual

def load : KeyLayout → BitVec 64 → KeyValue
  | .int width, a => .int width (readInt m width a)
  | .pointer, a => .pointer (readInt m 64 a)
  | .str, a => .str (readInt m 64 a) (readInt m 64 (a + 8))
  | .struct fields, a => .struct (loadFields (offsets fields) fields 0 a)
  | .other, _ => .other

def loadFields (offset : ℕ → BitVec 64) : List KeyLayout → ℕ → BitVec 64 → List KeyValue
  | [], _, _ => []
  | field :: fields, i, a => load field (a + offset i) :: loadFields offset fields (i + 1) a

end

/-- The bytes that a string refers to. -/
def bytesAt (ptr len : BitVec 64) : List UInt8 :=
  (List.range len.toNat).map (fun i => m (ptr + BitVec.ofNat 64 i))

mutual

/-- The value of the language that a loaded key stands for. -/
def meaning : KeyValue → Value
  | .int width bits => .int width bits
  | .pointer address => .pointer address.toNat
  | .str ptr len => .str (bytesAt m ptr len)
  | .struct fields => .struct (meanings fields)
  | .other => .other

def meanings : List KeyValue → List Value
  | [] => []
  | value :: values => meaning value :: meanings values

end

end Loading

section Runs
variable (m : Memory)

/-- `emit_map_hash_mix`. The integer is extended with zeros, or truncated. -/
def emitMapHashMix {width : ℕ} (h : BitVec 64) (value : BitVec width) : BitVec 64 :=
  (h ^^^ value.setWidth 64) * 1099511628211

/-- The loop over the bytes of a string. -/
def hashStr (ptr len idx h : BitVec 64) : BitVec 64 :=
  if idx < len then
    hashStr ptr len (idx + 1) (emitMapHashMix h (m (ptr + idx)).toBitVec)
  else h
termination_by len.toNat - idx.toNat
decreasing_by
  have hlt : idx.toNat < len.toNat := ‹idx < len›
  have hnext : (idx + 1).toNat = idx.toNat + 1 := by
    rw [BitVec.toNat_add_of_lt]
    · rfl
    · change idx.toNat + 1 < 2 ^ 64
      exact Nat.lt_of_le_of_lt hlt len.isLt
  omega

mutual

def runHash : HashCode → KeyValue → BitVec 64 → Option (BitVec 64)
  | .str, .str ptr len, h => some (hashStr m ptr len 0 h)
  | .struct codes, .struct values, h => runHashFields codes values h
  | .mix, .int _ bits, h => some (emitMapHashMix h bits)
  | .mix, .pointer address, h => some (emitMapHashMix h address)
  | _, _, _ => none

def runHashFields : List HashCode → List KeyValue → BitVec 64 → Option (BitVec 64)
  | [], [], h => some h
  | code :: codes, value :: values, h =>
    match runHash code value h with
    | some h => runHashFields codes values h
    | none => none
  | _, _, _ => none

end

/-- `__nc_str_eq`. -/
def strEqAt (ptr len ptr' len' : BitVec 64) : ℤ :=
  if len ≠ len' then 0
  else if len = 0 then 1
  else if memcmp len.toNat (bytesAt m ptr len) (bytesAt m ptr' len') = 0 then 1 else 0

mutual

def runEq : EqCode → KeyValue → KeyValue → Option Bool
  | .str, .str ptr len, .str ptr' len' => some (decide (strEqAt m ptr len ptr' len' ≠ 0))
  | .struct codes, .struct lefts, .struct rights => runEqFields codes lefts rights true
  | .icmp, .int v x, .int w y => if h : w = v then some (decide (x = y.cast h)) else none
  | .icmp, .pointer a, .pointer b => some (decide (a = b))
  | _, _, _ => none

def runEqFields : List EqCode → List KeyValue → List KeyValue → Bool → Option Bool
  | [], [], [], result => some result
  | code :: codes, left :: lefts, right :: rights, result =>
    match runEq code left right with
    | some eq => runEqFields codes lefts rights (result && eq)
    | none => none
  | _, _, _, _ => none

end

variable (offsets : Offsets)

/-- The function of `map_hash_fn`, on a key at an address. -/
def mapHashFn (code : HashCode) (layout : KeyLayout) (a : BitVec 64) : Option (BitVec 64) :=
  runHash m code (load offsets m layout a) 14695981039346656037

/-- The function of `map_eq_fn`. -/
def mapEqFn (code : EqCode) (layout : KeyLayout) (a b : BitVec 64) : Option Bool :=
  runEq m code (load offsets m layout a) (load offsets m layout b)

/-- The value of the language that stands at an address. -/
def keyAt (layout : KeyLayout) (a : BitVec 64) : Value := meaning m (load offsets m layout a)

end Runs

end NewClLang.MapKeyFunctions
