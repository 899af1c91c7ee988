import Mathlib.Logic.Relation
import Mathlib.Data.List.Basic

set_option autoImplicit false

/-!
# Type references

The structured types of `compiler/type_ref.py`, the two forms in which the compiler carries one,
and the declarations that give a name its meaning.
-/
namespace NewClLang.TypeRefs

inductive TypeRef where
  | named (name : String)
  | pointer (inner : TypeRef) (nullable : Bool)
  | slice (elem : TypeRef)
  | array (length : ℕ) (elem : TypeRef)
  | function (params : List TypeRef) (ret : TypeRef) (fallible : Bool)
  | generic (base : TypeRef) (args : List TypeRef)

mutual

/-- `==` of two references, which compares the type keys. -/
def TypeRef.same : TypeRef → TypeRef → Bool
  | .named a, .named b => a == b
  | .pointer a n, .pointer b m => TypeRef.same a b && n == m
  | .slice a, .slice b => TypeRef.same a b
  | .array k a, .array l b => k == l && TypeRef.same a b
  | .function ps r f, .function qs s g =>
      TypeRef.sameAll ps qs && TypeRef.same r s && f == g
  | .generic a ps, .generic b qs => TypeRef.same a b && TypeRef.sameAll ps qs
  | _, _ => false

def TypeRef.sameAll : List TypeRef → List TypeRef → Bool
  | [], [] => true
  | a :: as, b :: bs => TypeRef.same a b && TypeRef.sameAll as bs
  | _, _ => false

end

mutual

theorem TypeRef.same_iff (a b : TypeRef) : TypeRef.same a b = true ↔ a = b := by
  cases a with
  | named a => cases b <;> simp [TypeRef.same]
  | pointer a n => cases b <;> simp [TypeRef.same, TypeRef.same_iff a]
  | slice a => cases b <;> simp [TypeRef.same, TypeRef.same_iff a]
  | array k a => cases b <;> simp [TypeRef.same, TypeRef.same_iff a]
  | function ps r f =>
    cases b <;> simp [TypeRef.same, TypeRef.sameAll_iff ps, TypeRef.same_iff r, and_assoc]
  | generic a ps => cases b <;> simp [TypeRef.same, TypeRef.same_iff a, TypeRef.sameAll_iff ps]

theorem TypeRef.sameAll_iff (as bs : List TypeRef) : TypeRef.sameAll as bs = true ↔ as = bs := by
  cases as with
  | nil => cases bs <;> simp [TypeRef.sameAll]
  | cons a as => cases bs <;> simp [TypeRef.sameAll, TypeRef.same_iff a, TypeRef.sameAll_iff as]

end

instance : DecidableEq TypeRef := fun a b => decidable_of_iff _ (TypeRef.same_iff a b)

mutual

/-- `rewrite_type_ref`: every name is replaced. -/
def TypeRef.rewrite (fn : String → TypeRef) : TypeRef → TypeRef
  | .named name => fn name
  | .pointer inner nullable => .pointer (TypeRef.rewrite fn inner) nullable
  | .slice elem => .slice (TypeRef.rewrite fn elem)
  | .array length elem => .array length (TypeRef.rewrite fn elem)
  | .function params ret fallible =>
      .function (TypeRef.rewriteAll fn params) (TypeRef.rewrite fn ret) fallible
  | .generic base args => .generic (TypeRef.rewrite fn base) (TypeRef.rewriteAll fn args)

def TypeRef.rewriteAll (fn : String → TypeRef) : List TypeRef → List TypeRef
  | [] => []
  | t :: ts => TypeRef.rewrite fn t :: TypeRef.rewriteAll fn ts

end

/-- A type as a Python value: the string `format_type_ref` gives it, or the object itself. The
    parse functions and the emulated `==` see through the form; `isinstance` does not. -/
inductive NcType where
  | canonical (ref : TypeRef)
  | object (ref : TypeRef)

def NcType.ref : NcType → TypeRef
  | .canonical ref | .object ref => ref

def NcType.isString : NcType → Bool
  | .canonical _ => true
  | .object _ => false

def isName (ref : TypeRef) (name : String) : Bool :=
  match ref with
  | .named n => n == name
  | _ => false

/-- `startswith("*")` or `startswith("?*")` on the string form. -/
def isPointer : TypeRef → Bool
  | .pointer _ _ => true
  | _ => false

def isMap : TypeRef → Bool
  | .generic (.named base) _ => base == "map"
  | _ => false

def isSlice : TypeRef → Bool
  | .slice _ => true
  | _ => false

def isFn : TypeRef → Bool
  | .function _ _ _ => true
  | _ => false

def isArray : TypeRef → Bool
  | .array _ _ => true
  | _ => false

/-- The rank of a type in an order of the named types. -/
def rankOf (rank : String → ℕ) : TypeRef → ℕ
  | .named n => rank n
  | _ => 0

/-- `IFACE_METHODS` and `STRUCT_FIELDS` as far as roots need them; all other names are scalars or
    enums. `rank` is the order that `reject_direct_recursive_structs` finds: a struct does not
    contain itself by value. -/
structure TypeTable where
  ifaces : List String
  structs : List (String × List (String × NcType))
  rank : String → ℕ
  nested : ∀ name fields, structs.lookup name = some fields →
    ∀ f ∈ fields, rankOf rank f.2.ref < rank name

/-- A program that declares no structs and no interfaces. -/
def TypeTable.empty : TypeTable where
  ifaces := []
  structs := []
  rank := fun _ => 0
  nested := by
    intro name fields h
    cases h

def TypeTable.isIface (tbl : TypeTable) : TypeRef → Bool
  | .named n => tbl.ifaces.contains n
  | _ => false

def TypeTable.isStruct (tbl : TypeTable) : TypeRef → Bool
  | .named n => (tbl.structs.lookup n).isSome
  | _ => false

def TypeTable.fieldsOf (tbl : TypeTable) : TypeRef → List (String × NcType)
  | .named n => (tbl.structs.lookup n).getD []
  | _ => []

theorem TypeTable.fieldsOf_rank (tbl : TypeTable) {ref : TypeRef} :
    ∀ f ∈ tbl.fieldsOf ref, rankOf tbl.rank f.2.ref < rankOf tbl.rank ref := by
  intro f hf
  cases ref with
  | named n =>
    simp only [TypeTable.fieldsOf] at hf
    cases hlookup : tbl.structs.lookup n with
    | none =>
      rw [hlookup] at hf
      cases hf
    | some fields =>
      rw [hlookup] at hf
      exact tbl.nested n fields hlookup f hf
  | pointer inner nullable => cases hf
  | slice elem => cases hf
  | array length elem => cases hf
  | function params ret fallible => cases hf
  | generic base args => cases hf

end NewClLang.TypeRefs
