import NewClLang.TypeRefs

set_option autoImplicit false

/-!
# Assignability and coercion

`is_assignable_type` of the type checker, and `emit_coerced_expr` on the bytes of a value.
-/
namespace NewClLang.Coercions
open TypeRefs

abbrev Bytes := List UInt8

def strType : TypeRef := .named "str"

def errorType : TypeRef := .named "error"

def nilType : TypeRef := .named "__nil"

/-- The opaque pointer that carries an erased value; `type_rules.py` calls it compiler-internal. -/
def rawType : TypeRef := .named "raw"

def orVoid (t : Option TypeRef) : TypeRef := t.getD (.named "void")

def isNullablePointer : TypeRef → Bool
  | .pointer _ nullable => nullable
  | _ => false

def isPointerType : TypeRef → Bool
  | .pointer _ nullable => !nullable
  | _ => false

def pointerInner : TypeRef → TypeRef
  | .pointer inner _ => inner
  | t => t

/-- The declarations that decide assignability. `implements` is the comparison of the method set
    of an interface with the methods a struct offers. -/
structure Declarations where
  table : TypeTable
  implements : TypeRef → TypeRef → Bool

def Declarations.pointerImplementsIface (decls : Declarations) (actual iface : TypeRef) : Bool :=
  isPointerType actual && decls.implements (pointerInner actual) iface

def Declarations.isAssignableType (decls : Declarations) (actual expected : TypeRef) : Bool :=
  if actual = expected then true
  else if actual = strType ∧ expected = errorType then true
  else if decls.table.isIface expected then decls.pointerImplementsIface actual expected
  else if actual = nilType then isNullablePointer expected
  else isPointerType actual && isNullablePointer expected &&
    decide (pointerInner actual = pointerInner expected)

/-- What the code generator relies on from LLVM: how many bytes a load of a type reads, and the
    address of the table that `get_iface_vtable` emits for an interface and a pointer type. -/
structure Target (table : TypeTable) where
  size : TypeRef → ℕ
  vtable : TypeRef → TypeRef → Bytes
  size_str : size strType = 16
  size_error : size errorType = 40
  size_nil : size nilType = 8
  size_pointer : ∀ inner nullable, size (.pointer inner nullable) = 8
  size_iface : ∀ t, table.isIface t = true → size t = 16
  vtable_length : ∀ iface t, (vtable iface t).length = 8

section Coercion
variable {decls : Declarations} (target : Target decls.table)

/-- `emit_coerced_expr`: a string becomes an error without frames, a pointer is boxed with its
    table, and `cast_to` keeps the bits of the pairs that are left to an accepted coercion, two
    pointer types or one type twice. -/
def emitCoercedExpr (actual expected : TypeRef) (bytes : Bytes) : Bytes :=
  if expected = errorType ∧ actual = strType then bytes ++ List.replicate 24 0
  else if decls.table.isIface expected ∧ actual ≠ expected then
    target.vtable expected actual ++ bytes
  else bytes

/-- The coercions that build another representation. -/
def Reshapes (decls : Declarations) (actual expected : TypeRef) : Prop :=
  (expected = errorType ∧ actual = strType) ∨
    (decls.table.isIface expected = true ∧ actual ≠ expected)

theorem emitCoercedExpr_of_not_reshapes {actual expected : TypeRef} (bytes : Bytes)
    (h : ¬ Reshapes decls actual expected) :
    emitCoercedExpr target actual expected bytes = bytes := by
  rw [Reshapes, not_or] at h
  rw [emitCoercedExpr, if_neg h.1, if_neg h.2]

theorem nonnull_pointer {t : TypeRef} (h : isPointerType t = true) :
    ∃ inner, t = .pointer inner false := by
  cases t with
  | pointer inner nullable =>
    change (!nullable) = true at h
    rw [Bool.not_eq_true'] at h
    rw [h]
    exact ⟨inner, rfl⟩
  | named n => cases h
  | slice elem => cases h
  | array length elem => cases h
  | function params ret fallible => cases h
  | generic base args => cases h

theorem nullable_pointer {t : TypeRef} (h : isNullablePointer t = true) :
    ∃ inner, t = .pointer inner true := by
  cases t with
  | pointer inner nullable =>
    change nullable = true at h
    rw [h]
    exact ⟨inner, rfl⟩
  | named n => cases h
  | slice elem => cases h
  | array length elem => cases h
  | function params ret fallible => cases h
  | generic base args => cases h

theorem assignable_cases {actual expected : TypeRef}
    (h : decls.isAssignableType actual expected = true) :
    actual = expected ∨ (actual = strType ∧ expected = errorType) ∨
      (decls.table.isIface expected = true ∧ ∃ inner, actual = .pointer inner false) ∨
      (decls.table.isIface expected = false ∧
        (actual = nilType ∨ ∃ inner, actual = .pointer inner false) ∧
        ∃ inner, expected = .pointer inner true) := by
  rw [Declarations.isAssignableType] at h
  split at h
  next heq => exact Or.inl heq
  next hne =>
    apply Or.inr
    split at h
    next hstr => exact Or.inl hstr
    next hstr =>
      apply Or.inr
      split at h
      next hiface => exact Or.inl ⟨hiface, nonnull_pointer (Bool.and_eq_true_iff.mp h).1⟩
      next hiface =>
        apply Or.inr
        refine ⟨Bool.not_eq_true _ ▸ hiface, ?_⟩
        split at h
        next hnil => exact ⟨Or.inl hnil, nullable_pointer h⟩
        next hnil =>
          rw [Bool.and_eq_true, Bool.and_eq_true] at h
          exact ⟨Or.inr (nonnull_pointer h.1.1), nullable_pointer h.1.2⟩

theorem size_eq_of_not_reshapes {actual expected : TypeRef}
    (h : decls.isAssignableType actual expected = true) (hkeep : ¬ Reshapes decls actual expected) :
    target.size actual = target.size expected := by
  rcases assignable_cases h with heq | hstr | ⟨hiface, inner, hptr⟩ | ⟨hiface, hfrom, inner, hto⟩
  · rw [heq]
  · exact absurd (Or.inl hstr.symm) hkeep
  · by_cases heq : actual = expected
    · rw [heq]
    · exact absurd (Or.inr ⟨hiface, heq⟩) hkeep
  · rw [hto, target.size_pointer]
    rcases hfrom with hnil | ⟨inner', hptr⟩
    · rw [hnil, target.size_nil]
    · rw [hptr, target.size_pointer]

theorem size_lt_of_reshapes {actual expected : TypeRef}
    (h : decls.isAssignableType actual expected = true) (hshape : Reshapes decls actual expected) :
    target.size actual < target.size expected := by
  rcases hshape with ⟨herr, hstr⟩ | ⟨hiface, hne⟩
  · rw [herr, hstr, target.size_str, target.size_error]
    omega
  · rcases assignable_cases h with heq | hstr | ⟨_, inner, hptr⟩ | ⟨hno, _⟩
    · exact absurd heq hne
    · have hsize := target.size_iface _ hiface
      rw [hstr.2, target.size_error] at hsize
      omega
    · rw [hptr, target.size_pointer, target.size_iface _ hiface]
      omega
    · rw [hno] at hiface
      cases hiface

theorem size_le_of_assignable {actual expected : TypeRef}
    (h : decls.isAssignableType actual expected = true) :
    target.size actual ≤ target.size expected := by
  by_cases hshape : Reshapes decls actual expected
  · exact Nat.le_of_lt (size_lt_of_reshapes target h hshape)
  · exact Nat.le_of_eq (size_eq_of_not_reshapes target h hshape)

theorem emitCoercedExpr_length {actual expected : TypeRef} {bytes : Bytes}
    (h : decls.isAssignableType actual expected = true)
    (hsize : bytes.length = target.size actual) :
    (emitCoercedExpr target actual expected bytes).length = target.size expected := by
  by_cases hshape : Reshapes decls actual expected
  · rw [emitCoercedExpr]
    split
    next herr =>
      rw [List.length_append, List.length_replicate, hsize, herr.1, herr.2, target.size_str,
        target.size_error]
    next herr =>
      have hbox := Or.resolve_left hshape herr
      rw [if_pos hbox, List.length_append, target.vtable_length, hsize,
        target.size_iface _ hbox.1]
      rcases assignable_cases h with heq | hstr | ⟨_, inner, hptr⟩ | ⟨hno, _⟩
      · exact absurd heq hbox.2
      · exact absurd hstr.symm herr
      · rw [hptr, target.size_pointer]
      · rw [hno] at hbox
        cases hbox.1
  · rw [emitCoercedExpr_of_not_reshapes target bytes hshape, hsize]
    exact size_eq_of_not_reshapes target h hshape

end Coercion

end NewClLang.Coercions
