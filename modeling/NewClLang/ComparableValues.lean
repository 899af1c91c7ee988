import NewClLang.AssociationLists
import NewClLang.Comparisons

set_option autoImplicit false

/-!
# Values that can be compared

The layout of a type decides which comparison is emitted for its values, and where the type checker
finds a type comparable, `==` is emitted for every field of it.
-/
namespace NewClLang.ComparableValues
open OrderedComparisons TypeRefs Comparisons
open AssociationLists (mem_of_lookup lookup_of_not_mem)

section Runtime

theorem memcmp_comm (n : ℕ) (a b : List UInt8) : memcmp n b a = -memcmp n a b := by
  induction n generalizing a b with
  | zero => simp [memcmp]
  | succ n ih =>
    cases a with
    | nil => cases b <;> simp [memcmp]
    | cons x a =>
      cases b with
      | nil => simp [memcmp]
      | cons y b =>
        by_cases h : x = y
        · simp [memcmp, h, ih a b]
        · simp only [memcmp, if_neg h, if_neg (Ne.symm h)]
          omega

theorem strCmp_comm (a b : List UInt8) : strCmp b a = -strCmp a b := by
  have hn : (if b.length < a.length then b.length else a.length) =
      if a.length < b.length then a.length else b.length := by
    split_ifs <;> omega
  simp only [strCmp, hn, memcmp_comm _ a b]
  split_ifs <;> omega

theorem strCmp_ne_of_length {a b : List UInt8} (h : a.length ≠ b.length) : strCmp a b ≠ 0 := by
  simp only [strCmp]
  split_ifs <;> omega

theorem strCmp_of_length {a b : List UInt8} (h : a.length = b.length) (hne : b.length ≠ 0) :
    strCmp a b = 0 ↔ memcmp b.length a b = 0 := by
  by_cases hlt : memcmp b.length a b < 0
  · simp [strCmp, h, hne, hlt, hlt.ne]
  · by_cases hgt : 0 < memcmp b.length a b
    · simp [strCmp, h, hne, hlt, hgt, hgt.ne']
    · have hzero : memcmp b.length a b = 0 := by omega
      simp [strCmp, h, hzero]

/-- Strings are equal where neither comes first. -/
theorem strEq_iff (a b : List UInt8) : strEq a b ≠ 0 ↔ strCmp a b = 0 := by
  by_cases h : a.length = b.length
  · by_cases hempty : b.length = 0
    · simp [strEq, strCmp, h, hempty]
    · rw [strCmp_of_length h hempty]
      by_cases hcmp : memcmp b.length a b = 0
      · simp [strEq, h, hempty, hcmp]
      · simp [strEq, h, hempty, hcmp]
  · have hcmp := strCmp_ne_of_length h
    simp [strEq, h, hcmp]

end Runtime

section Layouts
variable {d : Declarations} {name : String} {v : Value} {t : TypeRef}
  {fields : List (String × TypeRef)}

theorem intWidth_declared (h : name ∉ builtinTypes) : intWidth name = none := by
  apply lookup_of_not_mem
  intro hmem
  apply h
  revert hmem
  simp only [AssociationLists.keys, builtinTypes, numericTypes, integerTypes, floatTypes]
  simp
  tauto

theorem floatFormat_declared (h : name ∉ builtinTypes) : floatFormat name = none := by
  apply lookup_of_not_mem
  intro hmem
  apply h
  revert hmem
  simp only [AssociationLists.keys, builtinTypes, numericTypes, integerTypes, floatTypes]
  simp
  tauto

/-- The layout of a type that the program declares. -/
theorem llvmType_declared {decl : Declaration} (h : d.declared name = some decl) :
    name ∉ builtinTypes ∧ llvmType d (.named name) =
      match decl with
      | .struct fields => .struct fields
      | .enum _ => .int 32
      | .iface => .other := by
  have hnot : name ∉ builtinTypes := by
    intro hmem
    rw [d.apart name hmem] at h
    cases h
  have hstr : name ≠ "str" := fun heq => hnot (heq ▸ by decide)
  have hnil : name ≠ "__nil" := fun heq => hnot (heq ▸ by decide)
  refine ⟨hnot, ?_⟩
  simp only [llvmType, intWidth_declared hnot, floatFormat_declared hnot, if_neg hstr, if_neg hnil,
    h]
  cases decl <;> rfl

theorem structFields_eq_some (h : structFields d t = some fields) :
    ∃ name, t = .named name ∧ d.declared name = some (.struct fields) := by
  cases t with
  | named name =>
    simp only [structFields] at h
    split at h
    · next hdeclared =>
      cases h
      exact ⟨name, rfl, hdeclared⟩
    · cases h
  | _ => cases h

theorem structFields_builtin (h : name ∈ builtinTypes) : structFields d (.named name) = none := by
  rw [structFields, d.apart name h]

theorem llvmType_struct (h : structFields d t = some fields) : llvmType d t = .struct fields := by
  obtain ⟨name, rfl, hdeclared⟩ := structFields_eq_some h
  exact (llvmType_declared hdeclared).2

theorem typed_int {w : ℕ} (ht : llvmType d t = .int w) (h : HasType d v t) :
    ∃ bits, v = .int w bits := by
  cases v with
  | int w' bits =>
    have h' : llvmType d t = .int w' := h
    rw [ht] at h'
    cases h'
    exact ⟨bits, rfl⟩
  | _ => simp_all [HasType]

theorem typed_float {f : Format} (ht : llvmType d t = .float f) (h : HasType d v t) :
    ∃ bits, v = .float f bits := by
  cases v with
  | float g bits =>
    have h' : llvmType d t = .float g := h
    rw [ht] at h'
    cases h'
    exact ⟨bits, rfl⟩
  | _ => simp_all [HasType]

theorem typed_str (ht : llvmType d t = .str) (h : HasType d v t) : ∃ bytes, v = .str bytes := by
  cases v <;> simp_all [HasType]

theorem typed_pointer (ht : llvmType d t = .pointer) (h : HasType d v t) :
    ∃ address, v = .pointer address := by
  cases v <;> simp_all [HasType]

theorem typed_struct (ht : llvmType d t = .struct fields) (h : HasType d v t) :
    ∃ values, v = .struct values ∧ HaveTypes d values fields := by
  cases v <;> simp_all [HasType]

theorem eq_str_of_layout (h : llvmType d t = .str) : t = str := by
  cases t with
  | named name =>
    simp only [llvmType] at h
    split at h
    · cases h
    · cases h
    · split_ifs at h with hstr hnil
      · rw [hstr]
        rfl
      · split at h <;> cases h
  | _ => cases h

theorem structFields_of_layout (h : llvmType d t = .struct fields) :
    structFields d t = some fields := by
  cases t with
  | named name =>
    simp only [llvmType] at h
    split at h
    · cases h
    · cases h
    · split_ifs at h
      split at h
      · cases h
      · next hdeclared =>
        cases h
        simp only [structFields, hdeclared]
      · cases h
  | _ => cases h

theorem structFields_none (h : ∀ fields, llvmType d t ≠ .struct fields) : structFields d t = none := by
  cases hfields : structFields d t with
  | none => rfl
  | some fields => exact absurd (llvmType_struct hfields) (h fields)

theorem floatFormat_of_layout {f : Format} (h : llvmType d t = .float f) :
    ∃ name, t = .named name ∧ floatFormat name = some f ∧ name ∈ floatTypes := by
  cases t with
  | named name =>
    simp only [llvmType] at h
    split at h
    · cases h
    · next hformat =>
      cases h
      refine ⟨name, rfl, hformat, ?_⟩
      have hmem := List.mem_map_of_mem (f := Prod.fst) (mem_of_lookup hformat)
      simpa [floatTypes] using hmem
    · split_ifs at h
      split at h <;> cases h
  | _ => cases h

theorem layout_of_floatTypes (h : name ∈ floatTypes) :
    ∃ f, llvmType d (.named name) = .float f := by
  simp only [floatTypes, List.mem_cons, List.not_mem_nil, or_false] at h
  rcases h with rfl | rfl
  · exact ⟨binary32, rfl⟩
  · exact ⟨binary64, rfl⟩

end Layouts

section Emission
variable {d : Declarations} {t : TypeRef}

/-- How an integer type is read. -/
def readsUnsigned : TypeRef → Bool
  | .named name => decide (name ∈ unsignedIntTypes)
  | _ => false

theorem emitBinaryValues_int {w : ℕ} (ht : llvmType d t = .int w) (op : Predicate)
    (x y : BitVec w) :
    emitBinaryValues (.int w x) op (.int w y) t =
      some (if readsUnsigned t then op.holds x.toNat y.toNat else op.holds x.toInt y.toInt) := by
  cases t with
  | named name =>
    have hfloat : name ∉ floatTypes := by
      intro hmem
      obtain ⟨f, hf⟩ := layout_of_floatTypes (d := d) hmem
      rw [hf] at ht
      cases ht
    simp [emitBinaryValues, hfloat, icmp, readsUnsigned]
  | _ => cases ht

theorem emitBinaryValues_float {f : Format} (ht : llvmType d t = .float f) (op : Predicate)
    (x y : BitVec f.width) :
    emitBinaryValues (.float f x) op (.float f y) t = some (ordered op x y) := by
  obtain ⟨name, rfl, -, hmem⟩ := floatFormat_of_layout ht
  simp [emitBinaryValues, hmem, emitFloatBinary]

theorem emitBinaryValues_pointer (ht : llvmType d t = .pointer) (op : Predicate) (a b : ℕ) :
    emitBinaryValues (.pointer a) op (.pointer b) t = some (op.holds a b) := by
  cases t with
  | named name =>
    have hfloat : name ∉ floatTypes := by
      intro hmem
      obtain ⟨f, hf⟩ := layout_of_floatTypes (d := d) hmem
      rw [hf] at ht
      cases ht
    simp [emitBinaryValues, hfloat, icmp]
  | pointer inner nullable => rfl
  | _ => cases ht

theorem emitEqValues_str (x y : List UInt8) :
    emitEqValues d str (.str x) (.str y) = some (decide (strEq x y ≠ 0)) := by
  rw [emitEqValues, if_pos rfl]
  · rfl
  · intro left right h
    cases h

theorem emitBinaryValues_struct (op : Predicate) (ls rs : List Value) :
    emitBinaryValues (.struct ls) op (.struct rs) t = none := by
  cases t with
  | named name =>
    simp only [emitBinaryValues]
    split_ifs <;> rfl
  | _ => rfl

theorem emitEqValues_scalar (hstr : t ≠ str) (hnone : structFields d t = none) (l r : Value) :
    emitEqValues d t l r = emitBinaryValues l .eq r t := by
  cases l with
  | struct ls =>
    cases r with
    | struct rs => simp [emitEqValues, hnone, emitBinaryValues_struct]
    | _ => simp [emitEqValues, hnone, hstr]
  | _ => simp [emitEqValues, hnone, hstr]

/-- A type whose layout is neither a string nor a struct is compared by one instruction. -/
theorem emitEqValues_layout (hstr : llvmType d t ≠ .str)
    (hstruct : ∀ fields, llvmType d t ≠ .struct fields) (l r : Value) :
    emitEqValues d t l r = emitBinaryValues l .eq r t := by
  have hne : t ≠ str := by
    rintro rfl
    exact hstr rfl
  exact emitEqValues_scalar hne (structFields_none hstruct) l r

theorem icmp_eq_comm (unsigned : Bool) (l r : Value) :
    icmp unsigned .eq l r = icmp unsigned .eq r l := by
  cases l with
  | int v x =>
    cases r with
    | int w y =>
      by_cases h : w = v
      · subst h
        simp only [icmp, dite_true, BitVec.cast_eq]
        rw [holds_eq_comm x.toNat, holds_eq_comm x.toInt]
      · simp [icmp, h, Ne.symm h]
    | _ => rfl
  | pointer a =>
    cases r with
    | pointer b => simp only [icmp, holds_eq_comm a]
    | _ => rfl
  | _ => cases r <;> rfl

theorem emitFloatBinary_eq_comm (l r : Value) :
    emitFloatBinary .eq l r = emitFloatBinary .eq r l := by
  cases l with
  | float f x =>
    cases r with
    | float g y =>
      by_cases h : g = f
      · subst h
        simp only [emitFloatBinary, dite_true, BitVec.cast_eq, ordered_eq_comm x]
      · simp [emitFloatBinary, h, Ne.symm h]
    | _ => rfl
  | _ => cases r <;> rfl

theorem emitBinaryValues_eq_comm (l r : Value) :
    emitBinaryValues l .eq r t = emitBinaryValues r .eq l t := by
  cases t with
  | named name => simp only [emitBinaryValues, icmp_eq_comm _ l, emitFloatBinary_eq_comm l]
  | _ => exact icmp_eq_comm false l r

theorem strEq_comm (a b : List UInt8) : (strEq a b ≠ 0) = (strEq b a ≠ 0) := by
  rw [strEq_iff, strEq_iff, strCmp_comm b a]
  exact propext Int.neg_eq_zero

theorem emitStrEq_comm (l r : Value) : emitStrEq l r = emitStrEq r l := by
  cases l with
  | str a =>
    cases r with
    | str b => simp only [emitStrEq, strEq_comm a]
    | _ => rfl
  | _ => cases r <;> rfl

end Emission

section Symmetry
variable {d : Declarations}

/-- Where one operand at most is a struct. -/
theorem emitEqValues_mixed {l r : Value} (h : ∀ ls rs, l = .struct ls → r ≠ .struct rs)
    (t : TypeRef) : emitEqValues d t l r =
      if t = str then emitStrEq l r
      else
        match structFields d t with
        | some fields => if fields = [] then some true else none
        | none => emitBinaryValues l .eq r t := by
  rw [emitEqValues]
  all_goals first
    | exact h
    | rfl

mutual

theorem emitEqValues_comm (l r : Value) (t : TypeRef) :
    emitEqValues d t l r = emitEqValues d t r l := by
  cases l with
  | struct ls =>
    cases r with
    | struct rs =>
      simp only [emitEqValues]
      cases structFields d t with
      | none => rfl
      | some fields => exact emitStructEq_comm ls rs fields true
    | _ =>
      rw [emitEqValues_mixed (by simp), emitEqValues_mixed (by simp), emitStrEq_comm,
        emitBinaryValues_eq_comm]
  | _ =>
    rw [emitEqValues_mixed (by simp), emitEqValues_mixed (by simp), emitStrEq_comm,
      emitBinaryValues_eq_comm]

theorem emitStructEq_comm (ls rs : List Value) (fields : List (String × TypeRef)) (result : Bool) :
    emitStructEq d fields ls rs result = emitStructEq d fields rs ls result := by
  cases fields with
  | nil =>
    cases ls with
    | nil => cases rs <;> simp [emitStructEq]
    | cons l ls => cases rs <;> simp [emitStructEq]
  | cons field fields =>
    cases ls with
    | nil => cases rs <;> simp [emitStructEq]
    | cons l ls =>
      cases rs with
      | nil => simp [emitStructEq]
      | cons r rs =>
        simp only [emitStructEq]
        rw [emitEqValues_comm l r]
        cases emitEqValues d field.2 r l with
        | none => rfl
        | some eq => exact emitStructEq_comm ls rs fields _

end

end Symmetry

section Comparable
variable {d : Declarations}

/-- Types that can be compared, with the types of their fields. -/
def Closed (d : Declarations) (seen : List TypeRef) : Prop :=
  ∀ t ∈ seen, llvmType d t ≠ .other ∧
    ∀ fields, structFields d t = some fields → ∀ field ∈ fields, field.2 ∈ seen

/-- The same but for the types that are being looked at. -/
def ClosedBut (d : Declarations) (pending seen : List TypeRef) : Prop :=
  ∀ t ∈ seen, llvmType d t ≠ .other ∧
    (t ∈ pending ∨ ∀ fields, structFields d t = some fields → ∀ field ∈ fields, field.2 ∈ seen)

/-- What a search adds to the types that have been seen. -/
structure Grown (d : Declarations) (pending seen seen' : List TypeRef) : Prop where
  closed : ClosedBut d pending seen'
  subset : seen ⊆ seen'

variable {pending seen seen' : List TypeRef} {t : TypeRef}

theorem ClosedBut.cons (h : ClosedBut d pending seen) (ht : llvmType d t ≠ .other) :
    ClosedBut d (t :: pending) (t :: seen) := by
  intro u hu
  rcases List.mem_cons.mp hu with rfl | hu
  · exact ⟨ht, Or.inl List.mem_cons_self⟩
  · obtain ⟨hlayout, hpending | hfields⟩ := h u hu
    · exact ⟨hlayout, Or.inl (List.mem_cons_of_mem _ hpending)⟩
    · exact ⟨hlayout, Or.inr fun fields hf field hmem =>
        List.mem_cons_of_mem _ (hfields fields hf field hmem)⟩

/-- A type is looked at no longer once its fields have been seen. -/
theorem ClosedBut.finish (h : ClosedBut d (t :: pending) seen)
    (ht : ∀ fields, structFields d t = some fields → ∀ field ∈ fields, field.2 ∈ seen) :
    ClosedBut d pending seen := by
  intro u hu
  obtain ⟨hlayout, hpending | hfields⟩ := h u hu
  · rcases List.mem_cons.mp hpending with rfl | hpending
    · exact ⟨hlayout, Or.inr ht⟩
    · exact ⟨hlayout, Or.inl hpending⟩
  · exact ⟨hlayout, Or.inr hfields⟩

theorem ClosedBut.leaf (h : ClosedBut d pending seen) (ht : llvmType d t ≠ .other)
    (hnone : structFields d t = none) : Grown d pending seen (t :: seen) ∧ t ∈ t :: seen := by
  refine ⟨⟨(h.cons ht).finish ?_, List.subset_cons_self t seen⟩, List.mem_cons_self⟩
  intro fields hfields
  rw [hnone] at hfields
  cases hfields

theorem llvmType_scalar {name : String} (h : name ∈ numericTypes ++ ["bool", "str", "rune"]) :
    llvmType d (.named name) ≠ .other := by
  simp only [numericTypes, integerTypes, floatTypes, List.cons_append, List.nil_append,
    List.mem_cons, List.not_mem_nil, or_false] at h
  rcases h with rfl | rfl | rfl | rfl | rfl | rfl | rfl | rfl | rfl | rfl | rfl | rfl | rfl <;>
    (intro heq; cases heq)

theorem builtin_of_scalar {name : String} (h : name ∈ numericTypes ++ ["bool", "str", "rune"]) :
    name ∈ builtinTypes := by
  simp only [builtinTypes, List.mem_append, List.mem_cons, List.not_mem_nil, or_false] at h ⊢
  tauto

/-- The loop over the fields of a struct. -/
theorem foldlM_grown {step : List TypeRef → TypeRef → Option (List TypeRef)}
    (hstep : ∀ seen t seen', step seen t = some seen' → ClosedBut d pending seen →
      Grown d pending seen seen' ∧ t ∈ seen')
    (fields : List (String × TypeRef)) (hseen : ClosedBut d pending seen)
    (h : fields.foldlM (fun seen field => step seen field.2) seen = some seen') :
    Grown d pending seen seen' ∧ ∀ field ∈ fields, field.2 ∈ seen' := by
  induction fields generalizing seen with
  | nil =>
    cases h
    exact ⟨⟨hseen, List.Subset.refl _⟩, fun field hmem => nomatch hmem⟩
  | cons field fields ih =>
    simp only [List.foldlM_cons, Option.bind_eq_bind, Option.bind_eq_some_iff] at h
    obtain ⟨middle, hfirst, hrest⟩ := h
    obtain ⟨hgrown, hmem⟩ := hstep seen field.2 middle hfirst hseen
    obtain ⟨hgrown', hall⟩ := ih hgrown.closed hrest
    refine ⟨⟨hgrown'.closed, List.Subset.trans hgrown.subset hgrown'.subset⟩, ?_⟩
    intro f hf
    rcases List.mem_cons.mp hf with rfl | hf
    · exact hgrown'.subset hmem
    · exact hall f hf

theorem comparableWithin_grown (fuel : ℕ) (h : comparableWithin d fuel seen t = some seen')
    (hseen : ClosedBut d pending seen) : Grown d pending seen seen' ∧ t ∈ seen' := by
  induction fuel generalizing seen t seen' pending with
  | zero => cases h
  | succ fuel ih =>
    unfold comparableWithin at h
    by_cases hmem : t ∈ seen
    · rw [if_pos hmem] at h
      cases h
      exact ⟨⟨hseen, List.Subset.refl _⟩, hmem⟩
    · rw [if_neg hmem] at h
      cases t with
      | named name =>
        dsimp only at h
        split_ifs at h with hscalar herror
        · cases h
          exact hseen.leaf (llvmType_scalar hscalar)
            (structFields_builtin (builtin_of_scalar hscalar))
        · cases hdeclared : d.declared name with
          | none => simp [hdeclared] at h
          | some decl =>
            have hlayout := (llvmType_declared hdeclared).2
            cases decl with
            | struct fields =>
              simp only [hdeclared] at h
              have hother : llvmType d (.named name) ≠ .other := by
                rw [hlayout]
                (intro heq; cases heq)
              obtain ⟨hgrown, hall⟩ := foldlM_grown (fun _ _ _ hs hc => ih hs hc) fields
                (hseen.cons hother) h
              refine ⟨⟨hgrown.closed.finish ?_, ?_⟩, hgrown.subset List.mem_cons_self⟩
              · intro fields' hfields'
                simp only [structFields, hdeclared, Option.some.injEq] at hfields'
                exact hfields' ▸ hall
              · exact List.Subset.trans (List.subset_cons_self _ _) hgrown.subset
            | enum variants =>
              simp only [hdeclared, Option.some.injEq] at h
              cases h
              refine hseen.leaf ?_ (by simp only [structFields, hdeclared])
              rw [hlayout]
              (intro heq; cases heq)
            | iface => simp [hdeclared] at h
      | pointer inner nullable =>
        cases h
        exact hseen.leaf (fun heq => nomatch heq) rfl
      | _ => cases h

/-- What the type checker lets through as comparable. -/
theorem closed_of_comparable {fuel : ℕ} (h : comparableWithin d fuel [] t = some seen) :
    Closed d seen ∧ t ∈ seen := by
  obtain ⟨hgrown, hmem⟩ :=
    comparableWithin_grown fuel h (fun u hu => nomatch hu : ClosedBut d [] [])
  refine ⟨?_, hmem⟩
  intro u hu
  obtain ⟨hlayout, hpending | hfields⟩ := hgrown.closed u hu
  · exact nomatch hpending
  · exact ⟨hlayout, hfields⟩

end Comparable

section Equality
variable {d : Declarations} {seen : List TypeRef}

/-- Two floats, one of which is not a number. -/
def Unordered (l r : Value) : Prop :=
  ∃ f, ∃ x y : BitVec f.width, l = .float f x ∧ r = .float f y ∧
    (isNaN x = true ∨ isNaN y = true)

theorem numbers_of_ordered {f : Format} {x y : BitVec f.width}
    (h : ¬ Unordered (.float f x) (.float f y)) : isNaN x = false ∧ isNaN y = false := by
  constructor
  · cases hx : isNaN x with
    | false => rfl
    | true => exact absurd ⟨f, x, y, rfl, rfl, Or.inl hx⟩ h
  · cases hy : isNaN y with
    | false => rfl
    | true => exact absurd ⟨f, x, y, rfl, rfl, Or.inr hy⟩ h

/-- Equality of two values that are no structs is emitted wherever their type can be compared. -/
theorem emitEqValues_scalar_defined {t : TypeRef} {l r : Value}
    (hother : llvmType d t ≠ .other) (hstruct : ∀ fields, llvmType d t ≠ .struct fields)
    (hl : HasType d l t) (hr : HasType d r t) : ∃ x, emitEqValues d t l r = some x := by
  have hinstruction (hstr : llvmType d t ≠ .str) :
      emitEqValues d t l r = emitBinaryValues l .eq r t := emitEqValues_layout hstr hstruct l r
  cases hlayout : llvmType d t with
  | str =>
    cases eq_str_of_layout hlayout
    obtain ⟨x, rfl⟩ := typed_str hlayout hl
    obtain ⟨y, rfl⟩ := typed_str hlayout hr
    exact ⟨_, emitEqValues_str x y⟩
  | int w =>
    obtain ⟨x, rfl⟩ := typed_int hlayout hl
    obtain ⟨y, rfl⟩ := typed_int hlayout hr
    rw [hinstruction (by simp [hlayout])]
    exact ⟨_, emitBinaryValues_int hlayout _ x y⟩
  | float f =>
    obtain ⟨x, rfl⟩ := typed_float hlayout hl
    obtain ⟨y, rfl⟩ := typed_float hlayout hr
    rw [hinstruction (by simp [hlayout])]
    exact ⟨_, emitBinaryValues_float hlayout _ x y⟩
  | pointer =>
    obtain ⟨x, rfl⟩ := typed_pointer hlayout hl
    obtain ⟨y, rfl⟩ := typed_pointer hlayout hr
    rw [hinstruction (by simp [hlayout])]
    exact ⟨_, emitBinaryValues_pointer hlayout _ x y⟩
  | struct fields => exact absurd hlayout (hstruct fields)
  | other => exact absurd hlayout hother

mutual

theorem emitEqValues_defined (hclosed : Closed d seen) (l r : Value) (t : TypeRef)
    (ht : t ∈ seen) (hl : HasType d l t) (hr : HasType d r t) :
    ∃ x, emitEqValues d t l r = some x := by
  cases l with
  | struct ls =>
    obtain ⟨fields, hlayout, hls⟩ := hl
    obtain ⟨rs, rfl, hrs⟩ := typed_struct hlayout hr
    have hfields := structFields_of_layout hlayout
    simp only [emitEqValues, hfields]
    exact emitStructEq_defined hclosed ls rs fields ((hclosed t ht).2 fields hfields) hls hrs true
  | _ =>
    have hscalar : ∀ fields, llvmType d t ≠ .struct fields := by
      intro fields hlayout
      obtain ⟨values, heq, -⟩ := typed_struct hlayout hl
      cases heq
    exact emitEqValues_scalar_defined (hclosed t ht).1 hscalar hl hr

theorem emitStructEq_defined (hclosed : Closed d seen) (ls rs : List Value)
    (fields : List (String × TypeRef)) (hfields : ∀ field ∈ fields, field.2 ∈ seen)
    (hls : HaveTypes d ls fields) (hrs : HaveTypes d rs fields) (result : Bool) :
    ∃ x, emitStructEq d fields ls rs result = some x := by
  cases ls with
  | nil =>
    cases fields with
    | nil => exact ⟨result, by simp [emitStructEq]⟩
    | cons field fields => exact hls.elim
  | cons l ls =>
    cases fields with
    | nil => exact hls.elim
    | cons field fields =>
      cases rs with
      | nil => exact hrs.elim
      | cons r rs =>
        obtain ⟨x, hx⟩ := emitEqValues_defined hclosed l r field.2
          (hfields field List.mem_cons_self) hls.1 hrs.1
        simp only [emitStructEq, hx]
        exact emitStructEq_defined hclosed ls rs fields
          (fun f hf => hfields f (List.mem_cons_of_mem _ hf)) hls.2 hrs.2 _

end

variable {tl tr : TypeRef} {l r : Value}

theorem emitPlain_eq (hl : tl ≠ nil) (hr : tr ≠ nil) (l r : Value) :
    emitPlain d .eq tl tr l r = emitEqValues d tl l r := by
  have hnil : ¬ (tl = nil ∨ tr = nil) := not_or.mpr ⟨hl, hr⟩
  by_cases hstr : tl = str
  · subst hstr
    have hnone : structFields d str = none := structFields_builtin (by decide)
    cases l with
    | struct ls => cases r <;> simp [emitPlain, hnil, emitEqValues, emitStrEq, hnone]
    | _ => simp [emitPlain, hnil, emitEqValues_mixed]
  · cases hfields : structFields d tl with
    | none => simp [emitPlain, hnil, hstr, hfields, emitEqValues_scalar hstr hfields]
    | some fields => simp [emitPlain, hnil, hstr, hfields]

/-- `!=` is what `==` is not, but for floats that are not numbers. -/
theorem emitPlain_ne (hl : tl ≠ nil) (hr : tr ≠ nil) (hother : llvmType d tl ≠ .other)
    (htl : HasType d l tl) (htr : HasType d r tl) (hordered : ¬ Unordered l r) :
    emitPlain d .ne tl tr l r = (emitEqValues d tl l r).map (!·) := by
  rw [← emitPlain_eq hl hr]
  have hnil : ¬ (tl = nil ∨ tr = nil) := not_or.mpr ⟨hl, hr⟩
  by_cases hstr : tl = str
  · subst hstr
    obtain ⟨x, rfl⟩ := typed_str rfl htl
    obtain ⟨y, rfl⟩ := typed_str rfl htr
    simp [emitPlain, hnil, emitStrEq]
  · cases hfields : structFields d tl with
    | some fields =>
      simp only [emitPlain, hnil, hstr, hfields]
      cases emitEqValues d tl l r <;> simp
    | none =>
      simp only [emitPlain, hnil, hstr, hfields]
      cases hlayout : llvmType d tl with
      | int w =>
        obtain ⟨x, rfl⟩ := typed_int hlayout htl
        obtain ⟨y, rfl⟩ := typed_int hlayout htr
        simp [emitBinaryValues_int hlayout, holds_ne]
        split_ifs <;> rfl
      | float f =>
        obtain ⟨x, rfl⟩ := typed_float hlayout htl
        obtain ⟨y, rfl⟩ := typed_float hlayout htr
        obtain ⟨hx, hy⟩ := numbers_of_ordered hordered
        simp [emitBinaryValues_float hlayout, ordered_of_numbers hx hy, holds_ne]
      | pointer =>
        obtain ⟨x, rfl⟩ := typed_pointer hlayout htl
        obtain ⟨y, rfl⟩ := typed_pointer hlayout htr
        simp [emitBinaryValues_pointer hlayout, holds_ne]
      | str => exact absurd (eq_str_of_layout hlayout) hstr
      | struct fields =>
        rw [structFields_of_layout hlayout] at hfields
        cases hfields
      | other => exact absurd hlayout hother

theorem isAssignable_cases {actual expected : TypeRef} (h : isAssignable d actual expected = true) :
    actual = expected ∨ (actual = str ∧ expected = .named "error") ∨
      (∃ name, expected = .named name ∧ d.declared name = some .iface) ∨
      ∃ inner, expected = .pointer inner true ∧ (actual = nil ∨ actual = .pointer inner false) := by
  by_cases heq : actual = expected
  · exact Or.inl heq
  · by_cases herror : actual = str ∧ expected = .named "error"
    · exact Or.inr (Or.inl herror)
    · simp only [isAssignable, if_neg heq, if_neg herror] at h
      cases expected with
      | named name =>
        by_cases hiface : isIface d (.named name) = true
        · exact Or.inr (Or.inr (Or.inl ⟨name, rfl, of_decide_eq_true hiface⟩))
        · simp [hiface] at h
      | pointer inner nullable =>
        cases nullable with
        | false => cases h
        | true =>
          simp only [Bool.or_eq_true, decide_eq_true_eq] at h
          exact Or.inr (Or.inr (Or.inr ⟨inner, rfl, h⟩))
      | _ => cases h

theorem llvmType_error : llvmType d (.named "error") = .other := by
  have hint : intWidth "error" = none := by decide
  have hfloat : floatFormat "error" = none := by decide
  have hnone : d.declared "error" = none := d.apart "error" (by decide)
  simp [llvmType, hint, hfloat, hnone]

/-- The operands of an `==` that the type checker lets through. -/
theorem accepted_eq {fuel : ℕ} (h : accepts d fuel .eq tl tr = true) (htl : HasType d l tl)
    (htr : HasType d r tr) :
    ((tl = nil ∨ tr = nil) ∧ (∃ a, l = .pointer a) ∧ ∃ b, r = .pointer b) ∨
      (tl ≠ nil ∧ tr ≠ nil ∧ HasType d r tl ∧ (tr = tl ∨ llvmType d tl = .pointer ∧
        llvmType d tr = .pointer) ∧ ∃ seen, Closed d seen ∧ tl ∈ seen) := by
  rw [accepts, if_pos (Or.inl rfl)] at h
  have hpointer : ∀ {u : TypeRef}, isNullablePointer u = true → llvmType d u = .pointer := by
    intro u hu
    cases u with
    | pointer inner nullable => rfl
    | _ => cases hu
  by_cases hnil : tl = nil ∨ tr = nil
  · rw [if_pos hnil] at h
    refine Or.inl ⟨hnil, ?_⟩
    by_cases hleft : tl = nil
    · rw [if_pos hleft] at h
      subst hleft
      exact ⟨typed_pointer rfl htl, typed_pointer (hpointer h) htr⟩
    · rw [if_neg hleft] at h
      have hright := hnil.resolve_left hleft
      subst hright
      exact ⟨typed_pointer (hpointer h) htl, typed_pointer rfl htr⟩
  · obtain ⟨hleft, hright⟩ := not_or.mp hnil
    rw [if_neg hnil, Bool.and_eq_true, Option.isSome_iff_exists] at h
    obtain ⟨hassign, seen, hseen⟩ := h
    obtain ⟨hclosed, hmem⟩ := closed_of_comparable hseen
    refine Or.inr ⟨hleft, hright, ?_⟩
    rcases isAssignable_cases hassign with rfl | ⟨-, rfl⟩ | ⟨name, rfl, hdeclared⟩ |
      ⟨inner, rfl, hactual⟩
    · exact ⟨htr, Or.inl rfl, seen, hclosed, hmem⟩
    · exact absurd llvmType_error (hclosed _ hmem).1
    · exact absurd (llvmType_declared hdeclared).2 (hclosed _ hmem).1
    · cases hactual.resolve_left hright
      obtain ⟨b, rfl⟩ := typed_pointer rfl htr
      exact ⟨⟨rfl, fun hfalse => nomatch hfalse⟩, Or.inr ⟨rfl, rfl⟩, seen, hclosed, hmem⟩

end Equality

end NewClLang.ComparableValues
