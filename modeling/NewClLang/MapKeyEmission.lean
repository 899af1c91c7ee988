import NewClLang.MapKeyFunctions
import NewClLang.TypePropertySearch

set_option autoImplicit false

/-!
# Keys that can be hashed

A type that the type checker accepts for the keys of a map is hashed and compared where it is given
as a string. A pointer is recognized by its string only, and the types of fields are no strings.
-/
namespace NewClLang.MapKeyEmission
open ExceptOutcomes TypeRefs TypeSyntax TypeTexts TypeKeys TypeProperties TypePropertySearch MapKeyFunctions
open Comparisons (integerTypes intWidth)

section Fuel
variable {types : KeyTypes}

theorem emitMapHashValue_succ {n : ℕ} {t : TypeForm} {code : HashCode}
    (h : emitMapHashValue types n t = .ok code) : emitMapHashValue types (n + 1) t = .ok code := by
  induction n generalizing t code with
  | zero => cases h
  | succ n ih =>
    rw [emitMapHashValue] at h ⊢
    by_cases hstr : t.spelled = "str"
    · rw [if_pos hstr] at h ⊢
      exact h
    rw [if_neg hstr] at h ⊢
    cases hfields : types.structFields t.spelled with
    | none =>
      rw [hfields] at h
      exact h
    | some fields =>
      rw [hfields] at h
      obtain ⟨codes, hcodes, hcode⟩ := map_eq_ok.mp h
      exact map_eq_ok.mpr ⟨codes, emitFields_mono (fun _ _ => ih) hcodes, hcode⟩

theorem emitMapEqValue_succ {n : ℕ} {t : TypeForm} {code : EqCode}
    (h : emitMapEqValue types n t = .ok code) : emitMapEqValue types (n + 1) t = .ok code := by
  induction n generalizing t code with
  | zero => cases h
  | succ n ih =>
    rw [emitMapEqValue] at h ⊢
    by_cases hstr : t.spelled = "str"
    · rw [if_pos hstr] at h ⊢
      exact h
    rw [if_neg hstr] at h ⊢
    cases hfields : types.structFields t.spelled with
    | none =>
      rw [hfields] at h
      exact h
    | some fields =>
      rw [hfields] at h
      obtain ⟨codes, hcodes, hcode⟩ := map_eq_ok.mp h
      exact map_eq_ok.mpr ⟨codes, emitFields_mono (fun _ _ => ih) hcodes, hcode⟩

variable {γ : Type} {emit : ℕ → TypeForm → Emission γ} {fields : List (String × TypeRef)}

/-- The emission succeeds, with as much fuel as it needs. -/
def Emits (emit : ℕ → TypeForm → Emission γ) (t : TypeForm) : Prop :=
  ∃ fuel code, emit fuel t = .ok code

theorem emit_le (hsucc : ∀ n t code, emit n t = .ok code → emit (n + 1) t = .ok code) {n m : ℕ}
    (hle : n ≤ m) {t : TypeForm} {code : γ} (h : emit n t = .ok code) : emit m t = .ok code := by
  induction hle with
  | refl => exact h
  | step _ ih => exact hsucc _ _ _ ih

/-- The fields of a struct share their fuel. -/
theorem emits_fields (hsucc : ∀ n t code, emit n t = .ok code → emit (n + 1) t = .ok code) :
    (∃ fuel codes, emitFields (fun t => emit fuel (.object t)) fields = .ok codes) ↔
      ∀ f ∈ fields, Emits emit (.object f.2) := by
  constructor
  · rintro ⟨fuel, codes, h⟩ f hf
    exact ⟨fuel, emitFields_all.mp ⟨codes, h⟩ f hf⟩
  · intro h
    induction fields with
    | nil => exact ⟨0, [], rfl⟩
    | cons field fields ih =>
      obtain ⟨n, code, hcode⟩ := h field List.mem_cons_self
      obtain ⟨m, codes, hcodes⟩ := ih fun f hf => h f (List.mem_cons_of_mem field hf)
      refine ⟨max n m, emitFields_all.mpr ?_⟩
      intro f hf
      rcases List.mem_cons.mp hf with rfl | hf
      · exact ⟨code, emit_le hsucc (le_max_left n m) hcode⟩
      · obtain ⟨code', hcode'⟩ := emitFields_all.mp ⟨codes, hcodes⟩ f hf
        exact ⟨code', emit_le hsucc (le_max_right n m) hcode'⟩

/-- A struct is emitted if and only if its fields are. -/
theorem emits_struct (mk : List γ → γ) {t : TypeForm}
    (hsucc : ∀ n t code, emit n t = .ok code → emit (n + 1) t = .ok code)
    (hzero : ∀ code, emit 0 t ≠ .ok code)
    (hemit : ∀ n, emit (n + 1) t = (emitFields (fun t => emit n (.object t)) fields).map mk) :
    Emits emit t ↔ ∀ f ∈ fields, Emits emit (.object f.2) := by
  rw [← emits_fields hsucc]
  constructor
  · rintro ⟨fuel, code, h⟩
    cases fuel with
    | zero => exact absurd h (hzero code)
    | succ n =>
      rw [hemit] at h
      obtain ⟨codes, hcodes, _⟩ := map_eq_ok.mp h
      exact ⟨n, codes, hcodes⟩
  · rintro ⟨n, codes, hcodes⟩
    exact ⟨n + 1, mk codes, (hemit n).trans (map_eq_ok.mpr ⟨codes, hcodes, rfl⟩)⟩

end Fuel

section Shapes
variable {d : TypeDeclarations}

/-- The names of the types that a map hashes as numbers or as strings. -/
abbrev keyScalars : List String := integerTypes ++ ["bool", "str", "rune"]

/-- The builtin types are not declared. -/
def BuiltinsApart (d : TypeDeclarations) : Prop :=
  ∀ name ∈ keyScalars, d.structs.lookup name = none

/-- What a type that can be a key is. -/
inductive KeyShape (d : TypeDeclarations) : TypeRef → Prop where
  | pointer {inner : TypeRef} {nullable : Bool} : KeyShape d (.pointer inner nullable)
  | scalar {name : String} (h : name ∈ keyScalars)
      (hkind : hashColumn (kind d (.named name)) = .yes) : KeyShape d (.named name)
  | enum {name : String} (hname : name ∉ scalarTypes) (h : d.lookup name = some .enum)
      (hkind : kind d (.named name) = .enum) : KeyShape d (.named name)
  | struct {name : String} {fields : List (String × TypeRef)} (hname : name ∉ scalarTypes)
      (h : d.lookup name = some (.struct fields)) (hkind : kind d (.named name) = .struct) :
      KeyShape d (.named name)

theorem keyShape {r : TypeRef} (h : hashColumn (kind d r) ≠ .no) : KeyShape d r := by
  cases r with
  | pointer inner nullable => exact .pointer
  | slice elem => exact absurd rfl h
  | array n elem => exact absurd rfl h
  | function params ret fallible => exact absurd rfl h
  | generic base args =>
    have hkind : kind d (.generic base args) =
        if isMapType (.generic base args) then .map else .other := rfl
    rw [hkind] at h
    by_cases hmap : isMapType (.generic base args) = true
    · rw [if_pos hmap] at h
      exact absurd rfl h
    · rw [if_neg hmap] at h
      exact absurd rfl h
  | named name =>
    by_cases hscalar : name ∈ scalarTypes
    · have hkind := (kind_scalar (d := d) hscalar).2.2
      rw [hkind] at h
      by_cases hfloat : name ∈ Comparisons.floatTypes
      · rw [if_pos hfloat] at h
        exact absurd rfl h
      · rw [if_neg hfloat] at hkind
        refine .scalar ?_ hkind
        simp only [Comparisons.numericTypes, List.mem_append] at hscalar ⊢
        tauto
    rw [kind_declared hscalar] at h
    by_cases hvoid : name = "void"
    · rw [if_pos hvoid] at h
      exact absurd rfl h
    rw [if_neg hvoid] at h
    by_cases hiface : name ∈ d.ifaces
    · rw [if_pos hiface] at h
      exact absurd rfl h
    rw [if_neg hiface] at h
    cases hlookup : d.lookup name with
    | none =>
      rw [hlookup] at h
      exact absurd rfl h
    | some symbol =>
      cases symbol with
      | enum =>
        refine .enum hscalar hlookup ?_
        rw [kind_declared hscalar, if_neg hvoid, if_neg hiface, hlookup]
      | struct fields =>
        refine .struct hscalar hlookup ?_
        rw [kind_declared hscalar, if_neg hvoid, if_neg hiface, hlookup]

theorem lookup_structs {name : String} {fields : List (String × TypeRef)}
    (h : d.lookup name = some (.struct fields)) : d.structs.lookup name = some fields := by
  unfold TypeDeclarations.lookup at h
  cases hlookup : d.structs.lookup name with
  | none =>
    rw [hlookup] at h
    dsimp only at h
    split at h <;> cases h
  | some found =>
    rw [hlookup] at h
    cases h
    rfl

theorem lookup_enums {name : String} (h : d.lookup name = some .enum) :
    d.structs.lookup name = none ∧ name ∈ d.enums := by
  unfold TypeDeclarations.lookup at h
  cases hlookup : d.structs.lookup name with
  | none =>
    rw [hlookup] at h
    dsimp only at h
    by_cases henum : name ∈ d.enums
    · exact ⟨rfl, henum⟩
    · rw [if_neg henum] at h
      cases h
  | some found =>
    rw [hlookup] at h
    cases h

end Shapes

section Emitted
variable {d : TypeDeclarations} {name : String} {fields : List (String × TypeRef)} {t : TypeForm}
  {r : TypeRef}

abbrev hashEmitter (d : TypeDeclarations) : ℕ → TypeForm → Emission HashCode :=
  emitMapHashValue (declaredTypes d)

abbrev eqEmitter (d : TypeDeclarations) : ℕ → TypeForm → Emission EqCode :=
  emitMapEqValue (declaredTypes d)

theorem hash_struct (hstr : t.spelled ≠ "str") (h : d.structs.lookup t.spelled = some fields) :
    Emits (hashEmitter d) t ↔ ∀ f ∈ fields, Emits (hashEmitter d) (.object f.2) := by
  refine emits_struct HashCode.struct (fun _ _ _ => emitMapHashValue_succ) (fun _ => ?_)
    (fun n => ?_)
  · intro hzero
    cases hzero
  · rw [hashEmitter, emitMapHashValue, if_neg hstr]
    simp only [declaredTypes, h]

theorem eq_struct (hstr : t.spelled ≠ "str") (h : d.structs.lookup t.spelled = some fields) :
    Emits (eqEmitter d) t ↔ ∀ f ∈ fields, Emits (eqEmitter d) (.object f.2) := by
  refine emits_struct EqCode.struct (fun _ _ _ => emitMapEqValue_succ) (fun _ => ?_)
    (fun n => ?_)
  · intro hzero
    cases hzero
  · rw [eqEmitter, emitMapEqValue, if_neg hstr]
    simp only [declaredTypes, h]

theorem hash_scalar (hapart : BuiltinsApart d) (h : t.spelled ∈ keyScalars) :
    Emits (hashEmitter d) t := by
  by_cases hstr : t.spelled = "str"
  · exact ⟨1, .str, if_pos hstr⟩
  have hwidth : (intWidth t.spelled).isSome = true := by
    have hall : ∀ name ∈ keyScalars, name ≠ "str" → (intWidth name).isSome = true := by decide
    exact hall _ h hstr
  refine ⟨1, .mix, ?_⟩
  rw [hashEmitter, emitMapHashValue, if_neg hstr]
  simp only [declaredTypes, hapart _ h, hwidth, Bool.or_true, if_true, ite_self]

theorem hash_enum (hstr : t.spelled ≠ "str") (h : d.lookup t.spelled = some .enum) :
    Emits (hashEmitter d) t := by
  obtain ⟨hnone, henum⟩ := lookup_enums h
  refine ⟨1, .mix, ?_⟩
  rw [hashEmitter, emitMapHashValue, if_neg hstr]
  simp only [declaredTypes, hnone, henum, decide_true, Bool.true_or, if_true, ite_self]

/-- What is compared as a whole is compared in any case. -/
theorem eq_leaf (h : t.spelled = "str" ∨ d.structs.lookup t.spelled = none) :
    Emits (eqEmitter d) t := by
  by_cases hstr : t.spelled = "str"
  · exact ⟨1, .str, if_pos hstr⟩
  refine ⟨1, .icmp, ?_⟩
  rw [eqEmitter, emitMapEqValue, if_neg hstr]
  simp only [declaredTypes, h.resolve_left hstr]

theorem pointer_undeclared (d : TypeDeclarations) (inner : TypeRef) (nullable : Bool) :
    typeKey (.pointer inner nullable) ≠ "str" ∧
      d.structs.lookup (typeKey (.pointer inner nullable)) = none ∧
      typeKey (.pointer inner nullable) ∉ d.enums ∧
      intWidth (typeKey (.pointer inner nullable)) = none := by
  have hr : ∀ name, TypeRef.pointer inner nullable ≠ .named name := fun _ h => nomatch h
  obtain ⟨_, hlookup⟩ := compound_undeclared (d := d) hr
  have hbuiltin := compound_not_builtin hr
  generalize typeKey (.pointer inner nullable) = key at hlookup hbuiltin ⊢
  refine ⟨?_, ?_, ?_, ?_⟩
  · rintro rfl
    exact hbuiltin (by decide)
  · cases hstruct : d.structs.lookup key with
    | none => rfl
    | some found =>
      rw [TypeDeclarations.lookup, hstruct] at hlookup
      cases hlookup
  · intro henum
    rw [TypeDeclarations.lookup] at hlookup
    split at hlookup
    · cases hlookup
    · rw [if_pos henum] at hlookup
      cases hlookup
  · refine Comparisons.intWidth.eq_def key ▸ List.lookup_eq_none_iff.mpr ?_
    intro entry hentry
    rw [bne_iff_ne]
    rintro rfl
    refine hbuiltin ?_
    have hall : ∀ entry ∈ [("i8", 8), ("i16", 16), ("i32", 32), ("i64", 64), ("u8", 8), ("u16", 16),
        ("u32", 32), ("u64", 64), ("bool", 1), ("rune", 32)], entry.1 ∈ languageTypes := by decide
    exact hall entry hentry

theorem hash_pointer_object {inner : TypeRef} {nullable : Bool} :
    ¬ Emits (hashEmitter d) (.object (.pointer inner nullable)) := by
  rintro ⟨fuel, code, h⟩
  obtain ⟨hstr, hnone, henum, hwidth⟩ := pointer_undeclared d inner nullable
  cases fuel with
  | zero => cases h
  | succ n =>
    rw [hashEmitter, emitMapHashValue] at h
    simp [declaredTypes, TypeForm.spelled, hstr, hnone, henum, hwidth, isPointerText] at h

theorem hash_pointer_text {inner : TypeRef} {nullable : Bool} :
    Emits (hashEmitter d) (.text (typeKey (.pointer inner nullable))) := by
  obtain ⟨hstr, hnone, _, _⟩ := pointer_undeclared d inner nullable
  have hpointer : isPointerText (.text (typeKey (.pointer inner nullable))) = true := by
    have htext : (typeKey (.pointer inner nullable)).toList = text (.pointer inner nullable) := rfl
    rw [isPointerText, htext, text_eq]
    cases nullable <;> simp [body, stars]
  refine ⟨1, .mix, ?_⟩
  rw [hashEmitter, emitMapHashValue]
  simp only [declaredTypes, TypeForm.spelled, hstr, if_false, hnone, hpointer, if_true]

end Emitted

section Exactness
variable {d : TypeDeclarations} {r : TypeRef}

/-- No struct among the parts of a type contains itself by value. -/
def Nested (d : TypeDeclarations) (r : TypeRef) : Prop :=
  Acc (fun s r => PartOf d hashColumn r s) r

theorem struct_parts {name : String} {fields : List (String × TypeRef)}
    (hlookup : d.lookup name = some (.struct fields)) (hkind : kind d (.named name) = .struct)
    (s : TypeRef) : PartOf d hashColumn (.named name) s ↔ ∃ f ∈ fields, f.2 = s := by
  have hparts : partsOf d (.named name) = fields.map Prod.snd := by rw [partsOf, hlookup]
  rw [PartOf, hparts, hkind, List.mem_map]
  exact ⟨fun h => h.2, fun h => ⟨rfl, h⟩⟩

/-- A pointer is reached by no field. -/
def NoPointerField (d : TypeDeclarations) (r : TypeRef) : Prop :=
  ∀ s, Relation.TransGen (PartOf d hashColumn) r s → isPointer s = false

theorem noPointerField_leaf (h : hashColumn (kind d r) ≠ .ifParts) : NoPointerField d r := by
  intro s hs
  obtain ⟨u, hpart, _⟩ := Relation.TransGen.head'_iff.mp hs
  exact absurd hpart.1 h

theorem noPointerField_struct {name : String} {fields : List (String × TypeRef)}
    (hlookup : d.lookup name = some (.struct fields)) (hkind : kind d (.named name) = .struct) :
    NoPointerField d (.named name) ↔
      ∀ f ∈ fields, isPointer f.2 = false ∧ NoPointerField d f.2 := by
  have hparts := struct_parts hlookup hkind
  constructor
  · intro h f hf
    have hfield := (hparts f.2).mpr ⟨f, hf, rfl⟩
    exact ⟨h f.2 (.single hfield), fun s hs => h s (.head hfield hs)⟩
  · intro h s hs
    obtain ⟨u, hu, hrest⟩ := Relation.TransGen.head'_iff.mp hs
    obtain ⟨f, hf, rfl⟩ := (hparts u).mp hu
    rcases Relation.reflTransGen_iff_eq_or_transGen.mp hrest with rfl | hdeep
    · exact (h f hf).1
    · exact (h f hf).2 s hdeep

theorem not_str {name : String} (h : name ∉ scalarTypes) : name ≠ "str" := by
  rintro rfl
  exact h (by decide)

/-- A hash is emitted if and only if no field is a pointer, and the type itself is none where it is
    given as an object. -/
theorem hash_emitted (hapart : BuiltinsApart d) (hnested : Nested d r) (hhas : Has d hashColumn r)
    {t : TypeForm} (ht : IsForm r t) :
    Emits (hashEmitter d) t ↔ (t = .object r → isPointer r = false) ∧ NoPointerField d r := by
  induction hnested generalizing t with
  | intro r _ ih =>
  have hkey := ht.spelled
  cases keyShape (hhas r .refl) with
  | @pointer inner nullable =>
    rcases ht with rfl | rfl
    · exact iff_of_false hash_pointer_object fun h => Bool.noConfusion (h.1 rfl)
    · refine iff_of_true hash_pointer_text ⟨(nomatch ·), noPointerField_leaf ?_⟩
      cases nullable <;> exact fun h => nomatch h
  | @scalar name hname hkind =>
    refine iff_of_true (hash_scalar hapart ?_) ⟨fun _ => rfl, noPointerField_leaf ?_⟩
    · rw [hkey]
      exact hname
    · rw [hkind]
      exact fun h => nomatch h
  | @enum name hname hlookup hkind =>
    refine iff_of_true (hash_enum ?_ ?_) ⟨fun _ => rfl, noPointerField_leaf ?_⟩
    · rw [hkey]
      exact not_str hname
    · rw [hkey]
      exact hlookup
    · rw [hkind]
      exact fun h => nomatch h
  | @struct name fields hname hlookup hkind =>
    have hstr : t.spelled ≠ "str" := by
      rw [hkey]
      exact not_str hname
    have hfields : d.structs.lookup t.spelled = some fields := by
      rw [hkey]
      exact lookup_structs hlookup
    rw [hash_struct hstr hfields, noPointerField_struct hlookup hkind]
    have hform : ∀ f ∈ fields, (Emits (hashEmitter d) (.object f.2) ↔
        isPointer f.2 = false ∧ NoPointerField d f.2) := by
      intro f hf
      have hu := (struct_parts hlookup hkind f.2).mpr ⟨f, hf, rfl⟩
      rw [ih f.2 hu (fun s hs => hhas s (.head hu hs)) (Or.inl rfl), forall_prop_of_true rfl]
    exact ⟨fun h => ⟨fun _ => rfl, fun f hf => (hform f hf).mp (h f hf)⟩,
      fun h f hf => (hform f hf).mpr (h.2 f hf)⟩

/-- What can be hashed according to the type checker is compared in any case. -/
theorem eq_emitted (hapart : BuiltinsApart d) (hnested : Nested d r) (hhas : Has d hashColumn r)
    {t : TypeForm} (ht : IsForm r t) : Emits (eqEmitter d) t := by
  induction hnested generalizing t with
  | intro r _ ih =>
  have hkey := ht.spelled
  cases keyShape (hhas r .refl) with
  | pointer =>
    refine eq_leaf (Or.inr ?_)
    rw [hkey]
    exact (pointer_undeclared d _ _).2.1
  | @scalar name hname hkind =>
    refine eq_leaf (Or.inr ?_)
    rw [hkey]
    exact hapart name hname
  | @enum name hname hlookup hkind =>
    refine eq_leaf (Or.inr ?_)
    rw [hkey]
    exact (lookup_enums hlookup).1
  | @struct name fields hname hlookup hkind =>
    have hstr : t.spelled ≠ "str" := by
      rw [hkey]
      exact not_str hname
    have hfields : d.structs.lookup t.spelled = some fields := by
      rw [hkey]
      exact lookup_structs hlookup
    rw [eq_struct hstr hfields]
    intro f hf
    have hu := (struct_parts hlookup hkind f.2).mpr ⟨f, hf, rfl⟩
    exact ih f.2 hu (fun s hs => hhas s (.head hu hs)) (Or.inl rfl)

theorem has_of_accepted {r : TypeRef} (hr : WellNamed r) {fuel : ℕ} {seen : List String}
    (h : hashComparableErrorType d fuel (.text (typeKey r)) [] = some (none, seen)) :
    Has d hashColumn r := by
  have hlooks : Looks (d := d) hashColumn (lookByKey (hashVerdict d)) :=
    looks_byKey fun _ _ => hashVerdict_eq
  have hvisit : Visits (d := d) r (.text (typeKey r)) :=
    ⟨r, List.mem_append_left _ (mem_chain r), hr, Or.inr rfl⟩
  have hpassed := GraphSearch.search_passed (hlooks.lawful r) hvisit h
  intro s hs hno
  obtain ⟨hnamed, u, hreach, hu⟩ := hlooks.reached hr (Or.inr rfl) hs
  exact hpassed.reaches (hlooks.lawful r) hvisit hreach ((hlooks.bad hnamed hu).mpr hno)

/-- Where the type checker accepts a type for the keys of a map, its hash and its equality are
    emitted if and only if no field in it is a pointer. -/
theorem emitted_iff {r : TypeRef} (hapart : BuiltinsApart d) (hr : WellNamed r)
    (hnested : Nested d r) {fuel : ℕ} {seen : List String}
    (haccepted : hashComparableErrorType d fuel (.text (typeKey r)) [] = some (none, seen)) :
    (Emits (hashEmitter d) (.text (typeKey r)) ∧ Emits (eqEmitter d) (.text (typeKey r))) ↔
      NoPointerField d r := by
  have hhas := has_of_accepted hr haccepted
  have hhash : Emits (hashEmitter d) (.text (typeKey r)) ↔ NoPointerField d r := by
    rw [hash_emitted hapart hnested hhas (Or.inr rfl)]
    exact and_iff_right fun h => nomatch h
  rw [hhash]
  exact and_iff_left (eq_emitted hapart hnested hhas (Or.inr rfl))

/-- A list whose nodes are linked by pointers, and a point. -/
def linkedTypes : TypeDeclarations where
  structs :=
    [("Node", [("value", .named "i32"), ("next", .pointer (.named "Node") true)]),
      ("Point", [("x", .named "i32"), ("name", .named "str")])]
  enums := []
  ifaces := []
  names := by
    have hnames : ∀ name ∈ ["Node", "Point"], IsTypeName name := typeNames_of_test (by decide)
    have hother : ∀ name ∈ ["Node", "Point"], name ≠ "void" ∧ name ≠ "error" := by decide
    exact fun name hname => ⟨hnames name hname, hother name hname⟩
  fields := by
    have hname : ∀ name ∈ ["i32", "Node", "str"], IsTypeName name :=
      typeNames_of_test (by decide)
    intro s hs f hf
    simp only [List.mem_cons, List.not_mem_nil, or_false] at hs
    rcases hs with rfl | rfl
    · simp only [List.mem_cons, List.not_mem_nil, or_false] at hf
      rcases hf with rfl | rfl
      · exact .named (hname _ (by decide))
      · exact .pointer (.named (hname _ (by decide)))
    · simp only [List.mem_cons, List.not_mem_nil, or_false] at hf
      rcases hf with rfl | rfl
      · exact .named (hname _ (by decide))
      · exact .named (hname _ (by decide))

/-- The type of the nodes is accepted, and its hash cannot be emitted. -/
theorem node_not_hashed :
    (∃ seen, hashComparableErrorType linkedTypes 3 (.text "Node") [] = some (none, seen)) ∧
      ∀ fuel, emitMapHashValue (declaredTypes linkedTypes) (fuel + 2) (.text "Node") =
        .error (.notImplemented "LLVM backend cannot hash map key ?*Node") :=
  ⟨⟨["?*Node", "i32", "Node"], rfl⟩, fun _ => rfl⟩

theorem emitted_iff_point :
    (Emits (hashEmitter linkedTypes) (.text "Point") ∧
      Emits (eqEmitter linkedTypes) (.text "Point")) ↔
      NoPointerField linkedTypes (.named "Point") := by
  have hnames : ∀ name ∈ ["Point"], IsTypeName name := typeNames_of_test (by decide)
  have hname : IsTypeName "Point" := hnames _ List.mem_cons_self
  have hnested : Nested linkedTypes (.named "Point") := by
    refine .intro _ fun s hs => .intro _ fun u hu => ?_
    have hparts : partsOf linkedTypes (.named "Point") = [.named "i32", .named "str"] := rfl
    have hmem := hs.2
    rw [hparts, List.mem_pair] at hmem
    rcases hmem with rfl | rfl
    · exact nomatch hu.1
    · exact nomatch hu.1
  have haccepted : hashComparableErrorType linkedTypes 3 (.text (typeKey (.named "Point"))) [] =
      some (none, ["str", "i32", "Point"]) := rfl
  have hapart : BuiltinsApart linkedTypes := by
    unfold BuiltinsApart
    decide
  exact emitted_iff hapart (.named hname) hnested haccepted

end Exactness

end NewClLang.MapKeyEmission
