import NewClLang.TypeProperties

set_option autoImplicit false

/-!
# The searches for types without a property

Each of them finds a type if and only if one without the property can be reached, by the matrix. The
form in which a type is given makes no difference, as what is read back from its text has the same
text and the same parts.
-/
namespace NewClLang.TypePropertySearch
open TypeRefs TypeSyntax TypeTexts TypeKeys TypeRoundTrip GraphSearch
open TypeProperties
open Comparisons (integerTypes floatTypes numericTypes)

section Forms

/-- A type as it stands in the program, and its canonical string. -/
def IsForm (r : TypeRef) (t : TypeForm) : Prop := t = .object r ∨ t = .text (typeKey r)

theorem IsForm.spelled {r : TypeRef} {t : TypeForm} (h : IsForm r t) : t.spelled = typeKey r := by
  rcases h with rfl | rfl <;> rfl

theorem IsForm.ref {r : TypeRef} {t : TypeForm} (hr : WellNamed r) (h : IsForm r t) :
    t.ref = some r ∨ t.ref = some (reread r) := by
  rcases h with rfl | rfl
  · exact Or.inl rfl
  · exact Or.inr (parseTypeRef_format hr)

theorem wellNamed_assign {r : TypeRef} (h : WellNamed r) (k : ℕ) : WellNamed (assign k r) := by
  have hall {ts : List TypeRef} (ih : ∀ t ∈ ts, ∀ k, WellNamed (assign k t)) :
      ∀ t ∈ rereadAll ts, WellNamed t := by
    intro t ht
    rw [rereadAll_eq] at ht
    obtain ⟨s, hs, rfl⟩ := List.mem_map.mp ht
    exact ih s hs _
  induction h generalizing k with
  | named h => exact .named h
  | pointer _ ih => exact .pointer (ih k)
  | slice _ ih => exact .slice (ih k)
  | array _ ih => exact .array (ih k)
  | function _ _ ihp ihr => exact .function (hall ihp) (ihr (k - 1))
  | generic h _ ih => exact .generic h (hall ih)

/-- Only a name is printed without a mark. -/
theorem typeKey_ne_name {r : TypeRef} (hr : ∀ name, r ≠ .named name) {name : String}
    (hname : IsTypeName name) : typeKey r ≠ name := by
  have hmark : ∃ c ∈ (typeKey r).toList, c ∈ ['*', '[', '('] := by
    have htext : (typeKey r).toList = text r := rfl
    rw [htext, text_eq]
    cases r with
    | named n => exact absurd rfl (hr n)
    | pointer inner nullable => cases nullable <;> exact ⟨'*', by simp [body, stars], by decide⟩
    | slice elem => exact ⟨'[', by simp [body], by decide⟩
    | array n elem => exact ⟨'[', by simp [body], by decide⟩
    | function params ret fallible => exact ⟨'(', by simp [body], by decide⟩
    | generic base args => exact ⟨'[', by simp [body], by decide⟩
  rintro rfl
  obtain ⟨c, hc, hmem⟩ := hmark
  have hplain := (wordChar_ne (hname.2 c hc)).2
  simp only [List.mem_cons, List.not_mem_nil, or_false] at hmem hplain
  tauto

end Forms

section Verdicts
variable (d : TypeDeclarations)

/-- The parts in the form in which they are passed on. -/
def partForms : TypeRef → List TypeForm
  | .named name =>
    match d.lookup name with
    | some (.struct fields) => fields.map (fun f => .object f.2)
    | _ => []
  | .array _ elem => [.text (typeKey elem)]
  | _ => []

/-- What the matrix makes of one type. -/
def classify (column : Kind → Entry) (r : TypeRef) : Verdict TypeForm :=
  match column (kind d r) with
  | .yes => .good
  | .no => .bad
  | .ifParts => .parts (partForms d r)

variable {d}

theorem lookup_undeclared {name : String}
    (h : name ∉ d.structs.map Prod.fst ++ d.enums ++ d.ifaces) :
    name ∉ d.ifaces ∧ d.lookup name = none := by
  simp only [List.mem_append, not_or] at h
  obtain ⟨⟨hstruct, henum⟩, hiface⟩ := h
  have hnone : d.structs.lookup name = none := by
    rw [List.lookup_eq_none_iff]
    intro s hs
    rw [bne_iff_ne]
    rintro rfl
    exact hstruct (List.mem_map_of_mem hs)
  refine ⟨hiface, ?_⟩
  rw [TypeDeclarations.lookup, hnone]
  exact if_neg henum

theorem builtin_undeclared {name : String} (h : name = "void" ∨ name = "error") :
    name ∉ d.ifaces ∧ d.lookup name = none := by
  refine lookup_undeclared ?_
  intro hmem
  obtain ⟨_, hvoid, herror⟩ := d.names name hmem
  exact h.elim hvoid herror

/-- A type that is no name is not declared, and no builtin type. -/
theorem compound_undeclared {r : TypeRef} (hr : ∀ name, r ≠ .named name) :
    typeKey r ∉ d.ifaces ∧ d.lookup (typeKey r) = none := by
  refine lookup_undeclared ?_
  intro hmem
  exact typeKey_ne_name hr (d.names _ hmem).1 rfl

def languageTypes : List String := numericTypes ++ ["bool", "str", "rune", "error", "void"]

theorem compound_not_builtin {r : TypeRef} (hr : ∀ name, r ≠ .named name) :
    typeKey r ∉ languageTypes := by
  have hnames : ∀ name ∈ languageTypes, IsTypeName name := typeNames_of_test (by decide)
  intro hmem
  exact typeKey_ne_name hr (hnames _ hmem) rfl

/-- The names that the rules let through first. -/
abbrev scalarTypes : List String := numericTypes ++ ["bool", "str", "rune"]

theorem kind_scalar {name : String} (h : name ∈ scalarTypes) :
    eqColumn (kind d (.named name)) = .yes ∧ zeroColumn (kind d (.named name)) = .yes ∧
      hashColumn (kind d (.named name)) = if name ∈ floatTypes then .no else .yes := by
  simp only [scalarTypes, numericTypes, integerTypes, floatTypes, List.cons_append,
    List.nil_append, List.mem_cons, List.not_mem_nil, or_false] at h
  rcases h with rfl | rfl | rfl | rfl | rfl | rfl | rfl | rfl | rfl | rfl | rfl | rfl | rfl <;>
    simp [kind, namedKind, integerTypes, floatTypes, eqColumn, zeroColumn, hashColumn]

theorem kind_declared {name : String} (h : name ∉ scalarTypes) :
    kind d (.named name) =
      if name = "void" then .void
      else if name ∈ d.ifaces then .iface
      else
        match d.lookup name with
        | none => .other
        | some .enum => .enum
        | some (.struct _) => .struct := by
  simp only [scalarTypes, numericTypes, List.mem_append, List.mem_cons, List.not_mem_nil, or_false,
    not_or] at h
  obtain ⟨⟨hint, hfloat⟩, hbool, hstr, hrune⟩ := h
  exact (if_neg hfloat).trans ((if_neg hint).trans
    ((if_neg hbool).trans ((if_neg hstr).trans (if_neg hrune))))

/-- The entries for the types that are found in the symbol table, or are not. -/
structure Resolves (column : Kind → Entry) : Prop where
  other : column .other = .no
  void : column .void = .no
  enum : column .enum = .yes
  struct : column .struct = .ifParts

theorem declaredVerdict_eq {column : Kind → Entry} (hc : Resolves column) {name : String}
    (h : name ∉ scalarTypes) (hiface : name ∉ d.ifaces) :
    declaredVerdict d (.named name) = classify d column (.named name) := by
  have hkey : typeKey (.named name) = name := rfl
  rw [classify, kind_declared h, declaredVerdict, hkey]
  by_cases hvoid : name = "void"
  · rw [if_pos hvoid, (builtin_undeclared (Or.inl hvoid)).2]
    simp only [hc.void]
  · rw [if_neg hvoid, if_neg hiface]
    cases hlookup : d.lookup name with
    | none => simp only [hc.other]
    | some symbol =>
      cases symbol with
      | enum => simp only [hc.enum]
      | struct fields => simp only [hc.struct, partForms, hlookup]

/-- An error is no scalar, and is not declared. -/
theorem classify_error {column : Kind → Entry} (hc : Resolves column) :
    classify d column (.named "error") = .bad := by
  obtain ⟨hiface, hnone⟩ := builtin_undeclared (d := d) (Or.inr rfl)
  rw [← declaredVerdict_eq hc (by decide) hiface, declaredVerdict]
  change (match d.lookup "error" with | none => _ | some .enum => _ | some (.struct _) => _) = _
  rw [hnone]

theorem kind_iface {name : String} (h : name ∉ scalarTypes) (hiface : name ∈ d.ifaces) :
    kind d (.named name) = .iface := by
  have hvoid : name ≠ "void" := fun heq => (builtin_undeclared (Or.inl heq)).1 hiface
  rw [kind_declared h, if_neg hvoid, if_pos hiface]

theorem isIfaceType_named (name : String) :
    isIfaceType d (.named name) = decide (name ∈ d.ifaces) := by
  rw [isIfaceType, List.contains_eq_mem]
  rfl

end Verdicts

section Rules
variable {d : TypeDeclarations} {r : TypeRef} {t : TypeForm} {name : String}

theorem resolves_eq : Resolves eqColumn := ⟨rfl, rfl, rfl, rfl⟩

theorem resolves_hash : Resolves hashColumn := ⟨rfl, rfl, rfl, rfl⟩

theorem resolves_zero : Resolves zeroColumn := ⟨rfl, rfl, rfl, rfl⟩

theorem comparableVerdict_named (ht : t.spelled = name) :
    comparableVerdict d t (.named name) = classify d eqColumn (.named name) := by
  unfold comparableVerdict
  rw [ht]
  by_cases hscalar : name ∈ scalarTypes
  · rw [if_pos hscalar, classify, (kind_scalar hscalar).1]
  rw [if_neg hscalar]
  by_cases herror : name = "error"
  · rw [if_pos herror, herror, classify_error resolves_eq]
  rw [if_neg herror, isIfaceType_named]
  by_cases hiface : name ∈ d.ifaces
  · rw [classify, kind_iface hscalar hiface]
    simp [isPointerType, isNullablePointerType, isMapType, isSlice, isArray, isFn, hiface, eqColumn]
  · rw [← declaredVerdict_eq resolves_eq hscalar hiface]
    simp [isPointerType, isNullablePointerType, isMapType, isSlice, isArray, isFn, hiface]

theorem hashVerdict_named (ht : t.spelled = name) :
    hashVerdict d t (.named name) = classify d hashColumn (.named name) := by
  unfold hashVerdict
  rw [ht]
  by_cases hfloat : name ∈ floatTypes
  · have hscalar : name ∈ scalarTypes := List.mem_append_left _ (List.mem_append_right _ hfloat)
    rw [if_pos hfloat, classify, (kind_scalar hscalar).2.2, if_pos hfloat]
  rw [if_neg hfloat]
  by_cases hscalar : name ∈ scalarTypes
  · rw [if_pos hscalar, classify, (kind_scalar hscalar).2.2, if_neg hfloat]
  rw [if_neg hscalar]
  by_cases herror : name = "error"
  · rw [if_pos herror, herror, classify_error resolves_hash]
  rw [if_neg herror, isIfaceType_named]
  by_cases hiface : name ∈ d.ifaces
  · rw [classify, kind_iface hscalar hiface]
    simp [isPointerType, isNullablePointerType, isMapType, isSlice, isArray, isFn, hiface,
      hashColumn]
  · rw [← declaredVerdict_eq resolves_hash hscalar hiface]
    simp [isPointerType, isNullablePointerType, isMapType, isSlice, isArray, isFn, hiface]

theorem zeroVerdict_named (ht : t.spelled = name) :
    zeroVerdict d t (.named name) = classify d zeroColumn (.named name) := by
  unfold zeroVerdict
  rw [ht]
  by_cases hvoid : name = "void"
  · have hscalar : name ∉ scalarTypes := by
      rw [hvoid]
      decide
    rw [if_pos hvoid, classify, kind_declared hscalar, if_pos hvoid]
    rfl
  rw [if_neg hvoid]
  by_cases hscalar : name ∈ scalarTypes
  · rw [if_pos hscalar, classify, (kind_scalar hscalar).2.1]
  rw [if_neg hscalar]
  by_cases hiface : name ∈ d.ifaces
  · rw [classify, kind_iface hscalar hiface]
    simp [isPointerType, isNullablePointerType, isMapType, isIfaceType_named, hiface, zeroColumn]
  · rw [← declaredVerdict_eq resolves_zero hscalar hiface]
    simp [isPointerType, isNullablePointerType, isMapType, isIfaceType_named, hiface]

/-- A type that is no name is spelled unlike every builtin type. -/
theorem compound_spelled (hr : ∀ name, r ≠ .named name) (ht : t.spelled = typeKey r) :
    t.spelled ∉ floatTypes ∧ t.spelled ∉ scalarTypes ∧ t.spelled ≠ "error" ∧
      t.spelled ≠ "void" := by
  have hnot := compound_not_builtin hr
  rw [← ht] at hnot
  refine ⟨?_, ?_, ?_, ?_⟩
  · exact fun h => hnot (List.mem_append_left _ (List.mem_append_right _ h))
  · intro h
    refine hnot ?_
    rcases List.mem_append.mp h with hnumeric | hother
    · exact List.mem_append_left _ hnumeric
    · refine List.mem_append_right _ ?_
      revert hother
      simp only [List.mem_cons, List.not_mem_nil, or_false]
      tauto
  · rintro h
    rw [h] at hnot
    exact hnot (by decide)
  · rintro h
    rw [h] at hnot
    exact hnot (by decide)

theorem compound_unresolved (hr : ∀ name, r ≠ .named name) :
    isIfaceType d r = false ∧ declaredVerdict d r = .bad := by
  obtain ⟨hiface, hnone⟩ := compound_undeclared (d := d) hr
  refine ⟨?_, ?_⟩
  · rw [isIfaceType, List.contains_eq_mem]
    exact decide_eq_false hiface
  · rw [declaredVerdict, hnone]

theorem comparableVerdict_eq (ht : t.spelled = typeKey r) :
    comparableVerdict d t r = classify d eqColumn r := by
  by_cases hr : ∃ name, r = .named name
  · obtain ⟨name, rfl⟩ := hr
    exact comparableVerdict_named ht
  have hr : ∀ name, r ≠ .named name := not_exists.mp hr
  obtain ⟨_, hscalar, herror, _⟩ := compound_spelled hr ht
  obtain ⟨hiface, hdeclared⟩ := compound_unresolved (d := d) hr
  unfold comparableVerdict
  rw [if_neg hscalar, if_neg herror, hiface, hdeclared, classify]
  cases r with
  | named name => exact absurd rfl (hr name)
  | pointer inner nullable =>
    cases nullable <;> simp [isPointerType, isNullablePointerType, kind, eqColumn]
  | slice elem | array n elem | function params ret fallible =>
    simp [isPointerType, isNullablePointerType, isMapType, isSlice, isArray, isFn, kind, eqColumn]
  | generic base args =>
    cases hmap : isMapType (.generic base args) <;>
      simp [isPointerType, isNullablePointerType, isSlice, isArray, isFn, kind, hmap, eqColumn]

theorem hashVerdict_eq (ht : t.spelled = typeKey r) :
    hashVerdict d t r = classify d hashColumn r := by
  by_cases hr : ∃ name, r = .named name
  · obtain ⟨name, rfl⟩ := hr
    exact hashVerdict_named ht
  have hr : ∀ name, r ≠ .named name := not_exists.mp hr
  obtain ⟨hfloat, hscalar, herror, _⟩ := compound_spelled hr ht
  obtain ⟨hiface, hdeclared⟩ := compound_unresolved (d := d) hr
  unfold hashVerdict
  rw [if_neg hfloat, if_neg hscalar, if_neg herror, hiface, hdeclared, classify]
  cases r with
  | named name => exact absurd rfl (hr name)
  | pointer inner nullable =>
    cases nullable <;> simp [isPointerType, isNullablePointerType, kind, hashColumn]
  | slice elem | array n elem | function params ret fallible =>
    simp [isPointerType, isNullablePointerType, isMapType, isSlice, isArray, isFn, kind, hashColumn]
  | generic base args =>
    cases hmap : isMapType (.generic base args) <;>
      simp [isPointerType, isNullablePointerType, isSlice, isArray, isFn, kind, hmap, hashColumn]

theorem zeroVerdict_eq (ht : t.spelled = typeKey r) :
    zeroVerdict d t r = classify d zeroColumn r := by
  by_cases hr : ∃ name, r = .named name
  · obtain ⟨name, rfl⟩ := hr
    exact zeroVerdict_named ht
  have hr : ∀ name, r ≠ .named name := not_exists.mp hr
  obtain ⟨_, hscalar, _, hvoid⟩ := compound_spelled hr ht
  obtain ⟨hiface, hdeclared⟩ := compound_unresolved (d := d) hr
  unfold zeroVerdict
  rw [if_neg hvoid, if_neg hscalar, classify]
  cases r with
  | named name => exact absurd rfl (hr name)
  | pointer inner nullable =>
    cases nullable <;> simp [isPointerType, isNullablePointerType, kind, zeroColumn]
  | slice elem | array n elem | function params ret fallible =>
    simp [isPointerType, isNullablePointerType, isMapType, kind, zeroColumn, partForms]
  | generic base args =>
    cases hmap : isMapType (.generic base args) <;>
      simp [isPointerType, isNullablePointerType, kind, hmap, hiface, hdeclared, zeroColumn]

end Rules

section Exactness
variable (d : TypeDeclarations)

/-- A type, and the types of the elements of an array in it. -/
def chain : TypeRef → List TypeRef
  | .array n elem => .array n elem :: chain elem
  | r => [r]

/-- The types that a search from `r` can come to. -/
def nodes (r : TypeRef) : List TypeRef :=
  chain r ++ d.structs.flatMap (fun s => s.2.flatMap (fun f => chain f.2))

variable {d} {column : Kind → Entry}

theorem mem_chain (r : TypeRef) : r ∈ chain r := by
  cases r <;> exact List.mem_cons_self

theorem chain_elem {r elem : TypeRef} {n : ℕ} (h : .array n elem ∈ chain r) : elem ∈ chain r := by
  cases r with
  | array k inner =>
    rcases List.mem_cons.mp h with heq | hmem
    · cases heq
      exact List.mem_cons_of_mem _ (mem_chain _)
    · exact List.mem_cons_of_mem _ (chain_elem hmem)
  | _ => cases List.mem_singleton.mp h

theorem lookup_struct {name : String} {fields : List (String × TypeRef)}
    (h : d.lookup name = some (.struct fields)) : (name, fields) ∈ d.structs := by
  unfold TypeDeclarations.lookup at h
  cases hlookup : d.structs.lookup name with
  | none =>
    rw [hlookup] at h
    dsimp only at h
    split at h <;> cases h
  | some found =>
    rw [hlookup] at h
    cases h
    obtain ⟨before, after, heq, _⟩ := List.lookup_eq_some_iff.mp hlookup
    rw [heq]
    exact List.mem_append_right _ List.mem_cons_self

theorem nodes_part {root r s : TypeRef} (hr : r ∈ nodes d root) (hs : s ∈ partsOf d r) :
    s ∈ nodes d root := by
  cases r with
  | named name =>
    rw [partsOf] at hs
    cases hlookup : d.lookup name with
    | none =>
      rw [hlookup] at hs
      cases hs
    | some symbol =>
      cases symbol with
      | enum =>
        rw [hlookup] at hs
        cases hs
      | struct fields =>
        rw [hlookup] at hs
        obtain ⟨f, hf, rfl⟩ := List.mem_map.mp hs
        refine List.mem_append_right _ (List.mem_flatMap.mpr ⟨_, lookup_struct hlookup, ?_⟩)
        exact List.mem_flatMap.mpr ⟨f, hf, mem_chain f.2⟩
  | array n elem =>
    cases List.mem_singleton.mp hs
    rcases List.mem_append.mp hr with hroot | hfield
    · exact List.mem_append_left _ (chain_elem hroot)
    · obtain ⟨st, hst, hfield⟩ := List.mem_flatMap.mp hfield
      obtain ⟨f, hf, hmem⟩ := List.mem_flatMap.mp hfield
      refine List.mem_append_right _ (List.mem_flatMap.mpr ⟨st, hst, ?_⟩)
      exact List.mem_flatMap.mpr ⟨f, hf, chain_elem hmem⟩
  | _ => cases hs

theorem wellNamed_part {r s : TypeRef} (hr : WellNamed r) (hs : s ∈ partsOf d r) :
    WellNamed s := by
  cases r with
  | named name =>
    rw [partsOf] at hs
    cases hlookup : d.lookup name with
    | none =>
      rw [hlookup] at hs
      cases hs
    | some symbol =>
      cases symbol with
      | enum =>
        rw [hlookup] at hs
        cases hs
      | struct fields =>
        rw [hlookup] at hs
        obtain ⟨f, hf, rfl⟩ := List.mem_map.mp hs
        exact d.fields _ (lookup_struct hlookup) f hf
  | array n elem =>
    cases List.mem_singleton.mp hs
    cases hr with
    | array h => exact h
  | _ => cases hs

/-- The parts are passed on in one of their forms. -/
theorem partForms_form {r : TypeRef} {t : TypeForm} (h : t ∈ partForms d r) :
    ∃ s ∈ partsOf d r, IsForm s t := by
  cases r with
  | named name =>
    rw [partForms] at h
    cases hlookup : d.lookup name with
    | none =>
      rw [hlookup] at h
      cases h
    | some symbol =>
      cases symbol with
      | enum =>
        rw [hlookup] at h
        cases h
      | struct fields =>
        rw [hlookup] at h
        obtain ⟨f, hf, rfl⟩ := List.mem_map.mp h
        refine ⟨f.2, ?_, Or.inl rfl⟩
        rw [partsOf, hlookup]
        exact List.mem_map_of_mem hf
  | array n elem =>
    cases List.mem_singleton.mp h
    exact ⟨elem, List.mem_singleton_self elem, Or.inr rfl⟩
  | _ => cases h

theorem partForms_part {r s : TypeRef} (h : s ∈ partsOf d r) :
    ∃ t ∈ partForms d r, IsForm s t := by
  cases r with
  | named name =>
    rw [partsOf] at h
    cases hlookup : d.lookup name with
    | none =>
      rw [hlookup] at h
      cases h
    | some symbol =>
      cases symbol with
      | enum =>
        rw [hlookup] at h
        cases h
      | struct fields =>
        rw [hlookup] at h
        obtain ⟨f, hf, rfl⟩ := List.mem_map.mp h
        refine ⟨.object f.2, ?_, Or.inl rfl⟩
        rw [partForms, hlookup]
        exact List.mem_map_of_mem (f := fun f => TypeForm.object f.2) hf
  | array n elem =>
    cases List.mem_singleton.mp h
    exact ⟨_, List.mem_singleton_self _, Or.inr rfl⟩
  | _ => cases h

theorem classify_parts {r : TypeRef} {items : List TypeForm}
    (h : classify d column r = .parts items) :
    column (kind d r) = .ifParts ∧ items = partForms d r := by
  unfold classify at h
  cases hentry : column (kind d r) with
  | yes =>
    rw [hentry] at h
    cases h
  | no =>
    rw [hentry] at h
    cases h
  | ifParts =>
    rw [hentry] at h
    cases h
    exact ⟨rfl, rfl⟩

theorem classify_bad {r : TypeRef} : classify d column r = .bad ↔ column (kind d r) = .no := by
  unfold classify
  cases column (kind d r) <;> simp

/-- A type and what is read back from its text are classified alike. -/
theorem classify_reread {r : TypeRef} (hr : WellNamed r) :
    classify d column (reread r) = classify d column r := by
  cases hr with
  | named _ => rfl
  | @pointer inner nullable _ => rfl
  | slice _ => rfl
  | @array n elem h =>
    have hsame : partForms d (reread (.array n elem)) = partForms d (.array n elem) := by
      have hstep : reread (.array n elem) = .array n (reread elem) := rfl
      rw [hstep, partForms, partForms, typeKey_reread h]
    unfold classify
    rw [hsame]
    rfl
  | function _ _ => rfl
  | @generic name args _ _ =>
    have hstep : reread (.generic (.named name) args) =
        .generic (.named name) (args.map reread) := by
      rw [← rereadAll_eq]
      rfl
    have hmap : isMapType (.generic (.named name) (args.map reread)) =
        isMapType (.generic (.named name) args) := by
      match args with
      | [] | [_] | [_, _] | _ :: _ :: _ :: _ => rfl
    have hkind : kind d (.generic (.named name) (args.map reread)) =
        kind d (.generic (.named name) args) := by
      change (if isMapType _ then Kind.map else .other) = if isMapType _ then Kind.map else .other
      rw [hmap]
    rw [hstep, classify, classify, hkind]
    rfl

/-- What is read back from the text of a type is known by the text. -/
theorem classify_key {r s : TypeRef} (hr : WellNamed r) (hs : WellNamed s)
    (h : typeKey r = typeKey s) : classify d column r = classify d column s := by
  have hreread : parseTypeRef (typeKey r) = some (reread r) := parseTypeRef_format hr
  have hread : reread r = reread s := by
    rw [h] at hreread
    exact Option.some.inj (hreread.symm.trans (parseTypeRef_format hs))
  rw [← classify_reread hr, ← classify_reread hs, hread]

/-- What the search looks up of a type in either form. -/
def Looks (column : Kind → Entry) (look : TypeForm → Option (String × Verdict TypeForm)) : Prop :=
  ∀ r t, WellNamed r → IsForm r t → look t = some (typeKey r, classify d column r)

/-- The types that are looked at in a search from `root`. -/
def Visits (root : TypeRef) (t : TypeForm) : Prop :=
  ∃ r ∈ nodes d root, WellNamed r ∧ IsForm r t

variable {look : TypeForm → Option (String × Verdict TypeForm)}

theorem Looks.part (h : Looks (d := d) column look) {r : TypeRef} {t u : TypeForm}
    (hr : WellNamed r) (ht : IsForm r t) (hpart : Part look t u) :
    ∃ s, PartOf d column r s ∧ WellNamed s ∧ IsForm s u := by
  obtain ⟨key, items, hlook, hu⟩ := hpart
  rw [h r t hr ht, Option.some.injEq, Prod.mk.injEq] at hlook
  obtain ⟨hentry, rfl⟩ := classify_parts hlook.2
  obtain ⟨s, hs, hform⟩ := partForms_form hu
  exact ⟨s, ⟨hentry, hs⟩, wellNamed_part hr hs, hform⟩

theorem Looks.alike (h : Looks (d := d) column look) {r s : TypeRef} {t u : TypeForm} {key : String}
    {v w : Verdict TypeForm} (hr : WellNamed r) (ht : IsForm r t) (hs : WellNamed s)
    (hu : IsForm s u) (hlook : look t = some (key, v)) (hlook' : look u = some (key, w)) :
    v = w := by
  rw [h r t hr ht, Option.some.injEq, Prod.mk.injEq] at hlook
  rw [h s u hs hu, Option.some.injEq, Prod.mk.injEq] at hlook'
  rw [← hlook.2, ← hlook'.2]
  exact classify_key hr hs (hlook.1.trans hlook'.1.symm)

theorem Looks.lawful (h : Looks (d := d) column look) (root : TypeRef) :
    Lawful look (Visits (d := d) root) where
  defined := by
    rintro t ⟨r, _, hr, ht⟩
    exact ⟨_, h r t hr ht⟩
  closed := by
    rintro t u ⟨r, hmem, hr, ht⟩ hpart
    obtain ⟨s, hs, hnamed, hform⟩ := h.part hr ht hpart
    exact ⟨s, nodes_part hmem hs.2, hnamed, hform⟩
  alike_bad := by
    rintro t u key v ⟨r, _, hr, ht⟩ ⟨s, _, hs, hu⟩ hlook hlook'
    exact (h.alike hr ht hs hu hlook hlook').symm
  alike_parts := by
    rintro t u key items v ⟨r, _, hr, ht⟩ ⟨s, _, hs, hu⟩ hlook hlook'
    have hsame := h.alike hr ht hs hu hlook hlook'
    exact ⟨items, hsame.symm, fun z hz => ⟨z, hz, rfl⟩⟩

theorem Looks.bad (h : Looks (d := d) column look) {r : TypeRef} {t : TypeForm} (hr : WellNamed r)
    (ht : IsForm r t) : Bad look t ↔ column (kind d r) = .no := by
  rw [← classify_bad]
  constructor
  · rintro ⟨key, hlook⟩
    rw [h r t hr ht, Option.some.injEq, Prod.mk.injEq] at hlook
    exact hlook.2
  · intro hbad
    refine ⟨typeKey r, ?_⟩
    rw [h r t hr ht, hbad]

/-- What the search can come to are the types that can be reached, in one of their forms. -/
theorem Looks.reaches (h : Looks (d := d) column look) {r : TypeRef} {t u : TypeForm}
    (hr : WellNamed r) (ht : IsForm r t) (hu : Reaches look t u) :
    ∃ s, Relation.ReflTransGen (PartOf d column) r s ∧ WellNamed s ∧ IsForm s u := by
  induction hu with
  | refl => exact ⟨r, .refl, hr, ht⟩
  | tail _ hpart ih =>
    obtain ⟨s, hreach, hs, hform⟩ := ih
    obtain ⟨s', hpart', hs', hform'⟩ := h.part hs hform hpart
    exact ⟨s', hreach.tail hpart', hs', hform'⟩

theorem Looks.reached (h : Looks (d := d) column look) {r s : TypeRef} {t : TypeForm}
    (hr : WellNamed r) (ht : IsForm r t) (hs : Relation.ReflTransGen (PartOf d column) r s) :
    WellNamed s ∧ ∃ u, Reaches look t u ∧ IsForm s u := by
  induction hs with
  | refl => exact ⟨hr, t, .refl, ht⟩
  | @tail s s' _ hpart ih =>
    obtain ⟨hs, u, hreach, hu⟩ := ih
    obtain ⟨hentry, hmem⟩ := hpart
    obtain ⟨u', hu'mem, hu'⟩ := partForms_part hmem
    have hclass : classify d column s = .parts (partForms d s) := by
      rw [classify, hentry]
    have hstep : Part look u u' := by
      refine ⟨typeKey s, partForms d s, ?_, hu'mem⟩
      rw [h s u hs hu, hclass]
    exact ⟨wellNamed_part hs hmem, u', hreach.tail hstep, hu'⟩

theorem Looks.exact (h : Looks (d := d) column look) {r : TypeRef} {t : TypeForm} (hr : WellNamed r)
    (ht : IsForm r t) {fuel : ℕ} (hfuel : (nodes d r).length < fuel) :
    ∃ error seen, search look fuel t [] = some (error, seen) ∧ (error = none ↔ Has d column r) := by
  have hkeys : ∀ u key v, Visits (d := d) r u → look u = some (key, v) →
      key ∈ (nodes d r).map typeKey := by
    rintro u key v ⟨s, hmem, hs, hu⟩ hlook
    rw [h s u hs hu, Option.some.injEq, Prod.mk.injEq] at hlook
    rw [← hlook.1]
    exact List.mem_map_of_mem hmem
  have hvisit : Visits (d := d) r t := ⟨r, List.mem_append_left _ (mem_chain r), hr, ht⟩
  obtain ⟨error, seen, hsearch, hexact⟩ :=
    search_exact (h.lawful r) hkeys hvisit (by rwa [List.length_map])
  refine ⟨error, seen, hsearch, hexact.trans ⟨?_, ?_⟩⟩
  · intro hnone s hs
    obtain ⟨hnamed, u, hreach, hu⟩ := h.reached hr ht hs
    exact fun hno => hnone u hreach ((h.bad hnamed hu).mpr hno)
  · intro hhas u hu hbad
    obtain ⟨s, hreach, hs, hform⟩ := h.reaches hr ht hu
    exact hhas s hreach ((h.bad hs hform).mp hbad)

end Exactness

section Searches
variable {d : TypeDeclarations} {column : Kind → Entry}
  {verdict : TypeForm → TypeRef → Verdict TypeForm}

/-- The rules for one type follow the matrix in both forms of the type. -/
theorem verdict_form
    (hverdict : ∀ r t, TypeForm.spelled t = typeKey r → verdict t r = classify d column r)
    {r : TypeRef} {t : TypeForm} (hr : WellNamed r) (ht : IsForm r t) :
    ∃ r', t.ref = some r' ∧ typeKey r' = typeKey r ∧ verdict t r' = classify d column r := by
  rcases ht.ref hr with hself | hreread
  · exact ⟨r, hself, rfl, hverdict r t ht.spelled⟩
  · have hkey : typeKey (reread r) = typeKey r := typeKey_reread hr
    refine ⟨reread r, hreread, hkey, ?_⟩
    rw [hverdict _ t (ht.spelled.trans hkey.symm)]
    exact classify_reread hr

theorem looks_byKey
    (hverdict : ∀ r t, TypeForm.spelled t = typeKey r → verdict t r = classify d column r) :
    Looks (d := d) column (lookByKey verdict) := by
  intro r t hr ht
  obtain ⟨r', href, hkey, hclass⟩ := verdict_form hverdict hr ht
  rw [lookByKey, href, Option.map_some, hkey, hclass]

theorem looks_bySelf
    (hverdict : ∀ r t, TypeForm.spelled t = typeKey r → verdict t r = classify d column r) :
    Looks (d := d) column (lookBySelf verdict) := by
  intro r t hr ht
  obtain ⟨r', href, _, hclass⟩ := verdict_form hverdict hr ht
  rw [lookBySelf, href, Option.map_some, ht.spelled, hclass]

/-- How the type that was found is printed. -/
def answer (found : Option (Found TypeForm String)) : Option (Option String) :=
  found.map (fun f => f.1.map TypeForm.spelled)

variable {look : TypeForm → Option (String × Verdict TypeForm)}

/-- The two forms of a type have the same parts, so that they are told apart only where the type
    itself is found. -/
theorem Looks.answer_object (h : Looks (d := d) column look) {r : TypeRef} {t : TypeForm}
    (hr : WellNamed r) (ht : IsForm r t) (fuel : ℕ) (seen : List String) :
    answer (search look fuel t seen) = answer (search look fuel (.object r) seen) := by
  cases fuel with
  | zero => rfl
  | succ fuel =>
    rw [search, search, h r t hr ht, h r (.object r) hr (Or.inl rfl)]
    dsimp only
    by_cases hseen : typeKey r ∈ seen
    · rw [if_pos hseen, if_pos hseen]
    · rw [if_neg hseen, if_neg hseen]
      cases classify d column r with
      | good => rfl
      | parts items => rfl
      | bad =>
        change some (some t.spelled) = _
        rw [ht.spelled]
        rfl

theorem Looks.answered (h : Looks (d := d) column look) {r : TypeRef} (hr : WellNamed r)
    {fuel : ℕ} (hfuel : (nodes d r).length < fuel) :
    ∃ error, (∀ t, IsForm r t → answer (search look fuel t []) = some error) ∧
      (error = none ↔ Has d column r) := by
  obtain ⟨error, seen, hsearch, hexact⟩ := h.exact hr (Or.inl rfl) hfuel
  refine ⟨error.map TypeForm.spelled, ?_, Option.map_eq_none_iff.trans hexact⟩
  intro t ht
  rw [h.answer_object hr ht, hsearch]
  rfl

/-- Two structs that refer to each other. -/
def mutualDeclarations : TypeDeclarations where
  structs :=
    [("Tree", [("size", .named "i32"), ("rest", .named "Forest")]),
      ("Forest", [("first", .array 2 (.named "Tree")), ("weight", .named "f64")])]
  enums := []
  ifaces := []
  names := by
    have hnames : ∀ name ∈ ["Tree", "Forest"], IsTypeName name := typeNames_of_test (by decide)
    have hother : ∀ name ∈ ["Tree", "Forest"], name ≠ "void" ∧ name ≠ "error" := by decide
    exact fun name hname => ⟨hnames name hname, hother name hname⟩
  fields := by
    have hname : ∀ name ∈ ["i32", "Forest", "Tree", "f64"], IsTypeName name :=
      typeNames_of_test (by decide)
    intro s hs f hf
    simp only [List.mem_cons, List.not_mem_nil, or_false] at hs
    rcases hs with rfl | rfl
    · simp only [List.mem_cons, List.not_mem_nil, or_false] at hf
      rcases hf with rfl | rfl
      · exact .named (hname _ (by decide))
      · exact .named (hname _ (by decide))
    · simp only [List.mem_cons, List.not_mem_nil, or_false] at hf
      rcases hf with rfl | rfl
      · exact .array (.named (hname _ (by decide)))
      · exact .named (hname _ (by decide))

end Searches

end NewClLang.TypePropertySearch
