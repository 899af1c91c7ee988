import NewClLang.ComparableValues

set_option autoImplicit false

/-!
# Laws of the comparison operators

The comparisons the type checker lets through agree with each other, but for `!=` on floats: it is
an ordered predicate too, so it is false where an operand is not a number.
-/
namespace NewClLang.ComparisonLaws
open OrderedComparisons TypeRefs Comparisons ComparableValues

section Order
variable {d : Declarations} {tl tr : TypeRef} {op : Predicate}

/-- The predicates of an order. -/
def IsOrder (op : Predicate) : Prop := op ≠ .eq ∧ op ≠ .ne

theorem overload_builtin {name : String} (h : name ∈ builtinTypes) (op : Predicate)
    (tr : TypeRef) : overload d op (.named name) tr = none := by
  cases op <;> simp [overload, derivedOrder, structFields_builtin h]

/-- Where an operator is overloaded, the operands are of one struct type that has a `__lt__`. -/
theorem overload_cases (h : (overload d op tl tr).isSome = true) :
    ∃ name path base, tl = .named name ∧ tr = tl ∧ d.orderMethod name = some (path, base) ∧
      ∀ op', overload d op' tl tr =
        (derivedOrder op').map fun (right, negate) => ⟨path, base, right, negate⟩ := by
  cases hderived : derivedOrder op with
  | none => simp [overload, hderived] at h
  | some marks =>
    cases tl with
    | named name =>
      simp only [overload, hderived] at h
      split_ifs at h with hstruct
      · obtain ⟨hfields, hright⟩ := hstruct
        cases hmethod : d.orderMethod name with
        | none => simp [hmethod] at h
        | some method =>
          obtain ⟨path, base⟩ := method
          refine ⟨name, path, base, rfl, hright, hmethod, ?_⟩
          intro op'
          cases hderived' : derivedOrder op' with
          | none => simp [overload, hderived']
          | some marks' => simp [overload, hderived', hfields, hright, hmethod]
      · cases h
    | _ => simp [overload, hderived] at h

theorem numeric_builtin {name : String} (h : name ∈ numericTypes) : name ∈ builtinTypes :=
  List.mem_append_left _ h

theorem isAssignable_builtin {name : String} (h : name ∈ builtinTypes) (hname : name ≠ "error")
    {actual : TypeRef} (hassign : isAssignable d actual (.named name) = true) :
    actual = .named name := by
  rcases isAssignable_cases hassign with heq | ⟨-, heq⟩ | ⟨_, heq, hdeclared⟩ | ⟨inner, heq, -⟩
  · exact heq
  · cases heq
    exact absurd rfl hname
  · cases heq
    rw [d.apart name h] at hdeclared
    cases hdeclared
  · cases heq

/-- The operands of an order that the type checker lets through. A string can stand on the right of
an error or of an interface. -/
theorem accepted_order {fuel : ℕ} (hop : IsOrder op) (h : accepts d fuel op tl tr = true) :
    (tl = str ∧ tr = str) ∨ (∃ name, tl = .named name ∧ name ∈ numericTypes ∧ tr = tl) ∨
      (overload d op tl tr).isSome = true ∨ (tr = str ∧ llvmType d tl = .other) := by
  have hne : ¬ (op = .eq ∨ op = .ne) := not_or.mpr hop
  simp only [accepts, if_neg hne] at h
  split_ifs at h with hrune hpointer hstr hnumeric
  · by_cases hleft : tl = str
    · subst hleft
      exact Or.inl ⟨rfl, isAssignable_builtin (by decide) (by decide) h⟩
    · have hright := hstr.resolve_left hleft
      subst hright
      refine Or.inr (Or.inr (Or.inr ⟨rfl, ?_⟩))
      rcases isAssignable_cases h with heq | ⟨-, rfl⟩ | ⟨name, rfl, hdeclared⟩ | ⟨inner, -, hinner⟩
      · exact absurd heq.symm hleft
      · exact llvmType_error
      · exact (llvmType_declared hdeclared).2
      · rcases hinner with hinner | hinner
        · exact absurd hinner (by decide)
        · cases hinner
  · rw [Bool.and_eq_true] at hnumeric
    cases tl with
    | named name =>
      have hmem : name ∈ numericTypes := List.contains_iff_mem.mp hnumeric.1
      have hname : name ≠ "error" := fun heq => absurd (heq ▸ hmem) (by decide)
      exact Or.inr (Or.inl ⟨name, rfl, hmem,
        isAssignable_builtin (numeric_builtin hmem) hname h⟩)
    | _ => simp [isNumeric] at hnumeric
  · exact Or.inr (Or.inr (Or.inl h))

variable {σ : Type} {call : MethodCall σ} {s : σ}

theorem emitBinary_str (hop : IsOrder op) (x y : List UInt8) :
    emitBinary d call op str str (.str x) (.str y) s = some (op.holds (strCmp x y) 0, s) := by
  have hnone : overload d op str str = none := overload_builtin (by decide) op str
  simp [emitBinary, hnone, emitPlain, hop.1, hop.2, emitStrOrder]

theorem emitBinary_numeric {name : String} (h : name ∈ numericTypes) (op : Predicate)
    (l r : Value) : emitBinary d call op (.named name) (.named name) l r s =
      (emitBinaryValues l op r (.named name)).map (·, s) := by
  have hnone := overload_builtin (d := d) (numeric_builtin h) op (.named name)
  have hfields : structFields d (.named name) = none := structFields_builtin (numeric_builtin h)
  have hstr : TypeRef.named name ≠ str := by
    rintro heq
    cases heq
    exact absurd h (by decide)
  have hnil : TypeRef.named name ≠ nil := by
    rintro heq
    cases heq
    exact absurd h (by decide)
  simp [emitBinary, hnone, emitPlain, hnil, hstr, hfields]

theorem llvmType_numeric {name : String} (h : name ∈ numericTypes) :
    (∃ w, llvmType d (.named name) = .int w) ∨
      ∃ f, llvmType d (.named name) = .float f ∧ floatFormat name = some f := by
  simp only [numericTypes, integerTypes, floatTypes, List.cons_append, List.nil_append,
    List.mem_cons, List.not_mem_nil, or_false] at h
  rcases h with rfl | rfl | rfl | rfl | rfl | rfl | rfl | rfl | rfl | rfl
  all_goals first
    | exact Or.inl ⟨_, rfl⟩
    | exact Or.inr ⟨_, rfl, rfl⟩

theorem llvmType_integer {name : String} (h : name ∈ integerTypes) :
    ∃ w, llvmType d (.named name) = .int w := by
  simp only [integerTypes, List.mem_cons, List.not_mem_nil, or_false] at h
  rcases h with rfl | rfl | rfl | rfl | rfl | rfl | rfl | rfl
  all_goals exact ⟨_, rfl⟩

end Order

section Laws
variable {σ : Type} (d : Declarations) (call : MethodCall σ) (s : σ)

/-- The type checker lets a comparison through. -/
def Admits (op : Predicate) (tl tr : TypeRef) : Prop := ∃ fuel, accepts d fuel op tl tr = true

/-- The conjunction of `==` over the fields of two structs. -/
def fieldsEqual : List (String × TypeRef) → List Value → List Value → Option Bool
  | [], [], [] => some true
  | field :: fields, l :: ls, r :: rs =>
    match emitBinary d call .eq field.2 field.2 l r s, fieldsEqual fields ls rs with
    | some (eq, _), some rest => some (eq && rest)
    | _, _ => none
  | _, _, _ => none

def negated (result : Option (Bool × σ)) : Option (Bool × σ) :=
  result.map fun (b, s) => (!b, s)

/-- What the comparisons of two values are to each other. -/
structure Coherent (tl tr : TypeRef) (a b : Value) : Prop where
  negation : Admits d .eq tl tr → ∃ eq, emitBinary d call .eq tl tr a b s = some (eq, s) ∧
    emitBinary d call .ne tl tr a b s = some (!eq, s)
  symmetric : Admits d .eq tl tr →
    emitBinary d call .eq tl tr a b s = emitBinary d call .eq tr tl b a s
  fieldwise : ∀ fields ls rs, Admits d .eq tl tr → structFields d tl = some fields →
    a = .struct ls → b = .struct rs →
    ∃ eq, fieldsEqual d call s fields ls rs = some eq ∧
      emitBinary d call .eq tl tr a b s = some (eq, s)
  trichotomy : Admits d .lt tl tr → (tl = str ∨ ∃ name ∈ integerTypes, tl = .named name) →
    ∃ lt eq gt, emitBinary d call .lt tl tr a b s = some (lt, s) ∧
      emitBinary d call .eq tl tr a b s = some (eq, s) ∧
      emitBinary d call .lt tr tl b a s = some (gt, s) ∧
      ExactlyOne (lt = true) (eq = true) (gt = true)
  greater : Admits d .gt tl tr → Admits d .lt tr tl →
    emitBinary d call .gt tl tr a b s = emitBinary d call .lt tr tl b a s
  lessEqual : Admits d .le tl tr → Admits d .lt tr tl → (∀ f x, a ≠ .float f x) →
    emitBinary d call .le tl tr a b s = negated (emitBinary d call .lt tr tl b a s)
  greaterEqual : Admits d .ge tl tr → Admits d .lt tl tr → (∀ f x, a ≠ .float f x) →
    emitBinary d call .ge tl tr a b s = negated (emitBinary d call .lt tl tr a b s)
  floats : ∀ f x y op, Admits d op tl tr → op ≠ .ne → a = .float f x → b = .float f y →
    emitBinary d call op tl tr a b s = some (ordered op x y, s)

variable {d call s} {tl tr : TypeRef} {a b : Value}

theorem emitBinary_eq_or_ne (op : Predicate) (hop : op = .eq ∨ op = .ne) :
    emitBinary d call op tl tr a b s = (emitPlain d op tl tr a b).map (·, s) := by
  have hnone : overload d op tl tr = none := by
    rcases hop with rfl | rfl <;> simp [overload, derivedOrder]
  simp [emitBinary, hnone]

theorem emitBinary_eq_of_layout (hother : llvmType d tl ≠ .other) (ha : HasType d a tl)
    (hb : HasType d b tl) :
    emitBinary d call .eq tl tl a b s = (emitEqValues d tl a b).map (·, s) := by
  rw [emitBinary_eq_or_ne .eq (Or.inl rfl)]
  by_cases hnil : tl = nil
  · subst hnil
    obtain ⟨x, rfl⟩ := typed_pointer rfl ha
    obtain ⟨y, rfl⟩ := typed_pointer rfl hb
    have hnone : structFields d nil = none := structFields_builtin (by decide)
    rw [emitEqValues_scalar (by decide) hnone, emitBinaryValues_pointer (d := d) rfl]
    simp [emitPlain, icmp]
  · rw [emitPlain_eq hnil hnil]

/-- The conjunction over the fields is what the loop of `emit_struct_eq` computes. -/
theorem fieldsEqual_eq (call : MethodCall σ) (s : σ) {seen : List TypeRef} (hclosed : Closed d seen)
    {fields : List (String × TypeRef)} {ls rs : List Value}
    (hfields : ∀ field ∈ fields, field.2 ∈ seen) (hls : HaveTypes d ls fields)
    (hrs : HaveTypes d rs fields) (result : Bool) :
    emitStructEq d fields ls rs result =
      (fieldsEqual d call s fields ls rs).map (result && ·) := by
  induction fields generalizing ls rs result with
  | nil =>
    cases ls with
    | nil =>
      cases rs with
      | nil => simp [emitStructEq, fieldsEqual]
      | cons r rs => exact hrs.elim
    | cons l ls => exact hls.elim
  | cons field fields ih =>
    cases ls with
    | nil => exact hls.elim
    | cons l ls =>
      cases rs with
      | nil => exact hrs.elim
      | cons r rs =>
        have hmem := hfields field List.mem_cons_self
        obtain ⟨eq, heq⟩ := emitEqValues_defined hclosed l r field.2 hmem hls.1 hrs.1
        have hrest := ih (fun f hf => hfields f (List.mem_cons_of_mem _ hf)) hls.2 hrs.2
        simp only [emitStructEq, fieldsEqual, heq,
          emitBinary_eq_of_layout (hclosed _ hmem).1 hls.1 hrs.1, Option.map_some, hrest]
        cases fieldsEqual d call s fields ls rs with
        | none => rfl
        | some rest => simp [Bool.and_assoc]

theorem negation_of_ordered (ha : HasType d a tl) (hb : HasType d b tr)
    (hordered : ¬ Unordered a b) (h : Admits d .eq tl tr) :
    ∃ eq, emitBinary d call .eq tl tr a b s = some (eq, s) ∧
      emitBinary d call .ne tl tr a b s = some (!eq, s) := by
  obtain ⟨fuel, h⟩ := h
  rw [emitBinary_eq_or_ne .eq (Or.inl rfl), emitBinary_eq_or_ne .ne (Or.inr rfl)]
  rcases accepted_eq h ha hb with ⟨hnil, ⟨x, rfl⟩, y, rfl⟩ | ⟨hl, hr, hb', -, seen, hclosed, hmem⟩
  · exact ⟨decide (x = y), by simp [emitPlain, hnil, icmp, Predicate.holds],
      by simp [emitPlain, hnil, icmp, Predicate.holds]⟩
  · obtain ⟨eq, heq⟩ := emitEqValues_defined hclosed a b tl hmem ha hb'
    rw [emitPlain_eq hl hr, emitPlain_ne hl hr (hclosed tl hmem).1 ha hb' hordered, heq]
    exact ⟨eq, rfl, rfl⟩

theorem symmetric_of_admitted (ha : HasType d a tl) (hb : HasType d b tr)
    (h : Admits d .eq tl tr) :
    emitBinary d call .eq tl tr a b s = emitBinary d call .eq tr tl b a s := by
  obtain ⟨fuel, h⟩ := h
  rw [emitBinary_eq_or_ne .eq (Or.inl rfl), emitBinary_eq_or_ne .eq (Or.inl rfl)]
  rcases accepted_eq h ha hb with ⟨hnil, ⟨x, rfl⟩, y, rfl⟩ | ⟨hl, hr, hb', htypes, -⟩
  · simp [emitPlain, hnil, hnil.symm, icmp, holds_eq_comm x]
  · rw [emitPlain_eq hl hr, emitPlain_eq hr hl, emitEqValues_comm a]
    rcases htypes with rfl | ⟨hleft, hright⟩
    · rfl
    · obtain ⟨x, rfl⟩ := typed_pointer hleft ha
      obtain ⟨y, rfl⟩ := typed_pointer hright hb
      have hscalar : ∀ u, llvmType d u = .pointer →
          emitEqValues d u (.pointer y) (.pointer x) = some (decide (y = x)) := by
        intro u hu
        rw [emitEqValues_layout (by simp [hu]) (by simp [hu]), emitBinaryValues_pointer hu]
        rfl
      rw [hscalar tl hleft, hscalar tr hright]

theorem fieldwise_of_admitted {fields : List (String × TypeRef)} {ls rs : List Value}
    (ha : HasType d (.struct ls) tl) (hb : HasType d (.struct rs) tr) (h : Admits d .eq tl tr)
    (hfields : structFields d tl = some fields) :
    ∃ eq, fieldsEqual d call s fields ls rs = some eq ∧
      emitBinary d call .eq tl tr (.struct ls) (.struct rs) s = some (eq, s) := by
  obtain ⟨fuel, h⟩ := h
  rw [emitBinary_eq_or_ne .eq (Or.inl rfl)]
  rcases accepted_eq h ha hb with ⟨-, ⟨x, heq⟩, -⟩ | ⟨hl, hr, hb', -, seen, hclosed, hmem⟩
  · cases heq
  · have hlayout := llvmType_struct hfields
    obtain ⟨ls', heq, hls⟩ := typed_struct hlayout ha
    cases heq
    obtain ⟨rs', heq, hrs⟩ := typed_struct hlayout hb'
    cases heq
    have hseen := (hclosed tl hmem).2 fields hfields
    obtain ⟨eq, heq⟩ := emitStructEq_defined hclosed ls rs fields hseen hls hrs true
    have hfold := fieldsEqual_eq call s hclosed hseen hls hrs true
    simp only [Bool.true_and, Option.map_id', heq] at hfold
    refine ⟨eq, hfold.symm, ?_⟩
    rw [emitPlain_eq hl hr]
    simp [emitEqValues, hfields, heq]

theorem trichotomy_of_admitted (ha : HasType d a tl) (hb : HasType d b tr)
    (h : Admits d .lt tl tr) (hkind : tl = str ∨ ∃ name ∈ integerTypes, tl = .named name) :
    ∃ lt eq gt, emitBinary d call .lt tl tr a b s = some (lt, s) ∧
      emitBinary d call .eq tl tr a b s = some (eq, s) ∧
      emitBinary d call .lt tr tl b a s = some (gt, s) ∧
      ExactlyOne (lt = true) (eq = true) (gt = true) := by
  obtain ⟨fuel, h⟩ := h
  have hlt : IsOrder .lt := ⟨by decide, by decide⟩
  rcases hkind with rfl | ⟨name, hname, rfl⟩
  · have hright : tr = str := by
      rcases accepted_order hlt h with ⟨-, hright⟩ | ⟨_, -, -, hright⟩ | hover | ⟨hright, -⟩
      · exact hright
      · exact hright
      · obtain ⟨_, _, _, -, hright, -⟩ := overload_cases hover
        exact hright
      · exact hright
    subst hright
    obtain ⟨x, rfl⟩ := typed_str rfl ha
    obtain ⟨y, rfl⟩ := typed_str rfl hb
    refine ⟨_, decide (strEq x y ≠ 0), _, emitBinary_str hlt x y, ?_, emitBinary_str hlt y x, ?_⟩
    · rw [emitBinary_eq_or_ne .eq (Or.inl rfl), emitPlain_eq (by decide) (by decide),
        emitEqValues_str]
      rfl
    · have hthree := holds_trichotomy (strCmp x y) 0
      have hswap : Predicate.lt.holds (strCmp y x) 0 = Predicate.lt.holds 0 (strCmp x y) := by
        simp [Predicate.holds, strCmp_comm x y]
      have hzero : Predicate.eq.holds (strCmp x y) 0 = decide (strEq x y ≠ 0) := by
        simp [Predicate.holds, strEq_iff]
      rwa [← hswap, hzero] at hthree
  · have hnumeric : name ∈ numericTypes := List.mem_append_left _ hname
    obtain ⟨w, hlayout⟩ := llvmType_integer (d := d) hname
    have hright : tr = .named name := by
      rcases accepted_order hlt h with ⟨heq, -⟩ | ⟨_, -, -, hright⟩ | hover | ⟨-, hother⟩
      · cases heq
        exact absurd hname (by decide)
      · exact hright
      · rw [overload_builtin (numeric_builtin hnumeric)] at hover
        cases hover
      · rw [hlayout] at hother
        cases hother
    subst hright
    obtain ⟨x, rfl⟩ := typed_int hlayout ha
    obtain ⟨y, rfl⟩ := typed_int hlayout hb
    simp only [emitBinary_numeric hnumeric, emitBinaryValues_int hlayout, Option.map_some]
    refine ⟨_, _, _, rfl, rfl, rfl, ?_⟩
    cases readsUnsigned (.named name) with
    | true => exact holds_trichotomy x.toNat y.toNat
    | false => exact holds_trichotomy x.toInt y.toInt

/-- The operands that can be compared either way round. -/
theorem accepted_both {op op' : Predicate} (hop : IsOrder op) (hop' : IsOrder op')
    (h : Admits d op tl tr) (h' : Admits d op' tr tl) :
    (tl = str ∧ tr = str) ∨ (∃ name, tl = .named name ∧ name ∈ numericTypes ∧ tr = tl) ∨
      (overload d op tl tr).isSome = true := by
  obtain ⟨fuel, h⟩ := h
  obtain ⟨fuel', h'⟩ := h'
  rcases accepted_order hop h with hstr | hnumeric | hover | ⟨rfl, hother⟩
  · exact Or.inl hstr
  · exact Or.inr (Or.inl hnumeric)
  · exact Or.inr (Or.inr hover)
  · have hleft : tl = str := by
      rcases accepted_order hop' h' with ⟨-, hleft⟩ | ⟨_, -, -, hleft⟩ | hover | ⟨hleft, -⟩
      · exact hleft
      · exact hleft
      · obtain ⟨_, _, _, -, hleft, -⟩ := overload_cases hover
        exact hleft
      · exact hleft
    exact Or.inl ⟨hleft, rfl⟩

/-- Numbers that are no floats are integers of one width. -/
theorem integers_of_numeric (ha : HasType d a tl) (hb : HasType d b tr)
    {name : String} (hname : name ∈ numericTypes) (hl : tl = .named name) (hr : tr = tl)
    (hfloat : ∀ f x, a ≠ .float f x) :
    ∃ w, ∃ x y : BitVec w, a = .int w x ∧ b = .int w y ∧ llvmType d tl = .int w := by
  subst hr
  subst hl
  rcases llvmType_numeric (d := d) hname with ⟨w, hlayout⟩ | ⟨f, hlayout, -⟩
  · obtain ⟨x, rfl⟩ := typed_int hlayout ha
    obtain ⟨y, rfl⟩ := typed_int hlayout hb
    exact ⟨w, x, y, rfl, rfl, hlayout⟩
  · obtain ⟨x, rfl⟩ := typed_float hlayout ha
    exact absurd rfl (hfloat f x)

theorem greater_of_admitted (ha : HasType d a tl) (hb : HasType d b tr) (h : Admits d .gt tl tr)
    (h' : Admits d .lt tr tl) :
    emitBinary d call .gt tl tr a b s = emitBinary d call .lt tr tl b a s := by
  have hgt : IsOrder .gt := ⟨by decide, by decide⟩
  have hlt : IsOrder .lt := ⟨by decide, by decide⟩
  rcases accepted_both hgt hlt h h' with ⟨rfl, rfl⟩ | ⟨name, rfl, hname, rfl⟩ | hover
  · obtain ⟨x, rfl⟩ := typed_str rfl ha
    obtain ⟨y, rfl⟩ := typed_str rfl hb
    simp [emitBinary_str hgt, emitBinary_str hlt, Predicate.holds, strCmp_comm x y]
  · rw [emitBinary_numeric hname, emitBinary_numeric hname]
    rcases llvmType_numeric (d := d) hname with ⟨w, hlayout⟩ | ⟨f, hlayout, -⟩
    · obtain ⟨x, rfl⟩ := typed_int hlayout ha
      obtain ⟨y, rfl⟩ := typed_int hlayout hb
      simp only [emitBinaryValues_int hlayout, holds_gt]
    · obtain ⟨x, rfl⟩ := typed_float hlayout ha
      obtain ⟨y, rfl⟩ := typed_float hlayout hb
      simp only [emitBinaryValues_float hlayout, ordered_gt]
  · obtain ⟨name, path, base, rfl, rfl, -, hall⟩ := overload_cases hover
    simp [emitBinary, hall, derivedOrder, emitOverload]

theorem lessEqual_of_admitted (ha : HasType d a tl) (hb : HasType d b tr)
    (h : Admits d .le tl tr) (h' : Admits d .lt tr tl) (hfloat : ∀ f x, a ≠ .float f x) :
    emitBinary d call .le tl tr a b s = negated (emitBinary d call .lt tr tl b a s) := by
  have hle : IsOrder .le := ⟨by decide, by decide⟩
  have hlt : IsOrder .lt := ⟨by decide, by decide⟩
  rcases accepted_both hle hlt h h' with ⟨rfl, rfl⟩ | ⟨name, rfl, hname, rfl⟩ | hover
  · obtain ⟨x, rfl⟩ := typed_str rfl ha
    obtain ⟨y, rfl⟩ := typed_str rfl hb
    have hswap : Predicate.lt.holds (strCmp y x) 0 = Predicate.lt.holds 0 (strCmp x y) := by
      simp [Predicate.holds, strCmp_comm x y]
    rw [emitBinary_str hle, emitBinary_str hlt, hswap, holds_le]
    rfl
  · obtain ⟨w, x, y, rfl, rfl, hlayout⟩ := integers_of_numeric ha hb hname rfl rfl hfloat
    rw [emitBinary_numeric hname, emitBinary_numeric hname, emitBinaryValues_int hlayout,
      emitBinaryValues_int hlayout, holds_le, holds_le]
    cases readsUnsigned (.named name) <;> rfl
  · obtain ⟨name, path, base, rfl, rfl, -, hall⟩ := overload_cases hover
    simp only [emitBinary, hall, derivedOrder, Option.map_some, emitOverload, negated]
    cases hpath : followPath d path (.named name) b <;> simp [hpath]

theorem emitBinary_other {op : Predicate} (hop : IsOrder op) (hother : llvmType d tl = .other)
    (ha : HasType d a tl) : emitBinary d call op tl tr a b s = none := by
  have hvalue : a = .other := by
    cases a with
    | other => rfl
    | struct values =>
      obtain ⟨fields, hlayout, -⟩ := ha
      rw [hother] at hlayout
      cases hlayout
    | _ => simp [HasType, hother] at ha
  subst hvalue
  have hfields : structFields d tl = none := structFields_none (by simp [hother])
  have hnone : overload d op tl tr = none := by
    cases hover : overload d op tl tr with
    | none => rfl
    | some o =>
      obtain ⟨name, -, -, rfl, -⟩ := overload_cases (Option.isSome_iff_exists.mpr ⟨o, hover⟩)
      cases hmarks : derivedOrder op <;> simp [overload, hmarks, hfields] at hover
  have hstr : tl ≠ str := by
    rintro rfl
    cases hother
  have hvalues : emitBinaryValues .other op b tl = none := by
    cases tl with
    | named name =>
      simp only [emitBinaryValues]
      split_ifs <;> rfl
    | _ => rfl
  simp [emitBinary, hnone, emitPlain, hop.1, hop.2, hstr, hvalues]

theorem greaterEqual_of_admitted (ha : HasType d a tl) (hb : HasType d b tr)
    (h : Admits d .ge tl tr) (h' : Admits d .lt tl tr) (hfloat : ∀ f x, a ≠ .float f x) :
    emitBinary d call .ge tl tr a b s = negated (emitBinary d call .lt tl tr a b s) := by
  have hge : IsOrder .ge := ⟨by decide, by decide⟩
  have hlt : IsOrder .lt := ⟨by decide, by decide⟩
  obtain ⟨fuel, h⟩ := h
  rcases accepted_order hge h with ⟨rfl, rfl⟩ | ⟨name, rfl, hname, rfl⟩ | hover | ⟨rfl, hother⟩
  · obtain ⟨x, rfl⟩ := typed_str rfl ha
    obtain ⟨y, rfl⟩ := typed_str rfl hb
    rw [emitBinary_str hge, emitBinary_str hlt, holds_ge]
    rfl
  · obtain ⟨w, x, y, rfl, rfl, hlayout⟩ := integers_of_numeric ha hb hname rfl rfl hfloat
    rw [emitBinary_numeric hname, emitBinary_numeric hname, emitBinaryValues_int hlayout,
      emitBinaryValues_int hlayout, holds_ge, holds_ge]
    cases readsUnsigned (.named name) <;> rfl
  · obtain ⟨name, path, base, rfl, rfl, -, hall⟩ := overload_cases hover
    simp only [emitBinary, hall, derivedOrder, Option.map_some, emitOverload, negated]
    cases hpath : followPath d path (.named name) a <;> simp [hpath]
  · rw [emitBinary_other hge hother ha, emitBinary_other hlt hother ha]
    rfl

theorem floatFormat_injective {name name' : String} (h : name ∈ floatTypes)
    (h' : name' ∈ floatTypes) (heq : floatFormat name = floatFormat name') : name = name' := by
  have hall : ∀ n ∈ floatTypes, ∀ n' ∈ floatTypes, floatFormat n = floatFormat n' → n = n' := by
    decide
  exact hall name h name' h' heq

theorem floats_of_typed {f : Format} {x y : BitVec f.width} (ha : HasType d (.float f x) tl)
    (hb : HasType d (.float f y) tr) (op : Predicate) :
    emitBinary d call op tl tr (.float f x) (.float f y) s = some (ordered op x y, s) := by
  obtain ⟨name, rfl, hformat, hname⟩ := floatFormat_of_layout (show llvmType d tl = .float f from ha)
  obtain ⟨name', rfl, hformat', hname'⟩ :=
    floatFormat_of_layout (show llvmType d tr = .float f from hb)
  cases floatFormat_injective hname' hname (hformat'.trans hformat.symm)
  rw [emitBinary_numeric (List.mem_append_right _ hname), emitBinaryValues_float ha]
  rfl

theorem admits_float {f : Format} {x y : BitVec f.width} (ha : HasType d (.float f x) tl)
    (hb : HasType d (.float f y) tr) : Admits d .eq tl tr := by
  obtain ⟨name, rfl, hformat, hname⟩ := floatFormat_of_layout (show llvmType d tl = .float f from ha)
  obtain ⟨name', rfl, hformat', hname'⟩ :=
    floatFormat_of_layout (show llvmType d tr = .float f from hb)
  cases floatFormat_injective hname' hname (hformat'.trans hformat.symm)
  have hnil : TypeRef.named name ≠ nil := by
    rintro heq
    cases heq
    exact absurd hname (by decide)
  have hnumeric : name ∈ numericTypes := List.mem_append_right _ hname
  exact ⟨1, by simp [accepts, hnil, isAssignable, comparableWithin, hnumeric]⟩

/-- The comparisons of two values agree with each other where the values are not two floats one of
which is not a number, and only there. -/
theorem coherent_iff_ordered (ha : HasType d a tl) (hb : HasType d b tr) :
    Coherent d call s tl tr a b ↔ ¬ Unordered a b := by
  constructor
  · rintro hcoherent ⟨f, x, y, rfl, rfl, hnan⟩
    obtain ⟨eq, heq, hne⟩ := hcoherent.negation (admits_float ha hb)
    rw [floats_of_typed ha hb, ordered_of_nan hnan] at heq hne
    cases heq
    cases hne
  · intro hordered
    exact
      { negation := negation_of_ordered ha hb hordered
        symmetric := symmetric_of_admitted ha hb
        fieldwise := by
          rintro fields ls rs h hfields rfl rfl
          exact fieldwise_of_admitted ha hb h hfields
        trichotomy := trichotomy_of_admitted ha hb
        greater := greater_of_admitted ha hb
        lessEqual := lessEqual_of_admitted ha hb
        greaterEqual := greaterEqual_of_admitted ha hb
        floats := by
          rintro f x y op - - rfl rfl
          exact floats_of_typed ha hb op }

/-- A program that declares a struct of a float and a string. -/
def measureProgram : Declarations where
  declared name :=
    if name = "Measure" then some (.struct [("value", .named "f64"), ("unit", str)]) else none
  implements _ _ := false
  orderMethod _ := none
  apart := by decide

/-- What is not a number, of 64 bits. -/
def notANumber : Value := .float binary64 0x7FF8000000000000#64

theorem measures_coherent :
    HasType measureProgram (.struct [notANumber, .str [107]]) (.named "Measure") ∧
      (Coherent measureProgram (fun _ _ _ s => (true, s)) () (.named "Measure") (.named "Measure")
          (.struct [notANumber, .str [107]]) (.struct [notANumber, .str [107]]) ↔
        ¬ Unordered (.struct [notANumber, .str [107]]) (.struct [notANumber, .str [107]])) := by
  have htyped : HasType measureProgram (.struct [notANumber, .str [107]]) (.named "Measure") :=
    ⟨_, rfl, rfl, rfl, trivial⟩
  exact ⟨htyped, coherent_iff_ordered htyped htyped⟩

/-- Neither `==` nor `!=` holds of a value that is not a number and itself. -/
theorem notANumber_incoherent :
    HasType measureProgram notANumber (.named "f64") ∧
      accepts measureProgram 1 .eq (.named "f64") (.named "f64") = true ∧
      accepts measureProgram 1 .ne (.named "f64") (.named "f64") = true ∧
      emitPlain measureProgram .eq (.named "f64") (.named "f64") notANumber notANumber =
        some false ∧
      emitPlain measureProgram .ne (.named "f64") (.named "f64") notANumber notANumber =
        some false ∧
      ¬ Coherent measureProgram (fun _ _ _ s => (true, s)) () (.named "f64") (.named "f64")
        notANumber notANumber := by
  have heq : emitPlain measureProgram .eq (.named "f64") (.named "f64") notANumber notANumber =
      some false := by decide
  have hne : emitPlain measureProgram .ne (.named "f64") (.named "f64") notANumber notANumber =
      some false := by decide
  have haccepts : accepts measureProgram 1 .eq (.named "f64") (.named "f64") = true := by decide
  refine ⟨rfl, haccepts, by decide, heq, hne, ?_⟩
  intro hcoherent
  obtain ⟨eq, hfirst, hsecond⟩ := hcoherent.negation ⟨1, haccepts⟩
  rw [emitBinary_eq_or_ne .eq (Or.inl rfl), heq] at hfirst
  rw [emitBinary_eq_or_ne .ne (Or.inr rfl), hne] at hsecond
  cases hfirst
  cases hsecond

end Laws

end NewClLang.ComparisonLaws
