import Mathlib.Data.Int.Notation
import Mathlib.Data.List.Basic
import Mathlib.Tactic.Common

set_option autoImplicit false

/-!
# Descriptors of erased calls

The globals that `_emit_erased_call` passes for the type arguments of a call, and the `lt` entry
that an erased function calls through them. A type is written as `format_type_ref` prints it.
-/
namespace NewClLang.ErasedDescriptors

def isWordChar (c : Char) : Bool := c.isAlphanum || c == '_'

/-- `re.sub(r"[^A-Za-z0-9_]+", "_", typ)`; `inRun` inside a run of other characters. -/
def collapse : Bool → List Char → List Char
  | _, [] => []
  | inRun, c :: rest =>
    if isWordChar c then c :: collapse false rest
    else if inRun then collapse true rest
    else '_' :: collapse true rest

def stripUnderscores (l : List Char) : List Char :=
  ((l.dropWhile (· == '_')).reverse.dropWhile (· == '_')).reverse

def mangleErasedType (typ : String) : String :=
  let chars := stripUnderscores (collapse false typ.toList)
  if chars.isEmpty then "anon" else String.ofList chars

def descriptorName (typeArgs : List String) : String :=
  let suffix := "_".intercalate (typeArgs.map mangleErasedType)
  "__nc_typedesc_" ++ if suffix = "" then "unit" else suffix

def ltFunctionName (typ : String) : String := "__nc_erased_lt_" ++ mangleErasedType typ

def floatTypes : List String := ["f32", "f64"]

def unsignedIntTypes : List String := ["u8", "u16", "u32", "u64", "bool", "rune"]

/-- The types that `ord_error_type` lets through without a `__lt__`. -/
def orderedScalars : List String :=
  ["i8", "i16", "i32", "i64", "u8", "u16", "u32", "u64", "f32", "f64", "str"]

/-- The comparison of two loaded values of a type. -/
inductive Comparison where
  | strCmp
  | fcmpOrdered
  | icmpUnsigned
  | icmpSigned
  deriving DecidableEq, Repr

/-- The branches of `_erased_lt_function`, and of `emit_binary` where `<` is not overloaded. -/
def comparisonOf (typ : String) : Comparison :=
  if typ = "str" then .strCmp
  else if typ ∈ floatTypes then .fcmpOrdered
  else if typ ∈ unsignedIntTypes then .icmpUnsigned
  else .icmpSigned

inductive LtEntry where
  /-- `_erased_lt_trap_function`. -/
  | trap (typ : String)
  /-- `_erased_lt_function`: both operands are loaded at `typ`. -/
  | less (typ : String) (comparison : Comparison)
  deriving DecidableEq, Repr

/-- The entries besides `lt` are made from the first type argument alone. -/
structure Descriptor where
  typeArg : String
  lt : LtEntry
  deriving DecidableEq, Repr

/-- The globals of one LLVM module, by name. -/
structure Globals where
  descriptors : List (String × Descriptor)
  ltFunctions : List (String × LtEntry)

def emptyGlobals : Globals := ⟨[], []⟩

/-- A call of an erased function: the function's `_erased_ops` and the call's type arguments, of
    which an erased function has at least one. -/
structure ErasedCall where
  ops : List String
  typeArg : String
  others : List String
  deriving DecidableEq, Repr

def ErasedCall.usesLt (c : ErasedCall) : Bool := c.ops.contains "lt"

def ErasedCall.descriptor (c : ErasedCall) : String := descriptorName (c.typeArg :: c.others)

def erasedLtFunction (g : Globals) (typ : String) : Globals × LtEntry :=
  match g.ltFunctions.lookup (ltFunctionName typ) with
  | some fn => (g, fn)
  | none =>
    let fn := .less typ (comparisonOf typ)
    ({ g with ltFunctions := (ltFunctionName typ, fn) :: g.ltFunctions }, fn)

/-- `_erased_descriptor_global`, for the call whose first operand is the global. -/
def erasedDescriptorGlobal (g : Globals) (c : ErasedCall) : Globals :=
  match g.descriptors.lookup c.descriptor with
  | some _ => g
  | none =>
    let (g, lt) := if c.usesLt then erasedLtFunction g c.typeArg else (g, .trap c.typeArg)
    { g with descriptors := (c.descriptor, ⟨c.typeArg, lt⟩) :: g.descriptors }

/-- The definition of a descriptor in a module that emits `calls` in order. -/
def definition (calls : List ErasedCall) (name : String) : Option Descriptor :=
  (calls.foldl erasedDescriptorGlobal emptyGlobals).descriptors.lookup name

/-- What running an entry comes to; `invalid` is code that the LLVM verifier refuses. -/
inductive Outcome where
  | invalid
  | trap
  | value (result : Bool)
  deriving DecidableEq, Repr

/-- The structs with a valid `__lt__`, and what comparisons of the contents of two slots give. -/
structure Types where
  structs : List String
  named : ∀ t ∈ structs, t ∉ orderedScalars
  Slot : Type
  slots : Nonempty Slot
  strCmp : Slot → Slot → ℤ
  fcmpOrdered : String → Slot → Slot → Bool
  icmpUnsigned : String → Slot → Slot → Bool
  icmpSigned : String → Slot → Slot → Bool
  ltMethod : String → Slot → Slot → Bool

section Order
variable (types : Types)

def Types.compare (typ : String) (x y : types.Slot) : Comparison → Bool
  | .strCmp => decide (types.strCmp x y < 0)
  | .fcmpOrdered => types.fcmpOrdered typ x y
  | .icmpUnsigned => types.icmpUnsigned typ x y
  | .icmpSigned => types.icmpSigned typ x y

/-- The operator `<` on two values of a type, as `emit_binary` lowers it. -/
def Types.less (typ : String) (x y : types.Slot) : Bool :=
  if typ ∈ types.structs then types.ltMethod typ x y
  else types.compare typ x y (comparisonOf typ)

/-- A struct is no operand of `icmp`. -/
def Types.run (x y : types.Slot) : LtEntry → Outcome
  | .trap _ => .trap
  | .less typ comparison =>
    if typ ∈ types.structs then .invalid else .value (types.compare typ x y comparison)

def Types.IsOrd (typ : String) : Prop := typ ∈ orderedScalars ∨ typ ∈ types.structs

def Types.Carries (entry : LtEntry) (typ : String) : Prop :=
  ∀ x y, types.run x y entry = .value (types.less typ x y)

/-- An erased function that uses `lt` has one type parameter, and the call an ordered type. -/
def Types.OrdCall (c : ErasedCall) : Prop :=
  c.usesLt = true → c.others = [] ∧ types.IsOrd c.typeArg

end Order

/-- Among the calls that ask for the descriptor, the first is of a function that uses `lt`, at a
    scalar type: at the type itself, or at one that a struct of a name made alike orders by. -/
def Types.FirstLess (types : Types) (calls : List ErasedCall) (name typ : String) : Prop :=
  ∃ c, calls.find? (fun c => c.descriptor == name) = some c ∧ c.usesLt = true ∧
    c.typeArg ∈ orderedScalars ∧
    (c.typeArg = typ ∨
      typ ∈ types.structs ∧ ∀ x y, types.less c.typeArg x y = types.less typ x y)

section Emission

theorem ltFunctionName_inj {typ typ' : String} (h : ltFunctionName typ = ltFunctionName typ') :
    descriptorName [typ] = descriptorName [typ'] := by
  have hmangle : mangleErasedType typ = mangleErasedType typ' :=
    (String.append_right_inj _).mp h
  rw [descriptorName, descriptorName, List.map_singleton, List.map_singleton, hmangle]

/-- Each `lt` function was made for a descriptor of the same name. -/
def Paired (g : Globals) : Prop :=
  ∀ typ, (g.ltFunctions.lookup (ltFunctionName typ)).isSome →
    (g.descriptors.lookup (descriptorName [typ])).isSome

/-- The descriptor that the first call to ask for it makes. -/
def made (c : ErasedCall) : Descriptor :=
  ⟨c.typeArg, if c.usesLt then .less c.typeArg (comparisonOf c.typeArg) else .trap c.typeArg⟩

theorem lookup_cons {α : Type} (name key : String) (value : α) (rest : List (String × α)) :
    ((key, value) :: rest).lookup name = if name = key then some value else rest.lookup name := by
  rw [List.lookup_cons]
  by_cases h : name = key
  · simp [h]
  · rw [if_neg h, beq_eq_false_iff_ne.mpr h]

theorem emit_known {g : Globals} {c : ErasedCall}
    (h : (g.descriptors.lookup c.descriptor).isSome) : erasedDescriptorGlobal g c = g := by
  obtain ⟨d, hd⟩ := Option.isSome_iff_exists.mp h
  rw [erasedDescriptorGlobal, hd]

theorem emit_fresh {g : Globals} {c : ErasedCall} (hpaired : Paired g)
    (hc : c.usesLt = true → c.others = []) (h : g.descriptors.lookup c.descriptor = none) :
    (erasedDescriptorGlobal g c).descriptors = (c.descriptor, made c) :: g.descriptors ∧
      Paired (erasedDescriptorGlobal g c) := by
  cases hlt : c.usesLt with
  | false =>
    rw [erasedDescriptorGlobal, h]
    simp only [hlt, made, Bool.false_eq_true, if_false, true_and]
    intro typ htyp
    simp only [lookup_cons]
    split_ifs
    · rfl
    · exact hpaired typ htyp
  | true =>
    have hname : c.descriptor = descriptorName [c.typeArg] := by
      rw [ErasedCall.descriptor, hc hlt]
    -- A function of this name would have brought the descriptor with it.
    have hnone : g.ltFunctions.lookup (ltFunctionName c.typeArg) = none := by
      cases hfn : g.ltFunctions.lookup (ltFunctionName c.typeArg) with
      | none => rfl
      | some fn =>
        have hsome := hpaired c.typeArg (by rw [hfn]; rfl)
        rw [← hname, h] at hsome
        cases hsome
    rw [erasedDescriptorGlobal, h]
    simp only [hlt, made, erasedLtFunction, hnone]
    refine ⟨rfl, fun typ htyp => ?_⟩
    simp only [if_true, lookup_cons] at htyp ⊢
    by_cases hkey : ltFunctionName typ = ltFunctionName c.typeArg
    · rw [if_pos ((ltFunctionName_inj hkey).trans hname.symm)]
      rfl
    · rw [if_neg hkey] at htyp
      split_ifs
      · rfl
      · exact hpaired typ htyp

theorem emit_calls (calls : List ErasedCall) (hcalls : ∀ c ∈ calls, c.usesLt = true → c.others = [])
    (name : String) {g : Globals} (hpaired : Paired g) :
    (calls.foldl erasedDescriptorGlobal g).descriptors.lookup name =
      (g.descriptors.lookup name).or
        ((calls.find? (fun c => c.descriptor == name)).map made) := by
  induction calls generalizing g with
  | nil => simp
  | cons c rest ih =>
    have hrest : ∀ c ∈ rest, c.usesLt = true → c.others = [] := fun c' hc' =>
      hcalls c' (List.mem_cons_of_mem c hc')
    rw [List.foldl_cons]
    cases hd : g.descriptors.lookup c.descriptor with
    | some d =>
      rw [emit_known (by rw [hd]; rfl), ih hrest hpaired]
      by_cases hname : c.descriptor = name
      · rw [← hname, hd, Option.some_or, Option.some_or]
      · rw [List.find?_cons_of_neg (by simpa using hname)]
    | none =>
      obtain ⟨hdescriptors, hpaired'⟩ := emit_fresh hpaired (hcalls c List.mem_cons_self) hd
      rw [ih hrest hpaired', hdescriptors, lookup_cons]
      by_cases hname : c.descriptor = name
      · rw [if_pos hname.symm, List.find?_cons_of_pos (by simpa using hname), ← hname, hd]
        rfl
      · rw [if_neg (fun heq => hname heq.symm), List.find?_cons_of_neg (by simpa using hname)]

theorem definition_eq (calls : List ErasedCall)
    (hcalls : ∀ c ∈ calls, c.usesLt = true → c.others = []) (name : String) :
    definition calls name = (calls.find? (fun c => c.descriptor == name)).map made := by
  have hempty : Paired emptyGlobals := fun typ htyp => absurd htyp Bool.false_ne_true
  rw [definition, emit_calls calls hcalls name hempty]
  rfl

end Emission

section Correctness
variable (types : Types)

theorem mangle_orderedScalars : ∀ t ∈ orderedScalars, mangleErasedType t = t := by decide

theorem trap_not_carries (typ typ' : String) : ¬ types.Carries (.trap typ') typ := by
  intro h
  obtain ⟨x⟩ := types.slots
  cases h x x

theorem struct_not_carries {typ' : String} (h : typ' ∈ types.structs) (typ : String)
    (comparison : Comparison) : ¬ types.Carries (.less typ' comparison) typ := by
  intro hcarries
  obtain ⟨x⟩ := types.slots
  have hx := hcarries x x
  rw [Types.run, if_pos h] at hx
  cases hx

theorem scalar_carries {typ : String} (h : typ ∈ orderedScalars) :
    types.Carries (.less typ (comparisonOf typ)) typ := by
  have hno : typ ∉ types.structs := fun hs => types.named typ hs h
  intro x y
  rw [Types.run, if_neg hno, Types.less, if_neg hno]

/-- Two ordered types with one descriptor name, the second a scalar: the first is that scalar, or a
    struct whose name differs from it in underscores. -/
theorem same_descriptor {typ typ' : String} (hord : types.IsOrd typ')
    (hscalar : typ ∈ orderedScalars) (h : descriptorName [typ'] = descriptorName [typ]) :
    typ' = typ ∨ typ' ∈ types.structs := by
  rcases hord with hscalar' | hstruct
  · left
    have hne : ∀ t ∈ orderedScalars, mangleErasedType t ≠ "" := by decide
    have hsuffix : ∀ t ∈ orderedScalars, descriptorName [t] = "__nc_typedesc_" ++ t := by
      intro t ht
      have hmangle := mangle_orderedScalars t ht
      have hempty := hne t ht
      simp only [descriptorName, List.map_singleton, hmangle]
      rw [hmangle] at hempty
      simp [hempty]
    rw [hsuffix typ' hscalar', hsuffix typ hscalar] at h
    exact (String.append_right_inj _).mp h
  · exact Or.inr hstruct

/-- A scalar's operator is the comparison that an `lt` entry of its type makes. -/
theorem scalar_less {typ : String} (h : typ ∈ orderedScalars) (x y : types.Slot) :
    types.run x y (.less typ (comparisonOf typ)) = .value (types.less typ x y) :=
  scalar_carries types h x y

theorem made_carries_iff {c₀ : ErasedCall} (hord : types.OrdCall c₀) {typ : String}
    (htyp : types.IsOrd typ) (hname : c₀.descriptor = descriptorName [typ]) :
    types.Carries (made c₀).lt typ ↔ c₀.usesLt = true ∧ c₀.typeArg ∈ orderedScalars ∧
      (c₀.typeArg = typ ∨
        typ ∈ types.structs ∧ ∀ x y, types.less c₀.typeArg x y = types.less typ x y) := by
  cases hlt : c₀.usesLt with
  | false =>
    simp only [made, hlt, Bool.false_eq_true, if_false, false_and, iff_false]
    exact trap_not_carries types typ _
  | true =>
    obtain ⟨hothers, hord₀⟩ := hord hlt
    rw [ErasedCall.descriptor, hothers] at hname
    simp only [made, hlt, if_true, true_and]
    constructor
    · intro hcarries
      have hno : c₀.typeArg ∉ types.structs := fun hs =>
        struct_not_carries types hs typ _ hcarries
      have hscalar₀ : c₀.typeArg ∈ orderedScalars := hord₀.resolve_right hno
      refine ⟨hscalar₀, ?_⟩
      rcases htyp with hscalar | hstruct
      · exact Or.inl ((same_descriptor types hord₀ hscalar hname).resolve_right hno)
      · refine Or.inr ⟨hstruct, fun x y => ?_⟩
        have hxy := hcarries x y
        rw [scalar_less types hscalar₀] at hxy
        exact Outcome.value.inj hxy
    · rintro ⟨hscalar₀, heq | ⟨-, hagree⟩⟩
      · exact heq ▸ scalar_carries types hscalar₀
      · intro x y
        rw [scalar_less types hscalar₀, hagree]

end Correctness

/-- In every program whose erased functions use `lt` at ordered types only, whichever module's
    definition of a descriptor is linked, the entry that a call finds in it is `<` of the call's
    type exactly when the module's first call that asked for it was of a function that uses `lt`,
    at that type if it is a scalar. -/
theorem erased_order_iff (types : Types) (modules : List (List ErasedCall))
    (hord : ∀ calls ∈ modules, ∀ c ∈ calls, types.OrdCall c) :
    ∀ calls ∈ modules, ∀ call ∈ calls, call.usesLt = true →
      ∀ kept ∈ modules, ∀ d, definition kept call.descriptor = some d →
        (types.Carries d.lt call.typeArg ↔
          types.FirstLess kept call.descriptor call.typeArg) := by
  intro calls hcalls call hcall hlt kept hkept d hd
  obtain ⟨hothers, htyp⟩ := hord calls hcalls call hcall hlt
  rw [definition_eq kept (fun c hc hc' => (hord kept hkept c hc hc').1)] at hd
  obtain ⟨c₀, hfind, hmade⟩ := Option.map_eq_some_iff.mp hd
  have hname : c₀.descriptor = descriptorName [call.typeArg] := by
    have hprop := List.find?_some hfind
    rw [beq_iff_eq, ErasedCall.descriptor.eq_def call, hothers] at hprop
    exact hprop
  have hiff := made_carries_iff types (hord kept hkept c₀ (List.mem_of_find?_eq_some hfind)) htyp
    hname
  rw [← hmade, hiff]
  constructor
  · exact fun h => ⟨c₀, hfind, h⟩
  · rintro ⟨c, hfind', h⟩
    rw [hfind] at hfind'
    cases hfind'
    exact h

/-- Slots that hold the two operands of an order on the integers. -/
def exampleTypes : Types where
  structs := []
  named := fun _ h => absurd h List.not_mem_nil
  Slot := ℤ
  slots := ⟨0⟩
  strCmp := fun x y => x - y
  fcmpOrdered := fun _ x y => x < y
  icmpUnsigned := fun _ x y => x < y
  icmpSigned := fun _ x y => x < y
  ltMethod := fun _ _ _ => false

/-- `min2[i32]` is called after nothing else has asked for the descriptor of `i32`. -/
theorem erased_order_min2 :
    exampleTypes.Carries (.less "i32" .icmpSigned) "i32" ↔
      exampleTypes.FirstLess [⟨["size", "lt"], "i32", []⟩] "__nc_typedesc_i32" "i32" := by
  refine erased_order_iff exampleTypes [[⟨["size", "lt"], "i32", []⟩]] ?_ _ List.mem_cons_self
    ⟨["size", "lt"], "i32", []⟩ List.mem_cons_self rfl _ List.mem_cons_self ⟨"i32", _⟩ (by decide)
  intro calls hcalls c hc _
  rw [List.mem_singleton] at hcalls
  subst hcalls
  rw [List.mem_singleton] at hc
  subst hc
  exact ⟨rfl, Or.inl (by decide)⟩

/-- `id[i32]` is called before `min2[i32]`, whose descriptor then has the entry that traps. -/
theorem identity_first :
    ¬ ∀ d, definition [⟨["size"], "i32", []⟩, ⟨["size", "lt"], "i32", []⟩] "__nc_typedesc_i32" =
      some d → exampleTypes.Carries d.lt "i32" := by
  intro h
  exact trap_not_carries exampleTypes "i32" "i32" (h ⟨"i32", .trap "i32"⟩ (by decide))

end NewClLang.ErasedDescriptors
