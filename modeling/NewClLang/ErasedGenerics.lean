import NewClLang.AssociationLists
import NewClLang.Coercions

set_option autoImplicit false

/-!
# Erased generic calls

A template that `can_erase_stage1` lets through, its erased function, the call of it through
argument slots, and the call of the monomorphized instance.
-/
namespace NewClLang.ErasedGenerics
open TypeRefs Coercions
open AssociationLists (keys lookup_perm)

/-- Expressions as far as the eligibility test tells them apart. -/
inductive Expr where
  | identifier (name : String)
  | other

inductive Stmt where
  | ret (expr : Option Expr)
  | expression (expr : Expr)
  | other

structure Param where
  name : String
  type : Option TypeRef
  default : Option Expr

/-- What is left of a `FunctionDeclaration`: parameters, return type and body. -/
structure Function where
  params : List Param
  returnType : Option TypeRef
  body : List Stmt

structure Template extends Function where
  typeParams : List String
  constraints : List (String × String)

def Template.isTypeParam (tmpl : Template) : Option TypeRef → Bool
  | some (.named name) => tmpl.typeParams.contains name
  | _ => false

def forwardedName : List Stmt → Option String
  | [.ret (some (.identifier name))] => some name
  | [.expression (.identifier name)] => some name
  | _ => none

def canEraseStage1 (tmpl : Template) : Bool :=
  if tmpl.typeParams.any (fun p => (tmpl.constraints.lookup p).getD "any" != "any") then false
  else if tmpl.params.any (fun p => p.default.isSome) then false
  else if tmpl.params.isEmpty || !tmpl.isTypeParam tmpl.returnType then false
  else if tmpl.params.any (fun p => !tmpl.isTypeParam p.type) then false
  else match forwardedName tmpl.body with
    | some name => tmpl.params.any (fun p => name == p.name)
    | none => false

def eraseFunction (tmpl : Template) : Function where
  params :=
    ⟨"_desc", some rawType, none⟩ ::
      tmpl.params.map (fun p => if tmpl.isTypeParam p.type then ⟨p.name, some rawType, p.default⟩ else p)
  returnType := if tmpl.isTypeParam tmpl.returnType then some rawType else tmpl.returnType
  body :=
    if !tmpl.params.isEmpty && tmpl.isTypeParam tmpl.returnType then
      [.ret (some (.identifier ((tmpl.params.head?.map Param.name).getD "_desc")))]
    else []

/-- `dict(zip(tmpl.type_params, args))`: a later type parameter of the same name wins. -/
def substitution (tmpl : Template) (typeArgs : List TypeRef) (name : String) : TypeRef :=
  ((tmpl.typeParams.zip typeArgs).reverse.lookup name).getD (.named name)

/-- `_substitute_node` on a copy of the template. -/
def instantiate (tmpl : Template) (typeArgs : List TypeRef) : Function where
  params := tmpl.params.map
    (fun p => { p with type := p.type.map (TypeRef.rewrite (substitution tmpl typeArgs)) })
  returnType := tmpl.returnType.map (TypeRef.rewrite (substitution tmpl typeArgs))
  body := tmpl.body

/-- `vars` after the parameters are bound in order: a later parameter of the same name wins. -/
def bindParams {α : Type} : List (String × α) → String → Option α
  | [], _ => none
  | (param, value) :: rest, name =>
      (bindParams rest name).or (if name = param then some value else none)

def Function.call {α : Type} (fn : Function) (args : List α) : Option α :=
  (forwardedName fn.body).bind (bindParams ((fn.params.map Param.name).zip args))

structure Value {table : TypeTable} (target : Target table) where
  type : TypeRef
  bytes : Bytes
  sized : bytes.length = target.size type

section Calls
variable {decls : Declarations} (target : Target decls.table)

/-- A call of the monomorphized instance: arguments are coerced to the parameters, and the
    forwarded one, which has its parameter's type, to the return type. -/
def callInstance (tmpl : Template) (typeArgs : List TypeRef) (args : List (Value target)) :
    Option (TypeRef × Bytes) :=
  let fn := instantiate tmpl typeArgs
  let coerced := (args.zip fn.params).map
    (fun a => (orVoid a.2.type, emitCoercedExpr target a.1.type (orVoid a.2.type) a.1.bytes))
  (fn.call coerced).map
    (fun v => (orVoid fn.returnType, emitCoercedExpr target v.1 (orVoid fn.returnType) v.2))

/-- An operand of the erased call: the descriptor, the address of an argument's slot, or a value
    for a parameter that is not erased. -/
inductive Operand where
  | desc
  | slot (index : ℕ)
  | value (bytes : Bytes)

def emitErasedArg (a : (Value target × Param) × ℕ) : Operand :=
  if a.1.2.type = some rawType then .slot a.2
  else .value (emitCoercedExpr target a.1.1.type (orVoid a.1.2.type) a.1.1.bytes)

/-- A load of a type from the slot of an argument; `none` when it reads past the slot. -/
def loadSlot (slots : List (Value target)) (t : TypeRef) : Operand → Option (TypeRef × Bytes)
  | .slot index => slots[index]?.bind (fun v =>
      if target.size t ≤ v.bytes.length then some (t, v.bytes.take (target.size t)) else none)
  | .desc | .value _ => none

/-- The type that `infer_types` gives an erased call, at the first occurrence of the name. -/
def erasedReturnType (tmpl : Template) (typeArgs : List TypeRef) : Option TypeRef :=
  match tmpl.returnType with
  | some (.named name) => typeArgs[tmpl.typeParams.idxOf name]?
  | _ => none

/-- `_emit_erased_call`. A `nil` literal has no LLVM type, so no slot can be made for it. -/
def emitErasedCall (tmpl : Template) (typeArgs : List TypeRef) (args : List (Value target)) :
    Option (TypeRef × Bytes) :=
  let fn := eraseFunction tmpl
  let passed := args.zip (fn.params.drop 1)
  if passed.any (fun a => a.2.type = some rawType ∧ a.1.type = nilType) then none
  else
    let operands := passed.zipIdx.map (emitErasedArg target)
    (fn.call (Operand.desc :: operands)).bind
      (fun ret => (erasedReturnType tmpl typeArgs).bind (fun t => loadSlot target args t ret))

end Calls

/-- A call that the checks of the monomorphized instance accept. -/
structure EligibleCall (decls : Declarations) where
  template : Template
  eligible : canEraseStage1 template = true
  typeArgs : List TypeRef
  argTypes : List TypeRef
  arity : typeArgs.length = template.typeParams.length
  count : argTypes.length = template.params.length
  declared : ("_desc" :: template.params.map Param.name).Nodup
  concrete : rawType ∉ typeArgs ∧ rawType ∉ argTypes
  argsAccepted : ∀ a ∈ argTypes.zip (instantiate template typeArgs).params,
    decls.isAssignableType a.1 (orVoid a.2.type) = true
  retAccepted : ∀ p ∈ (instantiate template typeArgs).params,
    forwardedName template.body = some p.name →
      decls.isAssignableType (orVoid p.type)
        (orVoid (instantiate template typeArgs).returnType) = true

section Names

theorem bindParams_absent {α : Type} {names : List String} {name : String} (h : name ∉ names)
    (values : List α) : bindParams (names.zip values) name = none := by
  induction names generalizing values with
  | nil => rfl
  | cons first names ih =>
    rw [List.mem_cons, not_or] at h
    cases values with
    | nil => rfl
    | cons value values =>
      rw [List.zip_cons_cons, bindParams, ih h.2 values, if_neg h.1]
      rfl

theorem bindParams_get {α : Type} {names : List String} (h : names.Nodup) {values : List α}
    {i : ℕ} {name : String} {value : α} (hname : names[i]? = some name)
    (hvalue : values[i]? = some value) : bindParams (names.zip values) name = some value := by
  induction names generalizing values i with
  | nil => simp at hname
  | cons first names ih =>
    have hfirst := (List.nodup_cons.mp h).1
    have hrest := (List.nodup_cons.mp h).2
    cases values with
    | nil => simp at hvalue
    | cons v values =>
      rw [List.zip_cons_cons, bindParams]
      cases i with
      | zero =>
        have heq : first = name := by simpa using hname
        have hv : v = value := by simpa using hvalue
        rw [bindParams_absent (heq ▸ hfirst) values, if_pos heq.symm, hv]
        rfl
      | succ i =>
        have hname' : names[i]? = some name := by simpa using hname
        have hvalue' : values[i]? = some value := by simpa using hvalue
        rw [ih hrest hname' hvalue']
        rfl

theorem Function.call_get {α : Type} {fn : Function} {args : List α} {i : ℕ} {name : String}
    {value : α} (hnames : (fn.params.map Param.name).Nodup)
    (hforward : forwardedName fn.body = some name)
    (hname : (fn.params.map Param.name)[i]? = some name) (hvalue : args[i]? = some value) :
    fn.call args = some value := by
  rw [Function.call, hforward]
  exact bindParams_get hnames hname hvalue

end Names

section Eligible

theorem canEraseStage1_spec {tmpl : Template} (h : canEraseStage1 tmpl = true) :
    tmpl.params ≠ [] ∧ tmpl.isTypeParam tmpl.returnType = true ∧
      (∀ p ∈ tmpl.params, tmpl.isTypeParam p.type = true) ∧
      ∃ p ∈ tmpl.params, forwardedName tmpl.body = some p.name := by
  rw [canEraseStage1] at h
  split at h
  next => cases h
  next =>
    split at h
    next => cases h
    next =>
      split at h
      next => cases h
      next hshape =>
        split at h
        next => cases h
        next htypes =>
          split at h
          next name hforward =>
            simp only [Bool.or_eq_true, Bool.not_eq_true', not_or, Bool.not_eq_false,
              List.isEmpty_iff] at hshape
            have hall : ∀ p ∈ tmpl.params, tmpl.isTypeParam p.type = true := by
              simpa using htypes
            obtain ⟨p, hp, hname⟩ := List.any_eq_true.mp h
            have heq : name = p.name := by simpa using hname
            exact ⟨hshape.1, hshape.2, hall, p, hp, heq ▸ hforward⟩
          next => cases h

theorem isTypeParam_named {tmpl : Template} {t : Option TypeRef}
    (h : tmpl.isTypeParam t = true) : ∃ name ∈ tmpl.typeParams, t = some (.named name) := by
  cases t with
  | none => cases h
  | some ref =>
    cases ref with
    | named name => exact ⟨name, List.contains_iff_mem.mp h, rfl⟩
    | pointer inner nullable => cases h
    | slice elem => cases h
    | array length elem => cases h
    | function params ret fallible => cases h
    | generic base args => cases h

variable {decls : Declarations} (c : EligibleCall decls)

def EligibleCall.paramType (p : Param) : TypeRef :=
  orVoid (p.type.map (TypeRef.rewrite (substitution c.template c.typeArgs)))

def EligibleCall.resultType : TypeRef :=
  orVoid (instantiate c.template c.typeArgs).returnType

theorem EligibleCall.names_nodup : (c.template.params.map Param.name).Nodup :=
  (List.nodup_cons.mp c.declared).2

theorem instantiate_names (tmpl : Template) (typeArgs : List TypeRef) :
    (instantiate tmpl typeArgs).params.map Param.name = tmpl.params.map Param.name := by
  rw [instantiate, List.map_map]
  rfl

theorem eraseFunction_params :
    (eraseFunction c.template).params =
      ⟨"_desc", some rawType, none⟩ ::
        c.template.params.map (fun p => ⟨p.name, some rawType, p.default⟩) := by
  have htypes := (canEraseStage1_spec c.eligible).2.2.1
  have hmap : c.template.params.map
      (fun p => if c.template.isTypeParam p.type then ⟨p.name, some rawType, p.default⟩ else p) =
      c.template.params.map (fun p => ⟨p.name, some rawType, p.default⟩) := by
    apply List.map_congr_left
    intro p hp
    rw [if_pos (htypes p hp)]
  rw [← hmap]
  rfl

theorem eraseFunction_names :
    (eraseFunction c.template).params.map Param.name =
      "_desc" :: c.template.params.map Param.name := by
  rw [eraseFunction_params, List.map_cons, List.map_map]
  rfl

theorem eraseFunction_forwards {first : Param}
    (hfirst : c.template.params[0]? = some first) :
    forwardedName (eraseFunction c.template).body = some first.name := by
  have hspec := canEraseStage1_spec c.eligible
  have hne : c.template.params.isEmpty = false := by
    rw [List.isEmpty_eq_false_iff]
    exact hspec.1
  rw [eraseFunction, hspec.2.1, hne, List.head?_eq_getElem?, hfirst]
  rfl

end Eligible

section Results
variable {decls : Declarations} (target : Target decls.table) (c : EligibleCall decls)
variable {args : List (Value target)}

theorem args_length (htyped : args.map Value.type = c.argTypes) :
    args.length = c.template.params.length := by
  rw [← c.count, ← htyped, List.length_map]

theorem callInstance_eq {k : ℕ} {p : Param} {a : Value target}
    (hp : c.template.params[k]? = some p)
    (hforward : forwardedName c.template.body = some p.name) (ha : args[k]? = some a) :
    callInstance target c.template c.typeArgs args =
      some (c.resultType, emitCoercedExpr target (c.paramType p) c.resultType
        (emitCoercedExpr target a.type (c.paramType p) a.bytes)) := by
  have hp' : (instantiate c.template c.typeArgs).params[k]? =
      some { p with type := p.type.map (TypeRef.rewrite (substitution c.template c.typeArgs)) } := by
    rw [instantiate, List.getElem?_map, hp]
    rfl
  have hnames : ((instantiate c.template c.typeArgs).params.map Param.name).Nodup := by
    rw [instantiate_names]
    exact c.names_nodup
  have hname : ((instantiate c.template c.typeArgs).params.map Param.name)[k]? = some p.name := by
    rw [List.getElem?_map, hp']
    rfl
  have hvalue : ((args.zip (instantiate c.template c.typeArgs).params).map
      (fun a => (orVoid a.2.type, emitCoercedExpr target a.1.type (orVoid a.2.type) a.1.bytes)))[k]? =
      some (c.paramType p, emitCoercedExpr target a.type (c.paramType p) a.bytes) := by
    have hzip := List.getElem?_zip_eq_some (z := (a, _)).mpr ⟨ha, hp'⟩
    rw [List.getElem?_map, hzip]
    rfl
  rw [callInstance, Function.call_get hnames hforward hname hvalue]
  rfl

theorem emitErasedCall_eq {first : Param} {a : Value target}
    (hfirst : c.template.params[0]? = some first) (ha : args[0]? = some a)
    (hnil : nilType ∉ args.map Value.type) :
    emitErasedCall target c.template c.typeArgs args =
      (erasedReturnType c.template c.typeArgs).bind (fun t =>
        if target.size t ≤ a.bytes.length then some (t, a.bytes.take (target.size t)) else none) := by
  have hparams := eraseFunction_params c
  have hnames : ((eraseFunction c.template).params.map Param.name).Nodup := by
    rw [eraseFunction_names]
    exact c.declared
  have hname : ((eraseFunction c.template).params.map Param.name)[1]? = some first.name := by
    rw [eraseFunction_names, List.getElem?_cons_succ, List.getElem?_map, hfirst]
    rfl
  have hdrop : (eraseFunction c.template).params.drop 1 =
      c.template.params.map (fun p => ⟨p.name, some rawType, p.default⟩) := by
    rw [hparams]
    rfl
  have hpassed : ((args.zip ((eraseFunction c.template).params.drop 1)).any
      (fun a => a.2.type = some rawType ∧ a.1.type = nilType)) = false := by
    rw [List.any_eq_false]
    intro x hx
    have htype : x.1.type ≠ nilType := by
      intro h
      apply hnil
      rw [← h]
      exact List.mem_map_of_mem (List.of_mem_zip hx).1
    simp [htype]
  have hzip : (args.zip ((eraseFunction c.template).params.drop 1))[0]? =
      some (a, ⟨first.name, some rawType, first.default⟩) := by
    rw [List.getElem?_zip_eq_some, hdrop, List.getElem?_map, hfirst]
    exact ⟨ha, rfl⟩
  have hvalue : (Operand.desc :: (args.zip ((eraseFunction c.template).params.drop 1)).zipIdx.map
      (emitErasedArg target))[1]? = some (Operand.slot 0) := by
    rw [List.getElem?_cons_succ, List.getElem?_map, List.getElem?_zipIdx, hzip]
    rfl
  have hcall := Function.call_get hnames (eraseFunction_forwards c hfirst) hname hvalue
  rw [emitErasedCall]
  simp only [hpassed, Bool.false_eq_true, if_false]
  rw [hcall, Option.bind_some]
  apply congrArg
  funext t
  rw [loadSlot, ha]
  rfl

theorem emitErasedCall_nil (hlen : args.length = c.template.params.length)
    (hnil : nilType ∈ args.map Value.type) :
    emitErasedCall target c.template c.typeArgs args = none := by
  obtain ⟨a, ha, htype⟩ := List.mem_map.mp hnil
  obtain ⟨i, hi, hget⟩ := List.mem_iff_getElem.mp ha
  have hp : ∃ p : Param, (eraseFunction c.template).params[i + 1]? = some p ∧
      p.type = some rawType := by
    have hlt : i < c.template.params.length := hlen ▸ hi
    rw [eraseFunction_params, List.getElem?_cons_succ, List.getElem?_map,
      List.getElem?_eq_getElem hlt]
    exact ⟨_, rfl, rfl⟩
  obtain ⟨p, hp, hraw⟩ := hp
  have hzip : (args.zip ((eraseFunction c.template).params.drop 1))[i]? = some (a, p) := by
    rw [List.getElem?_zip_eq_some, List.getElem?_drop, Nat.add_comm 1 i]
    exact ⟨hget ▸ List.getElem?_eq_getElem hi, hp⟩
  have hpassed : ((args.zip ((eraseFunction c.template).params.drop 1)).any
      (fun a => a.2.type = some rawType ∧ a.1.type = nilType)) = true := by
    rw [List.any_eq_true]
    exact ⟨(a, p), List.mem_of_getElem? hzip, by simp [hraw, htype]⟩
  rw [emitErasedCall]
  simp only [hpassed, if_true]

theorem arg_accepted {i : ℕ} {t : TypeRef} {p : Param} (ht : c.argTypes[i]? = some t)
    (hp : c.template.params[i]? = some p) : decls.isAssignableType t (c.paramType p) = true := by
  have hp' : (instantiate c.template c.typeArgs).params[i]? =
      some { p with type := p.type.map (TypeRef.rewrite (substitution c.template c.typeArgs)) } := by
    rw [instantiate, List.getElem?_map, hp]
    rfl
  have hzip := List.getElem?_zip_eq_some (z := (t, _)).mpr ⟨ht, hp'⟩
  exact c.argsAccepted _ (List.mem_of_getElem? hzip)

theorem ret_accepted {p : Param} (hp : p ∈ c.template.params)
    (hforward : forwardedName c.template.body = some p.name) :
    decls.isAssignableType (c.paramType p) c.resultType = true := by
  have hp' : { p with type := p.type.map (TypeRef.rewrite (substitution c.template c.typeArgs)) } ∈
      (instantiate c.template c.typeArgs).params := List.mem_map_of_mem hp
  exact c.retAccepted _ hp' hforward

theorem callInstance_returns (htyped : args.map Value.type = c.argTypes) :
    ∃ bytes, callInstance target c.template c.typeArgs args = some (c.resultType, bytes) ∧
      bytes.length = target.size c.resultType := by
  obtain ⟨p, hp, hforward⟩ := (canEraseStage1_spec c.eligible).2.2.2
  obtain ⟨k, hk, hget⟩ := List.mem_iff_getElem.mp hp
  have hlen := args_length target c htyped
  have hka : k < args.length := hlen ▸ hk
  have hp' : c.template.params[k]? = some p := hget ▸ List.getElem?_eq_getElem hk
  have ha : args[k]? = some args[k] := List.getElem?_eq_getElem hka
  have ht : c.argTypes[k]? = some args[k].type := by
    rw [← htyped, List.getElem?_map, ha]
    rfl
  refine ⟨_, callInstance_eq target c hp' hforward ha, ?_⟩
  apply emitCoercedExpr_length target (ret_accepted c hp hforward)
  exact emitCoercedExpr_length target (arg_accepted c ht hp') args[k].sized

end Results

section Recovery
variable {decls : Declarations} (c : EligibleCall decls)

/-- The type parameter returned has the same argument at its first and at its last occurrence. -/
def EligibleCall.ReturnArgumentsAgree : Prop :=
  ∀ name, c.template.returnType = some (.named name) →
    (c.template.typeParams.zip c.typeArgs).lookup name =
      (c.template.typeParams.zip c.typeArgs).reverse.lookup name

theorem lookup_zip {β : Type} (names : List String) (values : List β) (name : String)
    (hlen : values.length = names.length) :
    (names.zip values).lookup name = values[names.idxOf name]? := by
  induction names generalizing values with
  | nil =>
    rw [List.length_nil, List.length_eq_zero_iff] at hlen
    rw [hlen]
    rfl
  | cons first names ih =>
    cases values with
    | nil => cases hlen
    | cons v values =>
      rw [List.zip_cons_cons, List.lookup_cons, List.idxOf_cons]
      by_cases heq : first = name
      · simp [heq]
      · have hne : (name == first) = false := beq_eq_false_iff_ne.mpr (Ne.symm heq)
        have hne' : (first == name) = false := beq_eq_false_iff_ne.mpr heq
        rw [hne, hne', cond_false]
        exact ih values (Nat.succ.inj hlen)

theorem recovered_iff :
    erasedReturnType c.template c.typeArgs = some c.resultType ↔ c.ReturnArgumentsAgree := by
  obtain ⟨name, hmem, hname⟩ := isTypeParam_named (canEraseStage1_spec c.eligible).2.1
  have hfirst : erasedReturnType c.template c.typeArgs =
      (c.template.typeParams.zip c.typeArgs).lookup name := by
    rw [erasedReturnType, hname, lookup_zip _ _ _ c.arity]
  have hbound : ((c.template.typeParams.zip c.typeArgs).reverse.lookup name).isSome = true := by
    obtain ⟨i, hi, hget⟩ := List.mem_iff_getElem.mp hmem
    have hi' : i < c.typeArgs.length := c.arity ▸ hi
    have hpair : (c.template.typeParams.zip c.typeArgs)[i]? = some (name, c.typeArgs[i]) := by
      rw [List.getElem?_zip_eq_some]
      exact ⟨hget ▸ List.getElem?_eq_getElem hi, List.getElem?_eq_getElem hi'⟩
    rw [List.lookup_isSome_iff]
    exact ⟨_, List.mem_reverse.mpr (List.mem_of_getElem? hpair), beq_self_eq_true name⟩
  obtain ⟨t, hlast⟩ := Option.isSome_iff_exists.mp hbound
  have hresult : c.resultType = t := by
    rw [EligibleCall.resultType, instantiate, hname]
    simp only [Option.map_some, orVoid, Option.getD_some, TypeRef.rewrite, substitution, hlast]
  rw [hfirst, hresult, ← hlast]
  constructor
  · intro heq name' hname'
    rw [hname] at hname'
    cases hname'
    exact heq
  · exact fun hagree => hagree name hname

/-- With distinct type parameters the erased call has the instance's return type. -/
theorem returnArguments_agree (h : c.template.typeParams.Nodup) : c.ReturnArgumentsAgree := by
  intro name _
  refine lookup_perm ?_ (List.reverse_perm _).symm name
  rw [keys, List.map_fst_zip (Nat.le_of_eq c.arity.symm)]
  exact h

end Recovery

section Agreement
variable {decls : Declarations} (target : Target decls.table) (c : EligibleCall decls)

/-- The erased call returns what the instance returns, whatever the arguments. -/
def EligibleCall.Preserved : Prop :=
  ∀ args : List (Value target), args.map Value.type = c.argTypes →
    ∃ value, callInstance target c.template c.typeArgs args = some value ∧
      emitErasedCall target c.template c.typeArgs args = some value

/-- The first parameter is the one forwarded, and it reaches the result unconverted. -/
def EligibleCall.ForwardsFirst : Prop :=
  ∃ p t, c.template.params[0]? = some p ∧ c.argTypes[0]? = some t ∧
    forwardedName c.template.body = some p.name ∧
    ¬ Reshapes decls t (c.paramType p) ∧ ¬ Reshapes decls (c.paramType p) c.resultType

theorem first_exists : ∃ p t, c.template.params[0]? = some p ∧ c.argTypes[0]? = some t := by
  have hpos := List.length_pos_iff.mpr (canEraseStage1_spec c.eligible).1
  have hpos' : 0 < c.argTypes.length := c.count ▸ hpos
  exact ⟨_, _, List.getElem?_eq_getElem hpos, List.getElem?_eq_getElem hpos'⟩

theorem preserved_of_forwards (hnil : nilType ∉ c.argTypes)
    (htype : erasedReturnType c.template c.typeArgs = some c.resultType)
    (hfirst : c.ForwardsFirst) : c.Preserved target := by
  intro args htyped
  obtain ⟨p, t, hp, ht, hforward, hparam, hresult⟩ := hfirst
  have hlen : 0 < args.length := by
    rw [args_length target c htyped]
    exact (List.getElem?_eq_some_iff.mp hp).1
  have ha : args[0]? = some args[0] := List.getElem?_eq_getElem hlen
  have hat : args[0].type = t := by
    rw [← htyped, List.getElem?_map, ha] at ht
    exact Option.some.inj ht
  have hsize : args[0].bytes.length = target.size c.resultType := by
    rw [args[0].sized, hat, size_eq_of_not_reshapes target (arg_accepted c ht hp) hparam]
    exact size_eq_of_not_reshapes target
      (ret_accepted c (List.mem_of_getElem? hp) hforward) hresult
  have hinstance := callInstance_eq target c hp hforward ha
  rw [emitCoercedExpr_of_not_reshapes target _ hresult, hat,
    emitCoercedExpr_of_not_reshapes target _ hparam] at hinstance
  refine ⟨_, hinstance, ?_⟩
  rw [emitErasedCall_eq target c hp ha (htyped ▸ hnil), htype, Option.bind_some, ← hsize,
    if_pos (Nat.le_refl _), List.take_length]

theorem preserved_of_empty (hnil : nilType ∉ c.argTypes)
    (htype : erasedReturnType c.template c.typeArgs = some c.resultType)
    (hempty : target.size c.resultType = 0) : c.Preserved target := by
  intro args htyped
  obtain ⟨p, t, hp, ht⟩ := first_exists c
  obtain ⟨bytes, hinstance, hbytes⟩ := callInstance_returns target c htyped
  have hlen : 0 < args.length := by
    rw [args_length target c htyped]
    exact (List.getElem?_eq_some_iff.mp hp).1
  have ha : args[0]? = some args[0] := List.getElem?_eq_getElem hlen
  refine ⟨_, hinstance, ?_⟩
  rw [hempty, List.length_eq_zero_iff] at hbytes
  rw [emitErasedCall_eq target c hp ha (htyped ▸ hnil), htype, Option.bind_some, hempty,
    if_pos (Nat.zero_le _), hbytes, List.take_zero]

def filled (b : UInt8) (t : TypeRef) : Value target where
  type := t
  bytes := List.replicate (target.size t) b
  sized := List.length_replicate

/-- Arguments of the given types: `b` in every byte of the first, zeros in the others. -/
def firstFilled (b : UInt8) : List TypeRef → List (Value target)
  | [] => []
  | t :: ts => filled target b t :: ts.map (filled target 0)

theorem firstFilled_types (b : UInt8) (types : List TypeRef) :
    (firstFilled target b types).map Value.type = types := by
  cases types with
  | nil => rfl
  | cons t ts =>
    rw [firstFilled, List.map_cons, List.map_map]
    exact congrArg (List.cons t) (List.map_id ts)

theorem firstFilled_later (b : UInt8) (types : List TypeRef) (k : ℕ) :
    (firstFilled target b types)[k + 1]? = (firstFilled target 0 types)[k + 1]? := by
  cases types with
  | nil => rfl
  | cons t ts => rfl

theorem firstFilled_first (b : UInt8) {types : List TypeRef} {t : TypeRef}
    (ht : types[0]? = some t) : (firstFilled target b types)[0]? = some (filled target b t) := by
  cases types with
  | nil => simp at ht
  | cons t' ts =>
    have heq : t' = t := by simpa using ht
    rw [heq]
    rfl

theorem preserved_loads (h : c.Preserved target) (hnil : nilType ∉ c.argTypes) {t : TypeRef}
    (ht : c.argTypes[0]? = some t) (b : UInt8) :
    erasedReturnType c.template c.typeArgs = some c.resultType ∧
      target.size c.resultType ≤ target.size t ∧
      callInstance target c.template c.typeArgs (firstFilled target b c.argTypes) =
        some (c.resultType, List.replicate (target.size c.resultType) b) := by
  obtain ⟨p, _, hp, _⟩ := first_exists c
  have htyped := firstFilled_types target b c.argTypes
  have hnil' : nilType ∉ (firstFilled target b c.argTypes).map Value.type := by
    rw [htyped]
    exact hnil
  obtain ⟨value, hinstance, herased⟩ := h _ htyped
  obtain ⟨bytes, hinstance', _⟩ := callInstance_returns target c htyped
  rw [emitErasedCall_eq target c hp (firstFilled_first target b ht) hnil'] at herased
  obtain ⟨r, hr, hload⟩ := Option.bind_eq_some_iff.mp herased
  have hlength : (filled target b t).bytes.length = target.size t := List.length_replicate
  rw [hlength] at hload
  split at hload
  next hle =>
    have hvalue : value = (r, List.replicate (target.size r) b) := by
      rw [← Option.some.inj hload]
      apply congrArg
      rw [filled, List.take_replicate, Nat.min_eq_left hle]
    rw [hinstance', hvalue, Option.some.injEq, Prod.mk.injEq] at hinstance
    have hres := hinstance.1
    rw [← hres] at hr hle
    refine ⟨hr, hle, ?_⟩
    rw [hinstance', hinstance.2, hres]
  next => cases hload

theorem forwards_of_preserved (h : c.Preserved target) (hnil : nilType ∉ c.argTypes)
    (hne : target.size c.resultType ≠ 0) : c.ForwardsFirst := by
  obtain ⟨p, t, hp, ht⟩ := first_exists c
  obtain ⟨q, hq, hforward⟩ := (canEraseStage1_spec c.eligible).2.2.2
  obtain ⟨k, hk, hget⟩ := List.mem_iff_getElem.mp hq
  have hq' : c.template.params[k]? = some q := hget ▸ List.getElem?_eq_getElem hk
  have hle := (preserved_loads target c h hnil ht 0).2.1
  cases k with
  | zero =>
    have heq : q = p := by
      rw [hp] at hq'
      exact (Option.some.inj hq').symm
    rw [heq] at hforward
    have hparam := arg_accepted c ht hp
    have hresult := ret_accepted c (List.mem_of_getElem? hp) hforward
    refine ⟨p, t, hp, ht, hforward, ?_, ?_⟩
    · intro hshape
      have hlt := size_lt_of_reshapes target hparam hshape
      have hle' := size_le_of_assignable target hresult
      omega
    · intro hshape
      have hlt := size_lt_of_reshapes target hresult hshape
      have hle' := size_le_of_assignable target hparam
      omega
  | succ k =>
    -- The instance reads another argument, so it cannot follow a change of the first one.
    have hlen : k + 1 < (firstFilled target 0 c.argTypes).length := by
      rw [args_length target c (firstFilled_types target 0 c.argTypes)]
      exact hk
    have ha := List.getElem?_eq_getElem hlen
    have hzero := (preserved_loads target c h hnil ht 0).2.2
    have hone := (preserved_loads target c h hnil ht 1).2.2
    rw [callInstance_eq target c hq' hforward ha] at hzero
    rw [callInstance_eq target c hq' hforward ((firstFilled_later target 1 c.argTypes k).trans ha),
      hzero] at hone
    have hbytes := (Prod.mk.inj (Option.some.inj hone)).2
    cases hsize : target.size c.resultType with
    | zero => exact absurd hsize hne
    | succ n =>
      rw [hsize, List.replicate_succ, List.replicate_succ] at hbytes
      exact absurd (List.cons.inj hbytes).1 (by decide)

/-- The erased call of an eligible template returns the instance's value for all arguments if and
    only if no argument is the `nil` literal, the first and the last type argument of the parameter
    returned agree, and the returned type is empty or the template forwards its first parameter
    without conversion. -/
theorem erased_call_preserves_iff :
    c.Preserved target ↔
      nilType ∉ c.argTypes ∧ c.ReturnArgumentsAgree ∧
        (target.size c.resultType = 0 ∨ c.ForwardsFirst) := by
  rw [← recovered_iff c]
  constructor
  · intro h
    obtain ⟨p, t, hp, ht⟩ := first_exists c
    have hnil : nilType ∉ c.argTypes := by
      intro hmem
      have htyped := firstFilled_types target 0 c.argTypes
      have hmem' : nilType ∈ (firstFilled target 0 c.argTypes).map Value.type := by
        rw [htyped]
        exact hmem
      obtain ⟨value, _, herased⟩ := h _ htyped
      rw [emitErasedCall_nil target c (args_length target c htyped) hmem'] at herased
      cases herased
    refine ⟨hnil, (preserved_loads target c h hnil ht 0).1, ?_⟩
    by_cases hempty : target.size c.resultType = 0
    · exact Or.inl hempty
    · exact Or.inr (forwards_of_preserved target c h hnil hempty)
  · rintro ⟨hnil, htype, hempty | hfirst⟩
    · exact preserved_of_empty target c hnil htype hempty
    · exact preserved_of_forwards target c hnil htype hfirst

end Agreement

section SecondParameter

/-- `fun second[T](a: T, b: T): T { b }`. -/
def second : Template where
  params := [⟨"a", some (.named "T"), none⟩, ⟨"b", some (.named "T"), none⟩]
  returnType := some (.named "T")
  body := [.expression (.identifier "b")]
  typeParams := ["T"]
  constraints := [("T", "any")]

def plainDeclarations : Declarations where
  table := TypeTable.empty
  implements := fun _ _ => false

def plainSize : TypeRef → ℕ
  | .named "str" => 16
  | .named "error" => 40
  | .named "i32" => 4
  | _ => 8

def plainTarget : Target plainDeclarations.table where
  size := plainSize
  vtable := fun _ _ => List.replicate 8 0
  size_str := rfl
  size_error := rfl
  size_nil := rfl
  size_pointer := by
    intro inner nullable
    rfl
  size_iface := by
    intro t h
    cases t with
    | named n => cases h
    | pointer inner nullable => cases h
    | slice elem => cases h
    | array length elem => cases h
    | function params ret fallible => cases h
    | generic base args => cases h
  vtable_length := by
    intro iface t
    rfl

def i32Value (low : UInt8) : Value plainTarget := ⟨.named "i32", [low, 0, 0, 0], rfl⟩

def secondCall : EligibleCall plainDeclarations where
  template := second
  eligible := by decide
  typeArgs := [.named "i32"]
  argTypes := [.named "i32", .named "i32"]
  arity := rfl
  count := rfl
  declared := by decide
  concrete := by decide
  argsAccepted := by decide
  retAccepted := by decide

/-- `second[i32](1, 2)` is 2 in the instance and 1 through erasure. -/
theorem second_returns_first :
    callInstance plainTarget secondCall.template secondCall.typeArgs [i32Value 1, i32Value 2] =
        some (.named "i32", [2, 0, 0, 0]) ∧
      emitErasedCall plainTarget secondCall.template secondCall.typeArgs
          [i32Value 1, i32Value 2] = some (.named "i32", [1, 0, 0, 0]) := by
  constructor
  · decide
  · decide

end SecondParameter

end NewClLang.ErasedGenerics
