import NewClLang.ExceptOutcomes
import NewClLang.LocalNames
import NewClLang.ScopedTerms

set_option autoImplicit false

/-!
# Default arguments

`apply_default_args` puts a copy of the default expression into the call, with the arguments in the
place of the parameters, and the copy is evaluated like an argument. The declaration says that the
default is evaluated where the parameters before it are bound to the values of the arguments.
-/
namespace NewClLang.DefaultArguments
open ExceptOutcomes RoseTrees ScopedTerms TypeRefs ModuleSyntax

section Syntax

/-- How the nodes treat local names. A call looks its name up among the functions and the builtins
    before it looks among the locals, and the body of a `defer` is a block like any other. -/
def grammar (isFunction : String → Bool) : Grammar Kind where
  role kind count :=
    match kind with
    | .identifier name => .read name
    | .variableDeclaration name _ => .declare name
    | .functionExpr params _ => .lambda (params.map Param.name)
    | .block _ => .block
    | .other className =>
      if ["Assignment", "Update"].contains className then .assign
      else .each (List.replicate count [])
    | kind =>
      match LocalNames.scoping count kind with
      | .each names rest => .each (names ++ List.replicate (count - names.length) rest)
      | _ => .each (List.replicate count [])
  looked kind :=
    match kind with
    | .functionCall (.named name) _ => if isFunction name then [] else [name]
    | _ => []

/-- A parameter of a function, with its default expression. -/
structure Parameter where
  name : String
  type : Option TypeRef
  default : Option Node
  expression : ∀ node ∈ default, ∀ name annotated, node.label ≠ .variableDeclaration name annotated

/-- `clone_default_expr` -/
def cloneDefaultExpr (isFunction : String → Bool) (expr : Node)
    (replacements : List (String × Node)) : Node :=
  subst (grammar isFunction) replacements expr

/-- `is_allowed_default_call` -/
def isAllowedDefaultCall : TypeRef → Bool
  | .named name =>
    ["i8", "i16", "i32", "i64", "u8", "u16", "u32", "u64", "f32", "f64", "str", "rune"].contains name
  | _ => false

mutual

/-- `validate_default_expr_shape` -/
def validateDefaultExprShape (paramName : String) : Node → Except String Unit
  | .node kind children =>
    match kind with
    | .functionExpr _ _ => .ok ()
    | .functionCall name _ =>
      if isAllowedDefaultCall name then validateDefaultExprShapes paramName children
      else .error s!"default parameter {paramName}: function calls are not allowed"
    | .other className =>
      if className = "MethodCall" then
        .error s!"default parameter {paramName}: method calls are not allowed"
      else if className = "FallibleOp" then
        .error s!"default parameter {paramName}: fallible operations are not allowed"
      else validateDefaultExprShapes paramName children
    | _ => validateDefaultExprShapes paramName children

def validateDefaultExprShapes (paramName : String) : List Node → Except String Unit
  | [] => .ok ()
  | t :: ts => do
    validateDefaultExprShape paramName t
    validateDefaultExprShapes paramName ts

end

/-- `required_param_count` -/
def requiredParamCount (params : List Parameter) : ℕ := params.countP (fun p => p.default.isNone)

variable (isFunction : String → Bool) (check : Parameter → Node → Except String Unit)
  (context : String)

/-- The loop of `apply_default_args`: what is put behind the arguments. `check` is what `walk_expr`
    and the comparisons of types say of a parameter and the expression for it. -/
def fillDefaults (replacements : List (String × Node)) : List Parameter → Except String (List Node)
  | [] => .ok []
  | param :: params =>
    match param.default with
    | none =>
      let name := param.name
      .error s!"{context}: missing argument {name}"
    | some default => do
      let defaultExpr := cloneDefaultExpr isFunction default replacements
      validateDefaultExprShape param.name defaultExpr
      check param defaultExpr
      let filled ← fillDefaults ((param.name, defaultExpr) :: replacements) params
      .ok (defaultExpr :: filled)

def replacements (params : List Parameter) (args : List Node) : List (String × Node) :=
  (params.map Parameter.name).zip args

/-- `apply_default_args`: the arguments of the call after it. -/
def applyDefaultArgs (args : List Node) (params : List Parameter) : Except String (List Node) :=
  let required := requiredParamCount params
  let total := params.length
  let got := args.length
  if got < required || total < got then
    .error s!"{context}: expected {required} to {total} args, got {got}"
  else do
    let filled ← fillDefaults isFunction check context (replacements params args)
      (params.drop args.length)
    .ok (args ++ filled)

variable {isFunction check context}

theorem fillDefaults_cons {replacements : List (String × Node)} {param : Parameter}
    {params : List Parameter} {filled : List Node}
    (h : fillDefaults isFunction check context replacements (param :: params) = .ok filled) :
    ∃ default ∈ param.default, ∃ rest,
      filled = cloneDefaultExpr isFunction default replacements :: rest ∧
      fillDefaults isFunction check context
        ((param.name, cloneDefaultExpr isFunction default replacements) :: replacements) params =
        .ok rest := by
  rw [fillDefaults] at h
  cases hdefault : param.default with
  | none =>
    rw [hdefault] at h
    cases h
  | some default =>
    rw [hdefault] at h
    obtain ⟨_, -, hchecked⟩ := bind_eq_ok.mp h
    obtain ⟨_, -, hfilled⟩ := bind_eq_ok.mp hchecked
    obtain ⟨rest, hrest, heq⟩ := bind_eq_ok.mp hfilled
    exact ⟨default, rfl, rest, (Except.ok.inj heq).symm, hrest⟩

theorem applyDefaultArgs_ok {args args' : List Node} {params : List Parameter}
    (h : applyDefaultArgs isFunction check context args params = .ok args') :
    args.length ≤ params.length ∧ ∃ filled, args' = args ++ filled ∧
      fillDefaults isFunction check context (replacements params args) (params.drop args.length) =
        .ok filled := by
  unfold applyDefaultArgs at h
  dsimp only at h
  split at h
  · cases h
  · rename_i hcount
    rw [Bool.or_eq_true, not_or, decide_eq_true_iff, decide_eq_true_iff, Nat.not_lt,
      Nat.not_lt] at hcount
    obtain ⟨filled, hfilled, heq⟩ := bind_eq_ok.mp h
    exact ⟨hcount.2, filled, (Except.ok.inj heq).symm, hfilled⟩

end Syntax

section Calls
variable {W V : Type} (G : Grammar Kind) (M : Meaning Kind W V)

/-- Arguments from left to right, each once, until one of them stops the evaluation. -/
def evalArgs : List Node → Locals V → W → List V → Locals V → W → Prop
  | [], t, w, vs, s, u => vs = [] ∧ s = t ∧ u = w
  | arg :: args, t, w, vs, s, u =>
    ∃ v t₁ w₁, eval G M arg t w v t₁ w₁ ∧
      if M.stops v then vs = [v] ∧ s = t₁ ∧ u = w₁
      else ∃ rest, vs = v :: rest ∧ evalArgs args t₁ w₁ rest s u

/-- The default expressions of omitted parameters, each with the parameters before it in scope. The
    outcome is the values of all parameters. -/
def evalDefaults : List Parameter → Locals V → W → List V → W → Prop
  | [], P, w, vs, u => vs = (P.map Prod.snd).reverse ∧ u = w
  | param :: params, P, w, vs, u =>
    ∃ default ∈ param.default, ∃ v P₁ w₁, eval G M default P w v P₁ w₁ ∧
      if M.stops v then vs = (P₁.map Prod.snd).reverse ++ [v] ∧ u = w₁
      else evalDefaults params ((param.name, v) :: P₁) w₁ vs u

/-- A call that is given some of the arguments. A method call has the name of the receiver in the
    method and the object. -/
structure Call where
  receiver : Option (String × Node)
  params : List Parameter
  args : List Node

def Call.given (call : Call) : List Node := call.receiver.toList.map Prod.snd ++ call.args

def Call.names (call : Call) : List String :=
  call.receiver.toList.map Prod.fst ++ call.params.map Parameter.name

/-- The parameters of the call as locals of the function that is called. -/
def Call.bind (call : Call) (vs : List V) : Locals V := (call.names.zip vs).reverse

/-- What the compiled call does before the function is entered: the values of the parameters, the
    locals of the caller and the world. -/
def Filled (call : Call) (args' : List Node) (t : Locals V) (w : W) (vs : List V) (s : Locals V)
    (u : W) : Prop :=
  evalArgs G M (call.receiver.toList.map Prod.snd ++ args') t w vs s u

/-- What the declaration says that the call does. -/
def Declared (call : Call) (t : Locals V) (w : W) (vs : List V) (s : Locals V) (u : W) : Prop :=
  ∃ given w₁, evalArgs G M call.given t w given s w₁ ∧
    if given.any M.stops then vs = given ∧ u = w₁
    else evalDefaults G M (call.params.drop call.args.length) (call.bind given) w₁ vs u

/-- Each default expression fits, over the parameters before it, what the caller's locals are after the
    arguments, with the arguments and the copies before it in the place of the parameters. -/
def FitsDefaults (C : Locals V) :
    List Parameter → List (String × Node) → Locals V → W → Prop
  | [], _, _, _ => True
  | param :: params, terms, P, w =>
    ∀ default ∈ param.default,
      (∃ holds : W → Prop, holds w ∧ Fits G M C P terms [] holds default) ∧
      ∀ v P₁ u, eval G M default P w v P₁ u → M.stops v = false →
        FitsDefaults C params ((param.name, subst G terms default) :: terms)
          ((param.name, v) :: P₁) u

/-- The condition on a call, its caller's locals and the world. -/
def Placed (call : Call) (t : Locals V) (w : W) : Prop :=
  ∀ given C w₁, evalArgs G M call.given t w given C w₁ → given.any M.stops = false →
    FitsDefaults G M C (call.params.drop call.args.length) (replacements call.params call.args)
      (call.bind given) w₁

variable {G M}

theorem evalArgs_append {args args' : List Node} {t s : Locals V} {w u : W} {vs : List V} :
    evalArgs G M (args ++ args') t w vs s u ↔
      ∃ given t₁ w₁, evalArgs G M args t w given t₁ w₁ ∧
        if given.any M.stops then vs = given ∧ s = t₁ ∧ u = w₁
        else ∃ rest, vs = given ++ rest ∧ evalArgs G M args' t₁ w₁ rest s u := by
  induction args generalizing t w vs with
  | nil =>
    constructor
    · exact fun h => ⟨[], t, w, ⟨rfl, rfl, rfl⟩, vs, rfl, h⟩
    · rintro ⟨given, t₁, w₁, ⟨rfl, rfl, rfl⟩, rest, rfl, h⟩
      exact h
  | cons arg args ih =>
    rw [List.cons_append, evalArgs]
    constructor
    · rintro ⟨v, t₁, w₁, harg, hrest⟩
      cases hstops : M.stops v with
      | true =>
        rw [hstops, if_pos rfl] at hrest
        refine ⟨[v], t₁, w₁, ⟨v, t₁, w₁, harg, ?_⟩, ?_⟩
        · rw [hstops, if_pos rfl]
          exact ⟨rfl, rfl, rfl⟩
        · rw [List.any_cons, hstops, Bool.true_or, if_pos rfl]
          exact hrest
      | false =>
        rw [hstops, if_neg Bool.false_ne_true] at hrest
        obtain ⟨rest, rfl, hargs⟩ := hrest
        obtain ⟨given, t₂, w₂, hgiven, hafter⟩ := ih.mp hargs
        refine ⟨v :: given, t₂, w₂, ⟨v, t₁, w₁, harg, ?_⟩, ?_⟩
        · rw [hstops, if_neg Bool.false_ne_true]
          exact ⟨given, rfl, hgiven⟩
        · rw [List.any_cons, hstops, Bool.false_or]
          cases hany : given.any M.stops with
          | true =>
            rw [hany, if_pos rfl] at hafter
            rw [if_pos rfl, hafter.1]
            exact ⟨rfl, hafter.2⟩
          | false =>
            rw [hany, if_neg Bool.false_ne_true] at hafter
            obtain ⟨more, rfl, hmore⟩ := hafter
            rw [if_neg Bool.false_ne_true]
            exact ⟨more, rfl, hmore⟩
    · rintro ⟨given, t₂, w₂, hgiven, hafter⟩
      obtain ⟨v, t₁, w₁, harg, hrest⟩ := hgiven
      refine ⟨v, t₁, w₁, harg, ?_⟩
      cases hstops : M.stops v with
      | true =>
        rw [hstops, if_pos rfl] at hrest
        obtain ⟨rfl, rfl, rfl⟩ := hrest
        rw [List.any_cons, hstops, Bool.true_or, if_pos rfl] at hafter
        rw [if_pos rfl]
        exact hafter
      | false =>
        rw [hstops, if_neg Bool.false_ne_true] at hrest
        obtain ⟨given, rfl, hgiven⟩ := hrest
        rw [List.any_cons, hstops, Bool.false_or] at hafter
        rw [if_neg Bool.false_ne_true]
        cases hany : given.any M.stops with
        | true =>
          rw [hany, if_pos rfl] at hafter
          obtain ⟨rfl, hafter⟩ := hafter
          refine ⟨given, rfl, ih.mpr ⟨given, t₂, w₂, hgiven, ?_⟩⟩
          rw [hany, if_pos rfl]
          exact ⟨rfl, hafter⟩
        | false =>
          rw [hany, if_neg Bool.false_ne_true] at hafter
          obtain ⟨more, rfl, hmore⟩ := hafter
          refine ⟨given ++ more, rfl, ih.mpr ⟨given, t₂, w₂, hgiven, ?_⟩⟩
          rw [hany, if_neg Bool.false_ne_true]
          exact ⟨more, rfl, hmore⟩

theorem evalArgs_length {args : List Node} {t s : Locals V} {w u : W} {vs : List V}
    (h : evalArgs G M args t w vs s u) : vs.length ≤ args.length := by
  induction args generalizing t w vs with
  | nil =>
    obtain ⟨rfl, -, -⟩ := h
    exact Nat.le_refl _
  | cons arg args ih =>
    obtain ⟨v, t₁, w₁, -, hrest⟩ := h
    split at hrest
    · obtain ⟨rfl, -, -⟩ := hrest
      simp
    · obtain ⟨rest, rfl, hargs⟩ := hrest
      exact Nat.succ_le_succ (ih hargs)

theorem bind_values {call : Call} (hcount : call.args.length ≤ call.params.length) {given : List V}
    (hgiven : given.length ≤ call.given.length) :
    ((call.bind given).map Prod.snd).reverse = given := by
  have hnames : given.length ≤ call.names.length := by
    rw [Call.given, List.length_append, List.length_map] at hgiven
    rw [Call.names, List.length_append, List.length_map, List.length_map]
    omega
  rw [Call.bind, List.map_reverse, List.reverse_reverse, List.map_snd_zip hnames]

end Calls

section Placement
variable {W V : Type} {isFunction : String → Bool} {M : Meaning Kind W V}
  {check : Parameter → Node → Except String Unit} {context : String}

theorem Parameter.declared_nil {param : Parameter} {default : Node} (h : default ∈ param.default) :
    declared (grammar isFunction) default = [] := by
  obtain ⟨kind, children⟩ := default
  rw [declared]
  cases hrole : (grammar isFunction).role kind children.length with
  | declare name =>
    have hlabel := param.expression _ h
    cases kind with
    | variableDeclaration name' annotated => exact absurd rfl (hlabel name' annotated)
    | other className =>
      simp only [grammar] at hrole
      split at hrole <;> cases hrole
    | _ =>
      simp only [grammar] at hrole
      cases hrole
  | _ => rfl

/-- A copy of a default expression has the outcomes of the default expression. -/
theorem copy_same {C P : Locals V} {terms : List (String × Node)} {param : Parameter}
    {default : Node} (hdefault : default ∈ param.default) {holds : W → Prop}
    (hfits : Fits (grammar isFunction) M C P terms [] holds default) {w : W} (hw : holds w) {v : V}
    {u : W} :
    (∀ s, eval (grammar isFunction) M (cloneDefaultExpr isFunction default terms) C w v s u →
      s = C ∧ eval (grammar isFunction) M default P w v P u) ∧
    (∀ s, eval (grammar isFunction) M default P w v s u →
      s = P ∧ eval (grammar isFunction) M (cloneDefaultExpr isFunction default terms) C w v C u) := by
  have hsame := same_subst default terms [] holds hfits
  rw [param.declared_nil hdefault, List.append_nil] at hsame
  constructor
  · intro s hrun
    obtain ⟨-, s', ⟨inner, hinner, rfl, rfl⟩, hrun'⟩ :=
      hsame.forth C P w v s u ⟨[], rfl, rfl, rfl⟩ hw hrun
    cases List.map_eq_nil_iff.mp hinner
    exact ⟨rfl, hrun'⟩
  · intro s hrun
    obtain ⟨-, s', ⟨inner, hinner, rfl, rfl⟩, hrun'⟩ :=
      hsame.back P C w v s u ⟨[], rfl, rfl, rfl⟩ hw hrun
    cases List.map_eq_nil_iff.mp hinner
    exact ⟨rfl, hrun'⟩

/-- What is filled in gives the values of the omitted parameters. -/
theorem filled_defaults {C P : Locals V} {params : List Parameter} {terms : List (String × Node)}
    {filled : List Node} {w : W}
    (hok : fillDefaults isFunction check context terms params = .ok filled)
    (hfits : FitsDefaults (grammar isFunction) M C params terms P w) {vs : List V} {s : Locals V}
    {u : W} :
    (∃ rest, vs = (P.map Prod.snd).reverse ++ rest ∧
        evalArgs (grammar isFunction) M filled C w rest s u) ↔
      evalDefaults (grammar isFunction) M params P w vs u ∧ s = C := by
  induction params generalizing terms filled P w with
  | nil =>
    cases hok
    constructor
    · rintro ⟨rest, rfl, rfl, rfl, rfl⟩
      exact ⟨⟨List.append_nil _, rfl⟩, rfl⟩
    · rintro ⟨⟨rfl, rfl⟩, rfl⟩
      exact ⟨[], (List.append_nil _).symm, rfl, rfl, rfl⟩
  | cons param params ih =>
    obtain ⟨default, hdefault, rest, rfl, hrest⟩ := fillDefaults_cons hok
    obtain ⟨⟨holds, hw, hterm⟩, hnext⟩ := hfits default hdefault
    constructor
    · rintro ⟨rest', rfl, v, t₁, w₁, hrun, hafter⟩
      obtain ⟨rfl, hrun'⟩ := (copy_same hdefault hterm hw).1 t₁ hrun
      cases hstops : M.stops v with
      | true =>
        rw [hstops, if_pos rfl] at hafter
        obtain ⟨rfl, rfl, rfl⟩ := hafter
        refine ⟨⟨default, hdefault, v, P, u, hrun', ?_⟩, rfl⟩
        rw [hstops, if_pos rfl]
        exact ⟨rfl, rfl⟩
      | false =>
        rw [hstops, if_neg Bool.false_ne_true] at hafter
        obtain ⟨more, rfl, hmore⟩ := hafter
        have hdone := (ih hrest (hnext v P w₁ hrun' hstops)).mp
          ⟨more, by rw [List.map_cons, List.reverse_cons, List.append_assoc]; rfl, hmore⟩
        refine ⟨⟨default, hdefault, v, P, w₁, hrun', ?_⟩, hdone.2⟩
        rw [hstops, if_neg Bool.false_ne_true]
        exact hdone.1
    · rintro ⟨⟨default', hdefault', v, P₁, w₁, hrun, hafter⟩, rfl⟩
      cases Option.mem_unique hdefault hdefault'
      obtain ⟨rfl, hrun'⟩ := (copy_same hdefault hterm hw).2 P₁ hrun
      cases hstops : M.stops v with
      | true =>
        rw [hstops, if_pos rfl] at hafter
        obtain ⟨rfl, rfl⟩ := hafter
        refine ⟨[v], rfl, v, s, u, hrun', ?_⟩
        rw [hstops, if_pos rfl]
        exact ⟨rfl, rfl, rfl⟩
      | false =>
        rw [hstops, if_neg Bool.false_ne_true] at hafter
        obtain ⟨more, hvs, hmore⟩ := (ih hrest (hnext v _ w₁ hrun hstops)).mpr ⟨hafter, rfl⟩
        refine ⟨v :: more, ?_, v, s, w₁, hrun', ?_⟩
        · rw [hvs, List.map_cons, List.reverse_cons, List.append_assoc]
          rfl
        · rw [hstops, if_neg Bool.false_ne_true]
          exact ⟨more, rfl, hmore⟩

/-- A call whose default expressions fit does what its declaration says. -/
theorem filled_iff_declared {call : Call} {args' : List Node} {t : Locals V} {w : W}
    (hok : applyDefaultArgs isFunction check context call.args call.params = .ok args')
    (hplaced : Placed (grammar isFunction) M call t w) (vs : List V) (s : Locals V) (u : W) :
    Filled (grammar isFunction) M call args' t w vs s u ↔
      Declared (grammar isFunction) M call t w vs s u := by
  obtain ⟨hcount, filled, rfl, hfilled⟩ := applyDefaultArgs_ok hok
  rw [Filled, ← List.append_assoc, ← Call.given, evalArgs_append]
  constructor
  · rintro ⟨given, t₁, w₁, hgiven, hafter⟩
    cases hany : given.any M.stops with
    | true =>
      rw [hany, if_pos rfl] at hafter
      obtain ⟨rfl, rfl, rfl⟩ := hafter
      refine ⟨vs, u, hgiven, ?_⟩
      rw [hany, if_pos rfl]
      exact ⟨rfl, rfl⟩
    | false =>
      rw [hany, if_neg Bool.false_ne_true] at hafter
      obtain ⟨rest, rfl, hrest⟩ := hafter
      have hfits := hplaced given t₁ w₁ hgiven hany
      have hvalues := bind_values hcount (evalArgs_length hgiven)
      obtain ⟨hdone, rfl⟩ := (filled_defaults hfilled hfits).mp ⟨rest, by rw [hvalues], hrest⟩
      refine ⟨given, w₁, hgiven, ?_⟩
      rw [hany, if_neg Bool.false_ne_true]
      exact hdone
  · rintro ⟨given, w₁, hgiven, hafter⟩
    refine ⟨given, s, w₁, hgiven, ?_⟩
    cases hany : given.any M.stops with
    | true =>
      rw [hany, if_pos rfl] at hafter
      rw [if_pos rfl]
      exact ⟨hafter.1, rfl, hafter.2⟩
    | false =>
      rw [hany, if_neg Bool.false_ne_true] at hafter
      have hfits := hplaced given s w₁ hgiven hany
      have hvalues := bind_values hcount (evalArgs_length hgiven)
      obtain ⟨rest, hvs, hrest⟩ := (filled_defaults hfilled hfits).mpr ⟨hafter, rfl⟩
      rw [hvalues] at hvs
      rw [if_neg Bool.false_ne_true]
      exact ⟨rest, hvs, hrest⟩

/-- For a default that is the parameter before it the condition is exact: where the argument has one
    outcome, the call does what its declaration says exactly when the argument, evaluated again
    after it, gives the same and changes nothing. -/
theorem parameter_default_iff {a b : Parameter}
    (hb : b.default = some (.node (.identifier a.name) [])) {arg : Node} {t s : Locals V} {w u : W}
    {v : V} (hrun : eval (grammar isFunction) M arg t w v s u) (hgo : M.stops v = false)
    (honly : ∀ v' s' u', eval (grammar isFunction) M arg t w v' s' u' → v' = v ∧ s' = s ∧ u' = u) :
    (∀ vs s' u',
      Filled (grammar isFunction) M ⟨none, [a, b], [arg]⟩ [arg, arg] t w vs s' u' ↔
        Declared (grammar isFunction) M ⟨none, [a, b], [arg]⟩ t w vs s' u') ↔
      ∀ v' s' u', eval (grammar isFunction) M arg s u v' s' u' ↔ v' = v ∧ s' = s ∧ u' = u := by
  have hfilled : ∀ vs s' u',
      Filled (grammar isFunction) M ⟨none, [a, b], [arg]⟩ [arg, arg] t w vs s' u' ↔
        ∃ v', vs = [v, v'] ∧ eval (grammar isFunction) M arg s u v' s' u' := by
    intro vs s' u'
    constructor
    · rintro ⟨v₁, t₁, w₁, hfirst, hrest⟩
      obtain ⟨rfl, rfl, rfl⟩ := honly v₁ t₁ w₁ hfirst
      rw [hgo, if_neg Bool.false_ne_true] at hrest
      obtain ⟨rest, rfl, v₂, t₂, w₂, hsecond, hend⟩ := hrest
      refine ⟨v₂, ?_⟩
      split at hend
      · obtain ⟨rfl, rfl, rfl⟩ := hend
        exact ⟨rfl, hsecond⟩
      · obtain ⟨last, rfl, rfl, rfl, rfl⟩ := hend
        exact ⟨rfl, hsecond⟩
    · rintro ⟨v', rfl, hsecond⟩
      refine ⟨v, s, u, hrun, ?_⟩
      rw [hgo, if_neg Bool.false_ne_true]
      refine ⟨[v'], rfl, v', s', u', hsecond, ?_⟩
      split
      · exact ⟨rfl, rfl, rfl⟩
      · exact ⟨[], rfl, rfl, rfl, rfl⟩
  have hvalue : M.value [(a.name, v)] a.name = some v := by
    rw [Meaning.value, List.lookup_cons_self, Option.some_or]
  have hdeclared : ∀ vs s' u',
      Declared (grammar isFunction) M ⟨none, [a, b], [arg]⟩ t w vs s' u' ↔
        vs = [v, v] ∧ s' = s ∧ u' = u := by
    intro vs s' u'
    constructor
    · rintro ⟨given, w₁, ⟨v₁, t₁, w₂, hfirst, hrest⟩, hafter⟩
      obtain ⟨rfl, rfl, rfl⟩ := honly v₁ t₁ w₂ hfirst
      rw [hgo, if_neg Bool.false_ne_true] at hrest
      obtain ⟨rest, rfl, rfl, rfl, rfl⟩ := hrest
      rw [List.any_cons, hgo, List.any_nil, Bool.or_false, if_neg Bool.false_ne_true] at hafter
      obtain ⟨default, hdefault, v₂, P₁, w₃, hread, hend⟩ := hafter
      cases hb.symm.trans hdefault
      obtain ⟨hv, rfl, rfl⟩ := hread
      cases hvalue.symm.trans hv
      rw [hgo, if_neg Bool.false_ne_true] at hend
      exact ⟨hend.1, rfl, hend.2⟩
    · rintro ⟨rfl, rfl, rfl⟩
      refine ⟨[v], u', ⟨v, s', u', hrun, ?_⟩, ?_⟩
      · rw [hgo, if_neg Bool.false_ne_true]
        exact ⟨[], rfl, rfl, rfl, rfl⟩
      · rw [List.any_cons, hgo, List.any_nil, Bool.or_false, if_neg Bool.false_ne_true]
        refine ⟨_, hb, v, [(a.name, v)], u', ⟨hvalue, rfl, rfl⟩, ?_⟩
        rw [hgo, if_neg Bool.false_ne_true]
        exact ⟨rfl, rfl⟩
  constructor
  · intro h v' s' u'
    constructor
    · intro hsecond
      obtain ⟨hvs, hs, hu⟩ := (hdeclared _ _ _).mp ((h _ _ _).mp ((hfilled _ _ _).mpr
        ⟨v', rfl, hsecond⟩))
      exact ⟨(List.cons.inj (List.cons.inj hvs).2).1, hs, hu⟩
    · rintro ⟨rfl, rfl, rfl⟩
      obtain ⟨v₂, hvs, hsecond⟩ := (hfilled _ _ _).mp ((h _ _ _).mpr ((hdeclared _ _ _).mpr
        ⟨rfl, rfl, rfl⟩))
      cases (List.cons.inj (List.cons.inj hvs).2).1
      exact hsecond
  · intro h vs s' u'
    rw [hfilled, hdeclared]
    constructor
    · rintro ⟨v', rfl, hsecond⟩
      obtain ⟨rfl, hs, hu⟩ := (h v' s' u').mp hsecond
      exact ⟨rfl, hs, hu⟩
    · rintro ⟨rfl, hs, hu⟩
      exact ⟨v, rfl, (h v s' u').mpr ⟨rfl, hs, hu⟩⟩

/-- A local of the caller is steady while its name is not bound again. -/
theorem steady_local {C P : Locals V} {bound : List String} {holds : W → Prop} {name own : String}
    {v : V} (hname : P.lookup name = some v) (hown : C.lookup own = some v) (hbound : own ∉ bound) :
    Steady (grammar isFunction) M C P bound holds name (.node (.identifier own) []) := by
  refine ⟨v, hname, ?_⟩
  rintro inner rfl w hw v' s u
  change M.value (inner ++ C) own = some v' ∧ s = inner ++ C ∧ u = w ↔ _
  rw [Meaning.value, lookup_outer hbound, hown, Option.some_or]
  rw [Option.some.injEq, eq_comm]

end Placement

section Slices

/-- What the elements of a literal do, from left to right. -/
def runAll {τ : Type} : List (List ℕ → Run τ ℕ ℕ) → τ → ℕ → τ → ℕ → Prop
  | [], t, w, s, u => s = t ∧ u = w
  | c :: cs, t, w, s, u => ∃ v t₁ w₁, c [] t w v t₁ w₁ ∧ runAll cs t₁ w₁ s u

theorem runAll_natural {τ τ' : Type} {R : τ → τ' → Prop} {cs : List (List ℕ → Run τ ℕ ℕ)}
    {cs' : List (List ℕ → Run τ' ℕ ℕ)}
    (hcs : List.Forall₂ (fun c c' => ∀ vs, Sim (fun _ => True) R R (c vs) (c' vs)) cs cs') {t s : τ}
    {t' : τ'} {w u : ℕ} (hR : R t t') (hrun : runAll cs t w s u) :
    ∃ s', R s s' ∧ runAll cs' t' w s' u := by
  induction hcs generalizing t t' w with
  | nil =>
    obtain ⟨rfl, rfl⟩ := hrun
    exact ⟨t', hR, rfl, rfl⟩
  | cons hc _ ih =>
    obtain ⟨v, t₁, w₁, hfirst, hrest⟩ := hrun
    obtain ⟨-, t₁', hR₁, hfirst'⟩ := hc [] t t' w v t₁ w₁ hR trivial hfirst
    obtain ⟨s', hs', hrest'⟩ := ih hR₁ hrest
    exact ⟨s', hs', v, t₁', w₁, hfirst', hrest'⟩

/-- Integers and slices alone: the integer is 1, and a slice is the number of slices before it. -/
def slices : Meaning Kind ℕ ℕ where
  op label _ cs :=
    match label with
    | .other _ => fun t w v s u => v = 1 ∧ s = t ∧ u = w
    | .sliceLiteral _ => fun t w v s u => ∃ w₁, runAll cs t w s w₁ ∧ v = w₁ ∧ u = w₁ + 1
    | _ => fun _ _ _ _ _ => False
  closure _ _ _ _ _ := False
  global _ := none
  stops _ := false
  unit := 0
  natural := by
    intro τ τ' R label values cs cs' hcs t t' w v s u hR hw hrun
    cases label with
    | other className =>
      obtain ⟨rfl, rfl, rfl⟩ := hrun
      exact ⟨trivial, t', hR, rfl, rfl, rfl⟩
    | sliceLiteral elemType =>
      obtain ⟨w₁, hall, hvalue⟩ := hrun
      obtain ⟨s', hs', hall'⟩ := runAll_natural hcs hR hall
      exact ⟨trivial, s', hs', w₁, hall', hvalue⟩
    | _ => exact hrun.elim

def noFunction (_ : String) : Bool := false

def noCheck (_ : Parameter) (_ : Node) : Except String Unit := .ok ()

def integer : Node := .node (.other "IntegerLiteral") []

/-- `[]i32{1}` -/
def slice : Node := .node (.sliceLiteral (some (.named "i32"))) [integer]

/-- `a: T, b: T = a` -/
def twoParams (type : TypeRef) : List Parameter :=
  [⟨"a", some type, none, nofun⟩,
    ⟨"b", some type, some (.node (.identifier "a") []), by
      rintro node hnode name annotated hlabel
      cases hnode
      cases hlabel⟩]

theorem eval_integer (t : Locals ℕ) (w v : ℕ) (s : Locals ℕ) (u : ℕ) :
    eval (grammar noFunction) slices integer t w v s u ↔ v = 1 ∧ s = t ∧ u = w := Iff.rfl

theorem eval_slice (t : Locals ℕ) (w v : ℕ) (s : Locals ℕ) (u : ℕ) :
    eval (grammar noFunction) slices slice t w v s u ↔ v = w ∧ s = t ∧ u = w + 1 := by
  constructor
  · rintro ⟨w₁, ⟨v₁, t₁, w₂, hfirst, rfl, rfl⟩, rfl, rfl⟩
    obtain ⟨-, s₁, ⟨-, rfl, rfl⟩, rfl⟩ := hfirst
    exact ⟨rfl, by simp, rfl⟩
  · rintro ⟨rfl, rfl, rfl⟩
    refine ⟨v, ⟨1, s, v, ⟨rfl, s, ⟨rfl, rfl, rfl⟩, by simp⟩, rfl, rfl⟩, rfl, rfl⟩

/-- `f([]i32{1})` for `fun f(a: []i32, b: []i32 = a)` makes two slices where it should make one. -/
theorem slice_made_twice :
    applyDefaultArgs noFunction noCheck "f" [slice] (twoParams (.slice (.named "i32"))) =
        .ok [slice, slice] ∧
      ¬ ∀ vs s u,
        Filled (grammar noFunction) slices ⟨none, twoParams (.slice (.named "i32")), [slice]⟩
            [slice, slice] [] 0 vs s u ↔
          Declared (grammar noFunction) slices ⟨none, twoParams (.slice (.named "i32")), [slice]⟩
            [] 0 vs s u := by
  refine ⟨rfl, fun h => ?_⟩
  have hfilled : Filled (grammar noFunction) slices
      ⟨none, twoParams (.slice (.named "i32")), [slice]⟩ [slice, slice] [] 0 [0, 1] [] 2 :=
    ⟨0, [], 1, (eval_slice [] 0 0 [] 1).mpr ⟨rfl, rfl, rfl⟩, [1], rfl,
      1, [], 2, (eval_slice [] 1 1 [] 2).mpr ⟨rfl, rfl, rfl⟩, [], rfl, rfl, rfl, rfl⟩
  obtain ⟨given, w₁, hgiven, hafter⟩ := (h [0, 1] [] 2).mp hfilled
  obtain ⟨v, t₁, w₂, hslice, rest, rfl, rfl, rfl, rfl⟩ := hgiven
  obtain ⟨rfl, -, rfl⟩ := (eval_slice _ _ _ _ _).mp hslice
  obtain ⟨default, hdefault, v', P₁, w₃, hread, hvalues, rfl⟩ := hafter
  cases hdefault
  obtain ⟨-, -, hworld⟩ := hread
  exact absurd hworld (by decide)

/-- `f(1)` for `fun f(a: i32, b: i32 = a)`: both parameters are 1. -/
theorem integer_filled :
    Filled (grammar noFunction) slices ⟨none, twoParams (.named "i32"), [integer]⟩
      [integer, integer] [] 0 [1, 1] [] 0 := by
  have hplaced : Placed (grammar noFunction) slices ⟨none, twoParams (.named "i32"), [integer]⟩
      [] 0 := by
    rintro given C w₁ ⟨v, t₁, w₂, hinteger, rest, rfl, rfl, rfl, rfl⟩ - default hdefault
    obtain ⟨rfl, rfl, rfl⟩ := (eval_integer _ _ _ _ _).mp hinteger
    cases hdefault
    refine ⟨⟨fun _ => True, trivial, List.not_mem_nil, 1, rfl, ?_⟩, fun _ _ _ _ _ => trivial⟩
    rintro inner - w - v' s u
    exact eval_integer _ _ _ _ _
  have hdeclared : Declared (grammar noFunction) slices
      ⟨none, twoParams (.named "i32"), [integer]⟩ [] 0 [1, 1] [] 0 :=
    ⟨[1], 0, ⟨1, [], 0, (eval_integer _ _ _ _ _).mpr ⟨rfl, rfl, rfl⟩, [], rfl, rfl, rfl, rfl⟩,
      .node (.identifier "a") [], rfl, 1, [("a", 1)], 0, ⟨rfl, rfl, rfl⟩, rfl, rfl⟩
  have hok : applyDefaultArgs noFunction noCheck "f" [integer] (twoParams (.named "i32")) =
      .ok [integer, integer] := rfl
  exact (filled_iff_declared hok hplaced [1, 1] [] 0).mpr hdeclared

end Slices

end NewClLang.DefaultArguments
