import NewClLang.ModuleNames

set_option autoImplicit false

/-!
# Local names under the qualification of a module

`_rewrite_module_names` renames identifiers and calls by name alone. What they mean is decided by the
scopes of `walk_expr` and `walk_stmts`, which the renaming does not look at.
-/
namespace NewClLang.LocalNames
open RoseTrees TypeRefs ModuleSyntax ModuleNames

/-- What a name refers to: a local binding, by its place in the scopes from the innermost one
    outwards, or anything else. -/
inductive Meaning where
  | bound (depth : ℕ)
  | global
  deriving DecidableEq

/-- `symtab.lookup` -/
def lookup (scope : List String) (name : String) : Meaning :=
  match scope.idxOf? name with
  | some depth => .bound depth
  | none => .global

/-- The identifiers and calls of a node. A call is first looked up among the builtins and the
    functions, and only then in the scopes. -/
def uses (isFunction : String → Bool) (scope : List String) : Kind → List (String × Meaning)
  | .identifier name => [(name, lookup scope name)]
  | .functionCall (.named name) _ =>
    [(name, if isFunction name then .global else lookup scope name)]
  | _ => []

/-- The names in scope at the default values of a function, one after the other, and at its body. -/
def paramScopes (bound : List String) : List Param → List (List String)
  | [] => [bound]
  | p :: ps =>
    if p.hasDefault then bound :: paramScopes (p.name :: bound) ps
    else paramScopes (p.name :: bound) ps

/-- What the children of a node have in scope. `through`: what a child declares stays in scope after
    it; `block`: until the end of the node; `each`: a child has names of its own in scope, and leaves
    none. -/
inductive Scoping where
  | through (declared : List String)
  | block
  | each (names : List (List String)) (rest : List String)

/-- `push_scope` and `declare` around the children of a node. -/
def scoping (children : ℕ) : Kind → Scoping
  | .functionDeclaration head => .each (paramScopes head.receiverName.toList head.params) []
  | .functionExpr params _ => .each (paramScopes [] params) []
  | .forIn index value => .each (List.replicate (children - 1) []) (value.toList ++ [index])
  | .tryStatement success error => .each [[], success.toList] error.toList
  | .errorHandler errorName => .each [[]] [errorName]
  | .errorMatch errorName => .each [[]] [errorName]
  | .block true => .block
  | .variableDeclaration name _ => .through [name]
  | _ => .through []

mutual

/-- The uses in a node, in order, and the scope after it. -/
def resolve (isFunction : String → Bool) (scope : List String) :
    Node → List (String × Meaning) × List String
  | .node kind children =>
    match scoping children.length kind with
    | .through declared =>
      let inner := resolveThrough isFunction scope children
      (uses isFunction scope kind ++ inner.1, declared ++ inner.2)
    | .block => (uses isFunction scope kind ++ (resolveThrough isFunction scope children).1, scope)
    | .each names rest =>
      (uses isFunction scope kind ++ resolveEach isFunction scope names rest children, scope)

def resolveThrough (isFunction : String → Bool) (scope : List String) :
    List Node → List (String × Meaning) × List String
  | [] => ([], scope)
  | t :: ts =>
    let now := resolve isFunction scope t
    let later := resolveThrough isFunction now.2 ts
    (now.1 ++ later.1, later.2)

def resolveEach (isFunction : String → Bool) (scope : List String) (names : List (List String))
    (rest : List String) : List Node → List (String × Meaning)
  | [] => []
  | t :: ts =>
    (resolve isFunction (names.headD rest ++ scope) t).1 ++
      resolveEach isFunction scope names.tail rest ts

end

/-- The functions of `symtab._functions` that a module contributes. -/
def functionNames (statements : List Node) : List String :=
  statements.flatMap (fun stmt =>
    match stmt.label with
    | .externBlock => stmt.children.filterMap externName
    | kind => (functionName kind).toList)

/-- `builtin` tells the names that `infer_builtin_call` answers for. -/
def isFunction (builtin : String → Bool) (statements : List Node) (name : String) : Bool :=
  builtin name || (functionNames statements).contains name

/-- The identifiers and calls of a module, with what they refer to. -/
def occurrences (builtin : String → Bool) (statements : List Node) : List (String × Meaning) :=
  statements.flatMap (fun stmt => (resolve (isFunction builtin statements) [] stmt).1)

/-- An identifier or call that refers to a local binding refers to it after the renaming too. -/
def Hygienic (builtin : String → Bool) (m : Module) : Prop :=
  ∀ (i depth : ℕ), ((occurrences builtin m.statements)[i]?).map Prod.snd = some (Meaning.bound depth) →
    ((occurrences builtin (rewriteModuleNames m false))[i]?).map Prod.snd = some (Meaning.bound depth)

/-- No identifier or call that refers to a local binding has the name of a declaration of the
    module. -/
def NoneShared (builtin : String → Bool) (m : Module) : Prop :=
  ∀ use ∈ occurrences builtin m.statements, use.2 ≠ .global → use.1 ∉ topNames m.statements

section Scopes
variable (m : Module)

/-- A use after the renaming. -/
def renamed (use : String × Meaning) : String × Meaning :=
  (q m use.1, if use.1 ∈ topNames m.statements then .global else use.2)

def Plain (scope : List String) : Prop := ∀ name ∈ scope, isQualified name = false

def PlainTree (t : Node) : Prop :=
  ∀ visit ∈ t.visits (fun _ _ => ()) (), Plain (binders visit.2)

theorem lookup_absent {scope : List String} {name : String} (h : name ∉ scope) :
    lookup scope name = .global := by
  rw [lookup, List.idxOf?_eq_none_iff.mpr h]

theorem lookup_qualified {scope : List String} (hscope : Plain scope) {name : String}
    (hname : isQualified name = true) : lookup scope name = .global := by
  apply lookup_absent
  intro hmem
  rw [hscope name hmem] at hname
  cases hname

theorem q_other {name : String} (h : name ∉ topNames m.statements) : q m name = name := by
  rw [q, if_neg]
  simp [h]

theorem lookup_q {scope : List String} (hscope : Plain scope) (name : String) :
    lookup scope (q m name) =
      if name ∈ topNames m.statements then .global else lookup scope name := by
  split_ifs with hown
  · rw [q_own m hown]
    exact lookup_qualified hscope (qualified_isQualified m name)
  · rw [q_other m hown]

theorem plain_append {xs ys : List String} : Plain (xs ++ ys) ↔ Plain xs ∧ Plain ys := by
  simp only [Plain, List.mem_append]
  constructor
  · exact fun h => ⟨fun name hname => h name (Or.inl hname), fun name hname => h name (Or.inr hname)⟩
  · rintro ⟨hxs, hys⟩ name (hname | hname)
    · exact hxs name hname
    · exact hys name hname

theorem plain_nil : Plain [] := fun _ hname => absurd hname List.not_mem_nil

theorem paramScopes_plain {bound : List String} {params : List Param} (hbound : Plain bound)
    (hparams : Plain (params.map Param.name)) : ∀ names ∈ paramScopes bound params, Plain names := by
  induction params generalizing bound with
  | nil =>
    intro names hnames
    rw [List.mem_singleton.mp hnames]
    exact hbound
  | cons p ps ih =>
    rw [List.map_cons, ← List.singleton_append, plain_append] at hparams
    have hnext : Plain (p.name :: bound) := plain_append.mpr ⟨hparams.left, hbound⟩
    intro names hnames
    rw [paramScopes] at hnames
    split_ifs at hnames
    · rcases List.mem_cons.mp hnames with rfl | hrest
      · exact hbound
      · exact ih hnext hparams.right names hrest
    · exact ih hnext hparams.right names hnames

theorem paramScopes_map (bound : List String) (params : List Param) :
    paramScopes bound (params.map (qualParam m)) = paramScopes bound params := by
  induction params generalizing bound with
  | nil => rfl
  | cons p ps ih =>
    rw [List.map_cons, paramScopes, paramScopes, ih]
    rfl

/-- The renaming leaves all that binds alone. -/
theorem scoping_rewriteKind (n : ℕ) (kind : Kind) :
    scoping n (rewriteKind m kind) = scoping n kind := by
  cases kind with
  | functionDeclaration head => rw [rewriteKind, scoping, scoping, paramScopes_map]
  | functionExpr params returnType => rw [rewriteKind, scoping, scoping, paramScopes_map]
  | block ownScope => cases ownScope <;> rfl
  | _ => rfl

/-- The names that a node puts in scope are among its binders. -/
def Scoping.Plain : Scoping → Prop
  | .through declared => LocalNames.Plain declared
  | .block => True
  | .each names rest => (∀ group ∈ names, LocalNames.Plain group) ∧ LocalNames.Plain rest

theorem scoping_plain {kind : Kind} (n : ℕ) (h : Plain (binders kind)) : (scoping n kind).Plain := by
  cases kind with
  | functionDeclaration head =>
    obtain ⟨hreceiver, hparams⟩ := plain_append.mp h
    exact ⟨paramScopes_plain hreceiver hparams, plain_nil⟩
  | functionExpr params returnType => exact ⟨paramScopes_plain plain_nil h, plain_nil⟩
  | forIn index value =>
    refine ⟨fun group hgroup => ?_, ?_⟩
    · rw [List.eq_of_mem_replicate hgroup]
      exact plain_nil
    · rw [binders, ← List.singleton_append, plain_append] at h
      exact plain_append.mpr h.symm
  | tryStatement success error =>
    obtain ⟨hsuccess, herror⟩ := plain_append.mp h
    refine ⟨fun group hgroup => ?_, herror⟩
    rcases List.mem_cons.mp hgroup with rfl | hgroup
    · exact plain_nil
    · rw [List.mem_singleton.mp hgroup]
      exact hsuccess
  | errorHandler errorName =>
    exact ⟨fun group hgroup => List.mem_singleton.mp hgroup ▸ plain_nil, h⟩
  | errorMatch errorName =>
    exact ⟨fun group hgroup => List.mem_singleton.mp hgroup ▸ plain_nil, h⟩
  | variableDeclaration name annotated => exact h
  | block ownScope =>
    cases ownScope with
    | true => trivial
    | false => exact plain_nil
  | _ => exact plain_nil

end Scopes

section Functions
variable (m : Module)

theorem functionName_own {stmt : Node} {name : String} (hstmt : stmt ∈ m.statements)
    (h : name ∈ functionName stmt.label) : name ∈ topNames m.statements := by
  refine List.mem_flatMap.mpr ⟨stmt, hstmt, ?_⟩
  obtain ⟨kind, children⟩ := stmt
  cases kind with
  | functionDeclaration head =>
    change name ∈ (functionName (.functionDeclaration head)).toList
    exact Option.mem_toList.mpr h
  | _ => cases h

theorem mem_functionNames {statements : List Node} {name : String} :
    name ∈ functionNames statements ↔ ∃ stmt ∈ statements, name ∈ functionName stmt.label ∨
      (stmt.label = .externBlock ∧ ∃ fn ∈ stmt.children, externName fn = some name) := by
  rw [functionNames, List.mem_flatMap]
  refine exists_congr (fun stmt => and_congr_right (fun _ => ?_))
  obtain ⟨kind, children⟩ := stmt
  cases kind <;> simp [RoseTree.label, RoseTree.children, functionName]

theorem functionNames_own {name : String} (h : name ∈ functionNames m.statements) :
    name ∈ topNames m.statements := by
  obtain ⟨stmt, hstmt, hname | ⟨hblock, fn, hfn, hname⟩⟩ := mem_functionNames.mp h
  · exact functionName_own m hstmt hname
  · refine List.mem_flatMap.mpr ⟨stmt, hstmt, ?_⟩
    rw [topNamesOf, hblock]
    exact List.mem_filterMap.mpr ⟨fn, hfn, hname⟩

theorem functionName_rewriteKind (kind : Kind) :
    functionName (rewriteKind m kind) = (functionName kind).map (q m) := by
  cases kind with
  | functionDeclaration head =>
    rw [rewriteKind, functionName, functionName]
    split_ifs <;> rfl
  | _ => rfl

/-- A function name after the renaming is qualified, or is still one that the module declares. -/
theorem functionNames_rewritten {name : String}
    (h : name ∈ functionNames (rewriteModuleNames m false)) :
    name ∈ topNames m.statements ∨ isQualified name = true := by
  have hq : ∀ own ∈ topNames m.statements, isQualified (q m own) = true := by
    intro own hown
    rw [q_own m hown]
    exact qualified_isQualified m own
  rw [rewriteModuleNames, if_neg Bool.false_ne_true, mapAll_eq] at h
  obtain ⟨stmt', hstmt', hname⟩ := mem_functionNames.mp h
  obtain ⟨stmt, hstmt, rfl⟩ := List.mem_map.mp hstmt'
  obtain ⟨kind, children⟩ := stmt
  rcases hname with hname | ⟨hblock, fn', hfn', hname⟩
  · change name ∈ functionName (rewriteKind m kind) at hname
    rw [functionName_rewriteKind] at hname
    obtain ⟨own, hown, rfl⟩ := Option.map_eq_some_iff.mp hname
    exact Or.inr (hq own (functionName_own m hstmt hown))
  · have hkind : kind = .externBlock := by
      cases kind <;> first | rfl | cases hblock
    change fn' ∈ mapAll (rewriteKind m) children at hfn'
    rw [mapAll_eq] at hfn'
    obtain ⟨fn, hfn, rfl⟩ := List.mem_map.mp hfn'
    obtain ⟨fnKind, fnChildren⟩ := fn
    have hown : ∀ own, externName (.node fnKind fnChildren) = some own →
        own ∈ topNames m.statements := by
      intro own hname
      refine functionNames_own m (mem_functionNames.mpr ⟨_, hstmt, Or.inr ⟨?_, _, hfn, hname⟩⟩)
      rw [hkind]
      rfl
    cases fnKind with
    | functionDeclaration head =>
      have hhead := hown head.name rfl
      change some (if head.receiverName.isSome then head.name else q m head.name) = some name
        at hname
      obtain rfl := Option.some.inj hname
      split_ifs
      · exact Or.inl hhead
      · exact Or.inr (hq head.name hhead)
    | _ => cases hname

end Functions

section Resolution
variable (m : Module) (builtin : String → Bool)

theorem uses_rewriteKind {scope : List String} (hscope : Plain scope) (kind : Kind) :
    uses (isFunction builtin (rewriteModuleNames m false)) scope (rewriteKind m kind) =
      (uses (isFunction builtin m.statements) scope kind).map (renamed m) := by
  cases kind with
  | identifier name => rw [rewriteKind, uses, uses, lookup_q m hscope]; rfl
  | functionCall name typeArgs =>
    cases name with
    | named name =>
      rw [rewriteKind, qApplied, uses, uses, lookup_q m hscope, List.map_cons, List.map_nil, renamed]
      congr 2
      by_cases hown : name ∈ topNames m.statements
      · simp only [hown, if_true, ite_self]
      · simp only [hown, if_false, q_other m hown]
        have hbefore : (functionNames m.statements).contains name = false := by
          simpa using fun h => hown (functionNames_own m h)
        cases hqualified : isQualified name with
        | true => simp only [lookup_qualified hscope hqualified, ite_self]
        | false =>
          have hafter : (functionNames (rewriteModuleNames m false)).contains name = false := by
            rw [Bool.eq_false_iff]
            intro h
            rcases functionNames_rewritten m (by simpa using h) with h | h
            · exact hown h
            · rw [hqualified] at h
              cases h
          rw [isFunction, isFunction, hbefore, hafter]
    | _ => rfl
  | _ => rfl

/-- The renaming renames the uses of a tree, and makes those global that have the name of a
    declaration. -/
def Follows (t : Node) : Prop :=
  ∀ scope, Plain scope → PlainTree t →
    resolve (isFunction builtin (rewriteModuleNames m false)) scope (t.map (rewriteKind m)) =
      ((resolve (isFunction builtin m.statements) scope t).1.map (renamed m),
        (resolve (isFunction builtin m.statements) scope t).2) ∧
    Plain (resolve (isFunction builtin m.statements) scope t).2

theorem resolveThrough_rewrite {ts : List Node} (hts : ∀ t ∈ ts, Follows m builtin t)
    (hplain : ∀ t ∈ ts, PlainTree t) (scope : List String) (hscope : Plain scope) :
    resolveThrough (isFunction builtin (rewriteModuleNames m false)) scope
        (mapAll (rewriteKind m) ts) =
      ((resolveThrough (isFunction builtin m.statements) scope ts).1.map (renamed m),
        (resolveThrough (isFunction builtin m.statements) scope ts).2) ∧
    Plain (resolveThrough (isFunction builtin m.statements) scope ts).2 := by
  induction ts generalizing scope with
  | nil => exact ⟨rfl, hscope⟩
  | cons t ts ih =>
    obtain ⟨hnow, hnext⟩ := hts t List.mem_cons_self scope hscope (hplain t List.mem_cons_self)
    obtain ⟨hlater, hend⟩ := ih (fun t ht => hts t (List.mem_cons_of_mem _ ht))
      (fun t ht => hplain t (List.mem_cons_of_mem _ ht)) _ hnext
    refine ⟨?_, hend⟩
    rw [mapAll, resolveThrough, hnow, hlater, resolveThrough, List.map_append]

theorem resolveEach_rewrite {ts : List Node} (hts : ∀ t ∈ ts, Follows m builtin t)
    (hplain : ∀ t ∈ ts, PlainTree t) (scope : List String) (hscope : Plain scope)
    (groups : List (List String)) (rest : List String) (hgroups : (Scoping.each groups rest).Plain) :
    resolveEach (isFunction builtin (rewriteModuleNames m false)) scope groups rest
        (mapAll (rewriteKind m) ts) =
      (resolveEach (isFunction builtin m.statements) scope groups rest ts).map (renamed m) := by
  induction ts generalizing groups with
  | nil => rfl
  | cons t ts ih =>
    have hhead : Plain (groups.headD rest) := by
      cases groups with
      | nil => exact hgroups.right
      | cons group groups => exact hgroups.left group List.mem_cons_self
    have htail : (Scoping.each groups.tail rest).Plain :=
      ⟨fun group hgroup => hgroups.left group (List.mem_of_mem_tail hgroup), hgroups.right⟩
    obtain ⟨hnow, -⟩ := hts t List.mem_cons_self _ (plain_append.mpr ⟨hhead, hscope⟩)
      (hplain t List.mem_cons_self)
    have hlater := ih (fun t ht => hts t (List.mem_cons_of_mem _ ht))
      (fun t ht => hplain t (List.mem_cons_of_mem _ ht)) groups.tail htail
    rw [mapAll, resolveEach, hnow, hlater, resolveEach, List.map_append]

theorem plainTree_node {kind : Kind} {children : List Node} (h : PlainTree (.node kind children)) :
    Plain (binders kind) ∧ ∀ t ∈ children, PlainTree t := by
  constructor
  · exact h ((), kind) List.mem_cons_self
  · intro t ht visit hvisit
    refine h visit (List.mem_cons_of_mem _ ?_)
    rw [visitsAll_eq]
    exact List.mem_flatMap.mpr ⟨t, ht, hvisit⟩

theorem resolve_rewrite (t : Node) : Follows m builtin t := by
  induction t using RoseTree.induct with
  | hnode kind children ih =>
    intro scope hscope hplain
    obtain ⟨hkind, hchildren⟩ := plainTree_node hplain
    have hnames := scoping_plain children.length hkind
    have hlength : (mapAll (rewriteKind m) children).length = children.length := by
      rw [mapAll_eq, List.length_map]
    rw [RoseTree.map, resolve, resolve, hlength, scoping_rewriteKind, uses_rewriteKind m builtin hscope]
    cases hscoping : scoping children.length kind with
    | through declared =>
      rw [hscoping] at hnames
      obtain ⟨hinner, hend⟩ := resolveThrough_rewrite m builtin ih hchildren scope hscope
      simp only [hinner, List.map_append]
      exact ⟨trivial, plain_append.mpr ⟨hnames, hend⟩⟩
    | block =>
      obtain ⟨hinner, -⟩ := resolveThrough_rewrite m builtin ih hchildren scope hscope
      simp only [hinner, List.map_append]
      exact ⟨trivial, hscope⟩
    | each groups rest =>
      rw [hscoping] at hnames
      simp only [resolveEach_rewrite m builtin ih hchildren scope hscope groups rest hnames,
        List.map_append]
      exact ⟨trivial, hscope⟩

theorem occurrences_rewrite :
    occurrences builtin (rewriteModuleNames m false) =
      (occurrences builtin m.statements).map (renamed m) := by
  have hstatements : rewriteModuleNames m false = m.statements.map (RoseTree.map (rewriteKind m)) := by
    rw [rewriteModuleNames, if_neg Bool.false_ne_true, mapAll_eq]
  rw [occurrences, occurrences, List.map_flatMap]
  nth_rewrite 2 [hstatements]
  rw [List.flatMap_map]
  refine List.flatMap_congr (fun stmt hstmt => ?_)
  have hplain : PlainTree stmt := by
    intro visit hvisit
    refine m.plainBinders visit ?_
    rw [visitsAll_eq]
    exact List.mem_flatMap.mpr ⟨stmt, hstmt, hvisit⟩
  rw [(resolve_rewrite m builtin stmt [] plain_nil hplain).left]

end Resolution

/-- The qualification of an imported module leaves the meaning of its local names alone exactly when
    none of them that is used has the name of a declaration of the module. -/
theorem rewrite_hygienic_iff (builtin : String → Bool) (m : Module) :
    Hygienic builtin m ↔ NoneShared builtin m := by
  rw [Hygienic, occurrences_rewrite]
  constructor
  · rintro hhygienic ⟨name, meaning⟩ huse hlocal hown
    obtain ⟨i, hi⟩ := List.getElem?_of_mem huse
    cases meaning with
    | global => exact hlocal rfl
    | bound depth =>
      have hafter := hhygienic i depth (by rw [hi]; rfl)
      rw [List.getElem?_map, hi, Option.map_some, Option.map_some, renamed, if_pos hown] at hafter
      cases hafter
  · intro hnone i depth hbefore
    rw [List.getElem?_map]
    cases hi : (occurrences builtin m.statements)[i]? with
    | none =>
      rw [hi] at hbefore
      cases hbefore
    | some use =>
      rw [hi, Option.map_some] at hbefore
      have hmeaning := Option.some.inj hbefore
      have hfree := hnone use (List.mem_of_getElem? hi) (by rw [hmeaning]; exact Meaning.noConfusion)
      rw [Option.map_some, Option.map_some, renamed, if_neg hfree, hmeaning]

/-- `fun count(): i32 { ret 0 }  fun next(count: i32): i32 { ret count }` in the module `steps`. -/
def stepsModule : Module where
  name := "steps"
  statements := [
    .node (.functionDeclaration ⟨"count", none, none, [], [], some (.named "i32")⟩) [
      .node (.block true) [.node (.other "Return") [.node (.other "IntegerLiteral") []]]],
    .node (.functionDeclaration
        ⟨"next", none, none, [], [⟨"count", some (.named "i32"), false⟩], some (.named "i32")⟩) [
      .node (.block true) [.node (.other "Return") [.node (.identifier "count") []]]]]
  plainNames := by decide
  plainBinders := by decide

/-- The parameter that `next` returns becomes the function `steps.count`. -/
theorem parameter_renamed : ¬Hygienic (fun _ => false) stepsModule := by
  intro hhygienic
  exact absurd (hhygienic 0 0 (by decide)) (by decide)

end NewClLang.LocalNames
