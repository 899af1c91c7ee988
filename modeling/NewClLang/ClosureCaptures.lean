import Mathlib.Data.List.Basic
import Mathlib.Tactic.Common

set_option autoImplicit false

/-!
# Captures of function expressions

`walk_expr` and `walk_stmts`, as far as they find out what a function expression captures. It is the
walk that comes last, when the return types of all functions are known. A name is kept with the
innermost function expression only, if its scope is outside of that one; a function expression
without a return type is walked twice, first as a part of what is around it. The other checks can
only reject more.
-/
namespace NewClLang.ClosureCaptures

mutual

/-- Expressions. Those that introduce no name are operations on their operands, in the order of the
    walk; a call of a method is one of them. -/
inductive Expr where
  | identifier (name : String)
  | operation (operands : List Expr)
  | call (name : String) (args : List Expr)
  | ifExpr (condition : Expr) (thenBlock elseBlock : List Stmt)
  | blockExpr (block : List Stmt)
  | errorHandler (operand : Expr) (error : String) (handler : List Stmt)
  | errorMatch (operand : Expr) (error : String) (arms : List Expr)
  | functionExpr (returnTypeExplicit : Bool) (params : List String) (body : List Stmt)

inductive Stmt where
  | variableDecl (name : String) (initializer : Expr)
  | expression (expr : Expr)
  | assignment (target value : Expr)
  | update (target : Expr)
  | forCondition (condition : Expr) (body : List Stmt)
  | forRange (index : String) (start stop : Expr) (body : List Stmt)
  | forIn (index : String) (value : Option String) (iterable : Expr) (body : List Stmt)
  | tryCall (call : Expr) (success : Option String) (successBlock : List Stmt)
      (error : Option String) (errorBlock : List Stmt)
  | defer (body : List Stmt)
  | spawn (function : Expr)
  | block (body : List Stmt)
  | breakStmt

end

/-- What the walk does with names, in its order. A mention is that of an identifier, or of one that
    is assigned to; a call looks a name up only. -/
inductive Code (α : Type) where
  | done
  | mention (name : String) (assigned : Bool) (next : Code α)
  | call (name : String) (next : Code α)
  | declare (name : String) (next : Code α)
  | scope (inner next : Code α)
  | closure (captures : α) (returnTypeExplicit : Bool) (params : List String) (body next : Code α)
  deriving DecidableEq

def declareEach {α : Type} (names : List String) (next : Code α) : Code α :=
  names.foldr Code.declare next

mutual

def exprCode : Expr → Code Unit → Code Unit
  | .identifier name, next => .mention name false next
  | .operation operands, next => exprsCode operands next
  | .call name args, next => exprsCode args (.call name next)
  | .ifExpr condition thenBlock elseBlock, next =>
      exprCode condition
        (.scope (stmtsCode thenBlock .done) (.scope (stmtsCode elseBlock .done) next))
  | .blockExpr block, next => .scope (stmtsCode block .done) next
  | .errorHandler operand error handler, next =>
      exprCode operand
        (.scope (.declare error (.scope (stmtsCode handler .done) .done)) next)
  | .errorMatch operand error arms, next =>
      exprCode operand (.scope (.declare error (exprsCode arms .done)) next)
  | .functionExpr explicit params body, next =>
      .closure () explicit params (stmtsCode body .done) next

def exprsCode : List Expr → Code Unit → Code Unit
  | [], next => next
  | e :: es, next => exprCode e (exprsCode es next)

/-- The body of a `defer` has no scope of its own. -/
def stmtCode : Stmt → Code Unit → Code Unit
  | .variableDecl name initializer, next => exprCode initializer (.declare name next)
  | .expression e, next => exprCode e next
  | .assignment (.identifier name) value, next => .mention name true (exprCode value next)
  | .assignment target value, next => exprCode target (exprCode value next)
  | .update (.identifier name), next => .mention name true next
  | .update target, next => exprCode target next
  | .forCondition condition body, next =>
      exprCode condition (.scope (stmtsCode body .done) next)
  | .forRange index start stop body, next =>
      exprCode start (exprCode stop (.scope (.declare index (stmtsCode body .done)) next))
  | .forIn index value iterable body, next =>
      exprCode iterable
        (.scope (.declare index (declareEach value.toList (stmtsCode body .done))) next)
  | .tryCall call success successBlock error errorBlock, next =>
      exprCode call
        (.scope (declareEach success.toList (stmtsCode successBlock .done))
          (.scope (declareEach error.toList (stmtsCode errorBlock .done)) next))
  | .defer body, next => stmtsCode body next
  | .spawn function, next => exprCode function next
  | .block body, next => .scope (stmtsCode body .done) next
  | .breakStmt, next => next

def stmtsCode : List Stmt → Code Unit → Code Unit
  | [], next => next
  | s :: ss, next => stmtCode s (stmtsCode ss next)

end

/-- Scope 0 of the symbol table, the keys of `_functions`, the names with the type `struct` or
    `enum`, and those for which `infer_builtin_call` answers. -/
structure Globals where
  symbols : List String
  functions : List String
  types : List String
  builtins : List String

/-- An entry of `closure_stack`. -/
structure Context where
  level : ℕ
  captures : List String

/-- `_scopes` and `closure_stack`, innermost first. -/
structure State where
  scopes : List (List String)
  closures : List Context

/-- `scope_level` of what `lookup` finds. -/
def levelOf (name : String) : List (List String) → Option ℕ
  | [] => none
  | scope :: rest => if name ∈ scope then some rest.length else levelOf name rest

section Checker
variable (g : Globals)

/-- The name is that of a variable: of none of the functions, structs and enums of scope 0. -/
def isVariable (scopes : List (List String)) (name : String) : Bool :=
  match levelOf name scopes with
  | none => false
  | some level => !(level == 0 && (g.functions.contains name || g.types.contains name))

def noteName (captures : List String) (name : String) : List String :=
  if name ∈ captures then captures else captures ++ [name]

def Context.note (ctx : Context) (name : String) : Context :=
  { ctx with captures := noteName ctx.captures name }

def identifier (name : String) (assigned : Bool) (s : State) : Option State :=
  match levelOf name s.scopes with
  | none => none
  | some level =>
      match s.closures with
      | [] => some s
      | ctx :: around =>
          if level < ctx.level ∧ isVariable g s.scopes name = true then
            if assigned then none
            else some { s with closures := ctx.note name :: around }
          else some s

/-- A call of a function or of a builtin looks up no variable. -/
def callee (name : String) (s : State) : Option State :=
  if name ∈ g.builtins ∨ name ∈ g.functions then some s
  else (levelOf name s.scopes).map (fun _ => s)

def declare (name : String) (s : State) : Option State :=
  match s.scopes with
  | [] => none
  | scope :: rest =>
      if name ∈ scope then none else some { s with scopes := (name :: scope) :: rest }

def declareAll : List String → State → Option State
  | [], s => some s
  | name :: names, s => (declare name s).bind (declareAll names)

def State.push (s : State) : State := { s with scopes := [] :: s.scopes }

def State.pop (s : State) : State := { s with scopes := s.scopes.tail }

def State.enter (s : State) : State :=
  { s with closures := ⟨s.scopes.length - 1, []⟩ :: s.closures }

def State.leave (s : State) : State := { s with closures := s.closures.tail }

def State.captured (s : State) : List String := (s.closures.head?.map Context.captures).getD []

/-- The walk of the body by `infer_return_from_body`, before the function expression has its
    entry. -/
def inferFunctionExprReturn (explicit : Bool) (params : List String)
    (walkBody : State → Option (Code (List String) × State)) (s : State) : Option State :=
  if explicit then some s
  else do
    let s ← declareAll params s.push
    let (_, s) ← walkBody s
    some s.pop

def walk : Code Unit → State → Option (Code (List String) × State)
  | .done, s => some (.done, s)
  | .mention name assigned next, s => do
      let s ← identifier g name assigned s
      let (next, s) ← walk next s
      some (.mention name assigned next, s)
  | .call name next, s => do
      let s ← callee g name s
      let (next, s) ← walk next s
      some (.call name next, s)
  | .declare name next, s => do
      let s ← declare name s
      let (next, s) ← walk next s
      some (.declare name next, s)
  | .scope inner next, s => do
      let (inner, s) ← walk inner s.push
      let (next, s) ← walk next s.pop
      some (.scope inner next, s)
  | .closure _ explicit params body next, s => do
      let s ← inferFunctionExprReturn explicit params (walk body) s
      let s ← declareAll params s.push
      let (body, s) ← walk body s.enter
      let captures := s.captured
      let (next, s) ← walk next s.leave.pop
      some (.closure captures explicit params body next, s)

def walkFunction (params : List String) (body : List Stmt) : Option (Code (List String)) := do
  let s ← declareAll params (State.push ⟨[g.symbols], []⟩)
  let (typed, _) ← walk g (stmtsCode body .done) s
  some typed

end Checker

section FreeNames
variable {α : Type}

def declareIn (name : String) : List (List String) → List (List String)
  | [] => []
  | scope :: rest => (name :: scope) :: rest

/-- The name is free where the scopes `own` are those of the function expression itself. -/
def freeOf (own : List (List String)) (name : String) : List String :=
  if name ∈ own.flatten then [] else [name]

/-- The free names that are mentioned, in function expressions without a return type too. -/
def mentions (own : List (List String)) : Code α → List String
  | .done => []
  | .mention name _ next => freeOf own name ++ mentions own next
  | .call _ next => mentions own next
  | .declare name next => mentions (declareIn name own) next
  | .scope inner next => mentions ([] :: own) inner ++ mentions own next
  | .closure _ explicit params body next =>
      (if explicit then [] else mentions (params.reverse :: own) body) ++ mentions own next

/-- All free names: those of calls and those in all function expressions too. -/
def uses (g : Globals) (own : List (List String)) : Code α → List String
  | .done => []
  | .mention name _ next => freeOf own name ++ uses g own next
  | .call name next =>
      (if name ∈ g.builtins ∨ name ∈ g.functions then [] else freeOf own name) ++ uses g own next
  | .declare name next => uses g (declareIn name own) next
  | .scope inner next => uses g ([] :: own) inner ++ uses g own next
  | .closure _ _ params body next => uses g (params.reverse :: own) body ++ uses g own next

/-- The free names that are assigned to, without those in function expressions. -/
def assigns (own : List (List String)) : Code α → List String
  | .done => []
  | .mention name assigned next => (if assigned then freeOf own name else []) ++ assigns own next
  | .call _ next => assigns own next
  | .declare name next => assigns (declareIn name own) next
  | .scope inner next => assigns ([] :: own) inner ++ assigns own next
  | .closure _ _ _ _ next => assigns own next

/-- What holds of every function expression, with the scopes around it. -/
def Each (P : List (List String) → List String → Code α → Prop) (scopes : List (List String)) :
    Code α → Prop
  | .done => True
  | .mention _ _ next => Each P scopes next
  | .call _ next => Each P scopes next
  | .declare name next => Each P (declareIn name scopes) next
  | .scope inner next => Each P ([] :: scopes) inner ∧ Each P scopes next
  | .closure _ _ params body next =>
      P scopes params body ∧ Each P (params.reverse :: scopes) body ∧ Each P scopes next

end FreeNames

section Annotation
variable (g : Globals)

/-- The free names of a function expression that are variables around it, in the order in which they
    are mentioned first. -/
def capturesOf (scopes : List (List String)) (params : List String) (body : Code Unit) :
    List String :=
  ((mentions [params.reverse] body).filter (isVariable g scopes)).foldl noteName []

def annotate (scopes : List (List String)) : Code Unit → Code (List String)
  | .done => .done
  | .mention name assigned next => .mention name assigned (annotate scopes next)
  | .call name next => .call name (annotate scopes next)
  | .declare name next => .declare name (annotate (declareIn name scopes) next)
  | .scope inner next => .scope (annotate ([] :: scopes) inner) (annotate scopes next)
  | .closure _ explicit params body next =>
      .closure (capturesOf g scopes params body) explicit params
        (annotate (params.reverse :: scopes) body) (annotate scopes next)

end Annotation

/-- No name that is free is assigned to, if it is a variable around. -/
def OwnAssigns (g : Globals) (scopes : List (List String)) (params : List String)
    (body : Code Unit) : Prop :=
  ∀ name ∈ assigns [params.reverse] body, isVariable g scopes name = false

section Levels
variable {name : String} {own outer : List (List String)} {level : ℕ}

theorem levelOf_lt : ∀ {scopes : List (List String)}, levelOf name scopes = some level →
    level < scopes.length
  | [], h => by simp [levelOf] at h
  | scope :: rest, h => by
    rw [levelOf] at h
    split at h
    · cases h
      exact Nat.lt_succ_self _
    · exact Nat.lt_succ_of_lt (levelOf_lt h)

theorem levelOf_outer (hfree : name ∉ own.flatten) :
    levelOf name (own ++ outer) = levelOf name outer := by
  induction own with
  | nil => rfl
  | cons scope own ih =>
    rw [List.flatten_cons, List.mem_append, not_or] at hfree
    rw [List.cons_append, levelOf, if_neg hfree.1, ih hfree.2]

theorem levelOf_own (hown : name ∈ own.flatten) (h : levelOf name (own ++ outer) = some level) :
    outer.length ≤ level := by
  induction own with
  | nil => simp at hown
  | cons scope own ih =>
    rw [List.cons_append, levelOf] at h
    split at h
    · cases h
      simp
    · next hscope =>
      rw [List.flatten_cons, List.mem_append, or_iff_right hscope] at hown
      exact ih hown h

theorem isVariable_outer (g : Globals) (hfree : name ∉ own.flatten) :
    isVariable g (own ++ outer) name = isVariable g outer name := by
  rw [isVariable, isVariable, levelOf_outer hfree]

end Levels

section Walks
variable {g : Globals} {s t : State} {ctx : Context} {around : List Context}
variable {own outer : List (List String)} {name : String} {names : List String}

def Context.noteAll (ctx : Context) (names : List String) : Context :=
  { ctx with captures := names.foldl noteName ctx.captures }

theorem Context.noteAll_nil : ctx.noteAll [] = ctx := rfl

theorem Context.noteAll_append (xs ys : List String) :
    ctx.noteAll (xs ++ ys) = (ctx.noteAll xs).noteAll ys := by
  simp [noteAll]

theorem mem_foldl_noteName {captures : List String} :
    name ∈ names.foldl noteName captures ↔ name ∈ captures ∨ name ∈ names := by
  induction names generalizing captures with
  | nil => simp
  | cons x xs ih =>
    rw [List.foldl_cons, ih, List.mem_cons, ← or_assoc]
    refine or_congr_left ?_
    rw [noteName]
    split
    · next hx => exact ⟨Or.inl, fun h => h.elim id (fun h => h ▸ hx)⟩
    · simp

theorem declare_eq (h : declare name s = some t) :
    t = { s with scopes := declareIn name s.scopes } ∧ t.scopes.tail = s.scopes.tail ∧
      s.scopes ≠ [] := by
  rw [declare] at h
  split at h
  · cases h
  · next scope rest hscopes =>
    split at h
    · cases h
    · cases h
      rw [hscopes]
      exact ⟨rfl, rfl, List.cons_ne_nil _ _⟩

theorem declareAll_eq (scope : List String) {rest : List (List String)}
    (hs : s.scopes = scope :: rest) (h : declareAll names s = some t) :
    t = { s with scopes := (names.reverse ++ scope) :: rest } := by
  induction names generalizing s scope with
  | nil =>
    cases h
    rw [List.reverse_nil, List.nil_append, ← hs]
  | cons x xs ih =>
    rw [declareAll, Option.bind_eq_some_iff] at h
    obtain ⟨s₁, hx, hxs⟩ := h
    obtain ⟨rfl, -, -⟩ := declare_eq hx
    have := ih (x :: scope) (by rw [hs]; rfl) hxs
    rw [this, List.reverse_cons, List.append_assoc]
    rfl

theorem declareAll_push (h : declareAll names s.push = some t) :
    t = { s with scopes := names.reverse :: s.scopes } := by
  have := declareAll_eq [] rfl h
  rwa [List.append_nil] at this

/-- What an identifier does to the innermost function expression. -/
theorem identifier_eq {assigned : Bool} (h : identifier g name assigned s = some t)
    (hclosures : s.closures = ctx :: around) (hscopes : s.scopes = own ++ outer)
    (hlevel : ctx.level = outer.length) :
    t.scopes = s.scopes ∧
      t.closures = ctx.noteAll ((freeOf own name).filter (isVariable g outer)) :: around ∧
      (assigned = true → ∀ x ∈ freeOf own name, isVariable g outer x = false) := by
  rw [identifier] at h
  split at h
  · cases h
  · next level hfound =>
    rw [hclosures] at h
    dsimp only at h
    rw [hscopes] at hfound h
    by_cases hown : name ∈ own.flatten
    · have hle := levelOf_own hown hfound
      rw [if_neg (fun hlt => by omega)] at h
      cases h
      simp [freeOf, hown, Context.noteAll_nil, hclosures]
    · rw [levelOf_outer hown] at hfound
      have hlt := levelOf_lt hfound
      rw [isVariable_outer g hown] at h
      by_cases hvar : isVariable g outer name = true
      · rw [if_pos ⟨by omega, hvar⟩] at h
        cases assigned with
        | true => cases h
        | false =>
          cases h
          simp [freeOf, hown, hvar, Context.noteAll, Context.note, hscopes]
      · rw [if_neg (fun hlt => hvar hlt.2)] at h
        cases h
        simp [freeOf, hown, hvar, Context.noteAll_nil, hclosures]

theorem identifier_top {assigned : Bool} (h : identifier g name assigned s = some t)
    (hclosures : s.closures = []) : t = s := by
  rw [identifier] at h
  split at h
  · cases h
  · rw [hclosures] at h
    cases h
    rfl

theorem identifier_scopes {assigned : Bool} (h : identifier g name assigned s = some t) :
    t.scopes = s.scopes := by
  rw [identifier] at h
  split at h
  · cases h
  · split at h
    · cases h
      rfl
    · split at h
      · split at h
        · cases h
        · cases h
          rfl
      · cases h
        rfl

theorem callee_eq (h : callee g name s = some t) : t = s := by
  rw [callee] at h
  split at h
  · exact (Option.some.inj h).symm
  · rw [Option.map_eq_some_iff] at h
    obtain ⟨_, -, h⟩ := h
    exact h.symm

/-- What a walk does with the state it starts in. -/
structure Walked (g : Globals) (code : Code Unit) (s : State) (typed : Code (List String))
    (t : State) : Prop where
  typed_eq : typed = annotate g s.scopes code
  scopes : t.scopes.tail = s.scopes.tail
  top : s.closures = [] → t.closures = []
  each : Each (OwnAssigns g) s.scopes code
  closures : ∀ (ctx : Context) (around : List Context) (own outer : List (List String)),
    s.closures = ctx :: around → s.scopes = own ++ outer → own ≠ [] →
    ctx.level = outer.length →
    t.closures = ctx.noteAll ((mentions own code).filter (isVariable g outer)) :: around ∧
      ∀ x ∈ assigns own code, isVariable g outer x = false

theorem walked_done : Walked g .done s .done s where
  typed_eq := rfl
  scopes := rfl
  top := id
  each := trivial
  closures := fun ctx around own outer hclosures _ _ _ => by
    simp [mentions, assigns, Context.noteAll_nil, hclosures]

/-- A walk in a scope of its own. -/
theorem Walked.popped {code : Code Unit} {typed : Code (List String)} {scope : List String}
    (h : Walked g code { s with scopes := scope :: s.scopes } typed t) :
    t.pop = { s with closures := t.closures } := by
  rw [State.pop, h.scopes]
  rfl

theorem Walked.scope {inner next : Code Unit} {innerTyped nextTyped : Code (List String)}
    {t' : State} (hinner : Walked g inner s.push innerTyped t)
    (hnext : Walked g next t.pop nextTyped t') :
    Walked g (.scope inner next) s (.scope innerTyped nextTyped) t' := by
  have hpop : t.pop = { s with closures := t.closures } := hinner.popped
  rw [hpop] at hnext
  refine ⟨?_, hnext.scopes, fun hs => hnext.top (hinner.top hs), ⟨hinner.each, hnext.each⟩, ?_⟩
  · rw [annotate, hinner.typed_eq, hnext.typed_eq]
    rfl
  · intro ctx around own outer hclosures hscopes hown hlevel
    have hin := hinner.closures ctx around ([] :: own) outer hclosures
      (by rw [State.push, hscopes]; rfl) (List.cons_ne_nil _ _) hlevel
    have hout := hnext.closures _ around own outer hin.1 hscopes hown hlevel
    refine ⟨?_, ?_⟩
    · rw [hout.1, mentions, List.filter_append, Context.noteAll_append]
    · intro x hx
      rw [assigns, List.mem_append] at hx
      exact hx.elim (hin.2 x) (hout.2 x)

/-- What the walk of a function expression without a return type leaves before its own walk. -/
structure Inferred (g : Globals) (explicit : Bool) (params : List String) (body : Code Unit)
    (s t : State) : Prop where
  scopes : t.scopes = s.scopes
  top : s.closures = [] → t.closures = []
  closures : ∀ (ctx : Context) (around : List Context) (own outer : List (List String)),
    s.closures = ctx :: around → s.scopes = own ++ outer → ctx.level = outer.length →
    t.closures = ctx.noteAll
      ((if explicit then [] else mentions (params.reverse :: own) body).filter
        (isVariable g outer)) :: around

theorem inferred_explicit {params : List String} {body : Code Unit} :
    Inferred g true params body s s where
  scopes := rfl
  top := id
  closures := fun ctx around own outer hclosures _ _ => by
    simp [Context.noteAll_nil, hclosures]

theorem Walked.inferred {params : List String} {body : Code Unit} {typed : Code (List String)}
    (h : Walked g body { s with scopes := params.reverse :: s.scopes } typed t) :
    Inferred g false params body s t.pop where
  scopes := by rw [h.popped]
  top := h.top
  closures := fun ctx around own outer hclosures hscopes hlevel =>
    (h.closures ctx around (params.reverse :: own) outer hclosures
      (by rw [hscopes]; rfl) (List.cons_ne_nil _ _) hlevel).1

theorem Walked.closure {explicit : Bool} {params : List String} {body next : Code Unit}
    {bodyTyped nextTyped : Code (List String)} {s₁ t' : State}
    (hfirst : Inferred g explicit params body s s₁)
    (hbody : Walked g body
      (State.enter { s₁ with scopes := params.reverse :: s₁.scopes }) bodyTyped t)
    (hnext : Walked g next t.leave.pop nextTyped t') :
    Walked g (.closure () explicit params body next) s
      (.closure t.captured explicit params bodyTyped nextTyped) t' := by
  have hin := hbody.closures _ s₁.closures [params.reverse] s.scopes rfl
    (by rw [State.enter, hfirst.scopes]; rfl) (List.cons_ne_nil _ _)
    (by simp [hfirst.scopes])
  have hpop : t.leave.pop = { s with closures := s₁.closures } := by
    have hscopes := hbody.scopes
    rw [State.pop, State.leave, hin.1]
    dsimp only [State.enter, List.tail_cons] at hscopes ⊢
    rw [hscopes, hfirst.scopes]
  rw [hpop] at hnext
  refine ⟨?_, hnext.scopes, fun hs => hnext.top (hfirst.top hs), ⟨hin.2, ?_, hnext.each⟩, ?_⟩
  · rw [annotate, hbody.typed_eq, hnext.typed_eq, State.captured, hin.1]
    dsimp only [State.enter]
    rw [hfirst.scopes]
    rfl
  · have heach := hbody.each
    dsimp only [State.enter] at heach
    rwa [hfirst.scopes] at heach
  · intro ctx around own outer hclosures hscopes hown hlevel
    have hctx := hfirst.closures ctx around own outer hclosures hscopes hlevel
    have hout := hnext.closures _ around own outer hctx hscopes hown hlevel
    refine ⟨?_, hout.2⟩
    rw [hout.1, mentions, List.filter_append, Context.noteAll_append]

theorem walk_walked {code : Code Unit} : ∀ {s t : State} {typed : Code (List String)},
    walk g code s = some (typed, t) → Walked g code s typed t := by
  induction code with
  | done =>
    intro s t typed h
    cases h
    exact walked_done
  | mention name assigned next ih =>
    intro s t typed h
    simp only [walk, Option.bind_eq_bind, Option.bind_eq_some_iff, Option.some.injEq,
      Prod.mk.injEq, Prod.exists] at h
    obtain ⟨s₁, hname, nextTyped, s₂, hnext, rfl, rfl⟩ := h
    have hwalked := ih hnext
    have hscopes₁ := identifier_scopes hname
    refine ⟨?_, ?_, ?_, ?_, ?_⟩
    · rw [annotate, hwalked.typed_eq, hscopes₁]
    · rw [hwalked.scopes, hscopes₁]
    · intro hs
      exact hwalked.top (by rw [identifier_top hname hs, hs])
    · have heach := hwalked.each
      rwa [hscopes₁] at heach
    · intro ctx around own outer hclosures hscopes hown hlevel
      obtain ⟨-, hnoted, hassigned⟩ := identifier_eq hname hclosures hscopes hlevel
      have hout := hwalked.closures _ around own outer hnoted (by rw [hscopes₁, hscopes]) hown
        hlevel
      refine ⟨?_, ?_⟩
      · rw [hout.1, mentions, List.filter_append, Context.noteAll_append]
      · intro x hx
        rw [assigns, List.mem_append] at hx
        cases hx with
        | inl hx =>
          split at hx
          · next htrue => exact hassigned htrue x hx
          · cases hx
        | inr hx => exact hout.2 x hx
  | call name next ih =>
    intro s t typed h
    simp only [walk, Option.bind_eq_bind, Option.bind_eq_some_iff, Option.some.injEq,
      Prod.mk.injEq, Prod.exists] at h
    obtain ⟨s₁, hname, nextTyped, s₂, hnext, rfl, rfl⟩ := h
    obtain rfl := callee_eq hname
    have hwalked := ih hnext
    exact ⟨by rw [annotate, hwalked.typed_eq], hwalked.scopes, hwalked.top, hwalked.each,
      hwalked.closures⟩
  | declare name next ih =>
    intro s t typed h
    simp only [walk, Option.bind_eq_bind, Option.bind_eq_some_iff, Option.some.injEq,
      Prod.mk.injEq, Prod.exists] at h
    obtain ⟨s₁, hname, nextTyped, s₂, hnext, rfl, rfl⟩ := h
    obtain ⟨rfl, htail, hne⟩ := declare_eq hname
    have hwalked := ih hnext
    refine ⟨?_, hwalked.scopes.trans htail, hwalked.top, hwalked.each, ?_⟩
    · rw [annotate, hwalked.typed_eq]
    · intro ctx around own outer hclosures hscopes hown hlevel
      obtain ⟨scope, rest, rfl⟩ := List.exists_cons_of_ne_nil hown
      exact hwalked.closures ctx around ((name :: scope) :: rest) outer hclosures
        (by dsimp only; rw [hscopes]; rfl) (List.cons_ne_nil _ _) hlevel
  | scope inner next ihInner ihNext =>
    intro s t typed h
    simp only [walk, Option.bind_eq_bind, Option.bind_eq_some_iff, Option.some.injEq,
      Prod.mk.injEq, Prod.exists] at h
    obtain ⟨innerTyped, s₁, hinner, nextTyped, s₂, hnext, rfl, rfl⟩ := h
    exact (ihInner hinner).scope (ihNext hnext)
  | closure captures explicit params body next ihBody ihNext =>
    intro s t typed h
    simp only [walk, Option.bind_eq_bind, Option.bind_eq_some_iff, Option.some.injEq,
      Prod.mk.injEq, Prod.exists] at h
    obtain ⟨s₁, hfirst, s₂, hparams, bodyTyped, s₃, hbody, nextTyped, s₄, hnext, rfl, rfl⟩ := h
    rw [declareAll_push hparams] at hbody
    have hinferred : Inferred g explicit params body s s₁ := by
      rw [inferFunctionExprReturn] at hfirst
      split at hfirst
      · next hexplicit =>
        cases hfirst
        rw [hexplicit]
        exact inferred_explicit
      · next hexplicit =>
        simp only [Option.bind_eq_bind, Option.bind_eq_some_iff, Option.some.injEq,
          Prod.exists] at hfirst
        obtain ⟨s₅, hparams', typed', s₆, hbody', rfl⟩ := hfirst
        rw [declareAll_push hparams'] at hbody'
        rw [Bool.not_eq_true] at hexplicit
        rw [hexplicit]
        exact (ihBody hbody').inferred
    exact Walked.closure hinferred (ihBody hbody) (ihNext hnext)

theorem walkFunction_eq {params : List String} {body : List Stmt} {typed : Code (List String)}
    (h : walkFunction g params body = some typed) :
    ∃ s, declareAll params (State.push ⟨[g.symbols], []⟩) = some s ∧
      ∃ t, walk g (stmtsCode body .done) s = some (typed, t) := by
  simp only [walkFunction, Option.bind_eq_bind, Option.bind_eq_some_iff, Option.some.injEq,
    Prod.exists] at h
  obtain ⟨s, hparams, typed', t, hwalk, rfl⟩ := h
  exact ⟨s, hparams, t, hwalk⟩

def onlyMain : Globals := ⟨["main"], ["main"], [], []⟩

/-- `fun() { fun(): i32 { n } }`, with a return type for the inner function expression or
    without. -/
def nested (innerExplicit : Bool) : List Stmt :=
  [.expression (.functionExpr false []
    [.expression (.functionExpr innerExplicit [] [.expression (.identifier "n")])])]

end Walks

section Emission
variable (g : Globals)

/-- `vars` has the name in a callable with the captures and scopes, or it is that of a function. -/
def bound (captures : List String) (own outer : List (List String)) (name : String) : Bool :=
  own.flatten.contains name || captures.contains name || !isVariable g outer name

/-- Every name that is looked up when the callable is emitted is bound, and so is every name that
    `emit_closure_env` looks up. -/
def closed (captures : List String) (own outer : List (List String)) : Code (List String) → Bool
  | .done => true
  | .mention name _ next => bound g captures own outer name && closed captures own outer next
  | .call name next =>
      (g.builtins.contains name || g.functions.contains name || bound g captures own outer name) &&
        closed captures own outer next
  | .declare name next => closed captures (declareIn name own) outer next
  | .scope inner next => closed captures ([] :: own) outer inner && closed captures own outer next
  | .closure caught _ params body next =>
      caught.all (bound g captures own outer) &&
        closed caught [params.reverse] (own ++ outer) body && closed captures own outer next

/-- Every variable around a function expression that is used in it at any depth is mentioned, and in
    no function expression in it with a return type. -/
def Mentioned (scopes : List (List String)) (params : List String) (body : Code Unit) : Prop :=
  ∀ name ∈ uses g [params.reverse] body, isVariable g scopes name = true →
    name ∈ mentions [params.reverse] body

end Emission

section Closedness
variable {g : Globals} {captures : List String} {own outer : List (List String)} {name : String}

theorem mem_freeOf {x : String} : x ∈ freeOf own name ↔ x = name ∧ x ∉ own.flatten := by
  rw [freeOf]
  split
  · next h => simp only [List.not_mem_nil, false_iff, not_and, not_not]; rintro rfl; exact h
  · next h =>
    rw [List.mem_singleton]
    exact ⟨fun hx => ⟨hx, hx ▸ h⟩, And.left⟩

theorem bound_iff : bound g captures own outer name = true ↔
    ∀ x ∈ freeOf own name, isVariable g outer x = true → x ∈ captures := by
  simp only [bound, Bool.or_eq_true, List.contains_iff_mem, Bool.not_eq_true', mem_freeOf]
  constructor
  · rintro ((hown | hcaptured) | hvar) x ⟨rfl, hfree⟩ hx
    · exact absurd hown hfree
    · exact hcaptured
    · rw [hvar] at hx
      cases hx
  · intro h
    by_cases hown : name ∈ own.flatten
    · exact Or.inl (Or.inl hown)
    · cases hvar : isVariable g outer name with
      | true => exact Or.inl (Or.inr (h name ⟨rfl, hown⟩ hvar))
      | false => exact Or.inr rfl

theorem declareIn_append (hown : own ≠ []) :
    declareIn name (own ++ outer) = declareIn name own ++ outer := by
  obtain ⟨scope, rest, rfl⟩ := List.exists_cons_of_ne_nil hown
  rfl

theorem declareIn_ne_nil (hown : own ≠ []) : declareIn name own ≠ [] := by
  obtain ⟨scope, rest, rfl⟩ := List.exists_cons_of_ne_nil hown
  exact List.cons_ne_nil _ _

theorem mem_uses_of_mem_mentions {α : Type} {code : Code α} : ∀ {own : List (List String)},
    name ∈ mentions own code → name ∈ uses g own code := by
  induction code with
  | done => exact fun h => h
  | mention x assigned next ih =>
    intro own h
    rw [mentions, List.mem_append] at h
    rw [uses, List.mem_append]
    exact h.imp_right ih
  | call x next ih =>
    intro own h
    rw [uses, List.mem_append]
    exact Or.inr (ih h)
  | declare x next ih => exact fun h => ih h
  | scope inner next ihInner ihNext =>
    intro own h
    rw [mentions, List.mem_append] at h
    rw [uses, List.mem_append]
    exact h.imp ihInner ihNext
  | closure caught explicit params body next ihBody ihNext =>
    intro own h
    rw [mentions, List.mem_append] at h
    rw [uses, List.mem_append]
    refine h.imp (fun h => ?_) ihNext
    split at h
    · cases h
    · exact ihBody h

/-- The scopes around a part hide their names from what is free in it. -/
theorem mem_uses_append {α : Type} {code : Code α} : ∀ (inner outer : List (List String)),
    inner ≠ [] →
    (name ∈ uses g (inner ++ outer) code ↔ name ∈ uses g inner code ∧ name ∉ outer.flatten) := by
  have hfree : ∀ (x : String) (inner outer : List (List String)),
      name ∈ freeOf (inner ++ outer) x ↔ name ∈ freeOf inner x ∧ name ∉ outer.flatten := by
    intro x inner outer
    simp only [mem_freeOf, List.flatten_append, List.mem_append, not_or, and_assoc]
  induction code with
  | done => simp [uses]
  | mention x assigned next ih =>
    intro inner outer hinner
    simp only [uses, List.mem_append, hfree, ih inner outer hinner, or_and_right]
  | call x next ih =>
    intro inner outer hinner
    simp only [uses, List.mem_append, ih inner outer hinner, or_and_right]
    split
    · simp
    · rw [hfree]
  | declare x next ih =>
    intro inner outer hinner
    rw [uses, uses, declareIn_append hinner, ih _ _ (declareIn_ne_nil hinner)]
  | scope part next ihPart ihNext =>
    intro inner outer hinner
    rw [uses, uses, List.mem_append, List.mem_append, ihNext inner outer hinner, ← List.cons_append,
      ihPart _ _ (List.cons_ne_nil _ _), or_and_right]
  | closure caught explicit params body next ihBody ihNext =>
    intro inner outer hinner
    rw [uses, uses, List.mem_append, List.mem_append, ihNext inner outer hinner, ← List.cons_append,
      ihBody _ _ (List.cons_ne_nil _ _), or_and_right]

theorem mem_capturesOf {scopes : List (List String)} {params : List String} {body : Code Unit} :
    name ∈ capturesOf g scopes params body ↔
      name ∈ mentions [params.reverse] body ∧ isVariable g scopes name = true := by
  rw [capturesOf, mem_foldl_noteName, List.mem_filter]
  simp

/-- If a function expression is closed, its environment can be made where all it uses is bound. -/
theorem caught_bound_iff {params : List String} {body : Code Unit}
    (hclosed : ∀ x ∈ uses g [params.reverse] body, isVariable g (own ++ outer) x = true →
      x ∈ capturesOf g (own ++ outer) params body) :
    (capturesOf g (own ++ outer) params body).all (bound g captures own outer) = true ↔
      ∀ x ∈ uses g (params.reverse :: own) body, isVariable g outer x = true → x ∈ captures := by
  have huses : ∀ x, x ∈ uses g (params.reverse :: own) body ↔
      x ∈ uses g [params.reverse] body ∧ x ∉ own.flatten := by
    intro x
    exact mem_uses_append [params.reverse] own (List.cons_ne_nil _ _)
  rw [List.all_eq_true]
  constructor
  · intro hall x hx hvar
    obtain ⟨hx, hfree⟩ := (huses x).mp hx
    have hcaught := hclosed x hx (by rwa [isVariable_outer g hfree])
    exact bound_iff.mp (hall x hcaught) x (mem_freeOf.mpr ⟨rfl, hfree⟩) hvar
  · intro hall x hx
    rw [bound_iff]
    intro y hy hvar
    obtain ⟨rfl, hfree⟩ := mem_freeOf.mp hy
    exact hall y ((huses y).mpr ⟨mem_uses_of_mem_mentions (mem_capturesOf.mp hx).1, hfree⟩) hvar

theorem closed_annotate {code : Code Unit} :
    ∀ (captures : List String) (own outer : List (List String)), own ≠ [] →
    (closed g captures own outer (annotate g (own ++ outer) code) = true ↔
      (∀ x ∈ uses g own code, isVariable g outer x = true → x ∈ captures) ∧
        Each (Mentioned g) (own ++ outer) code) := by
  induction code with
  | done =>
    intro captures own outer _
    simp [annotate, closed, uses, Each]
  | mention x assigned next ih =>
    intro captures own outer hown
    simp only [annotate, closed, uses, Each, Bool.and_eq_true, bound_iff,
      ih captures own outer hown, List.forall_mem_append, and_assoc]
  | call x next ih =>
    intro captures own outer hown
    simp only [annotate, closed, uses, Each, Bool.and_eq_true, Bool.or_eq_true,
      List.contains_iff_mem, bound_iff, ih captures own outer hown, List.forall_mem_append,
      and_assoc]
    refine and_congr_left fun _ => ?_
    split
    · next h => simp [h]
    · next h => simp [h]
  | declare x next ih =>
    intro captures own outer hown
    rw [annotate, closed, uses, Each, declareIn_append hown, ih _ _ _ (declareIn_ne_nil hown)]
  | scope inner next ihInner ihNext =>
    intro captures own outer hown
    rw [annotate, closed, uses, Each, Bool.and_eq_true, ihNext captures own outer hown,
      ← List.cons_append, ihInner _ _ _ (List.cons_ne_nil _ _), List.forall_mem_append]
    tauto
  | closure caught explicit params body next ihBody ihNext =>
    intro captures own outer hown
    have hbody := ihBody (capturesOf g (own ++ outer) params body) [params.reverse] (own ++ outer)
      (List.cons_ne_nil _ _)
    rw [List.singleton_append] at hbody
    rw [annotate, closed, uses, Each, Bool.and_eq_true, Bool.and_eq_true,
      ihNext captures own outer hown, hbody, List.forall_mem_append]
    have hmentioned : Mentioned g (own ++ outer) params body ↔
        ∀ x ∈ uses g [params.reverse] body, isVariable g (own ++ outer) x = true →
          x ∈ capturesOf g (own ++ outer) params body := by
      refine forall₂_congr fun x hx => forall_congr' fun hvar => ?_
      rw [mem_capturesOf, and_iff_left hvar]
    rw [hmentioned]
    constructor
    · rintro ⟨⟨hcaught, hclosed, hbody⟩, hnext, heach⟩
      exact ⟨⟨(caught_bound_iff hclosed).mp hcaught, hnext⟩, hclosed, hbody, heach⟩
    · rintro ⟨⟨huses, hnext⟩, hclosed, hbody, heach⟩
      exact ⟨⟨(caught_bound_iff hclosed).mpr huses, hclosed, hbody⟩, hnext, heach⟩

example : closed onlyMain [] [["n"]] [["main"]] (.closure [] false []
    (.closure ["n"] true [] (.mention "n" false .done) .done) .done) = false := by decide

end Closedness

end NewClLang.ClosureCaptures
