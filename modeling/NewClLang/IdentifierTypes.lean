import NewClLang.TypeRefs
import NewClLang.StatefulRuns

set_option autoImplicit false

/-!
# Types of identifiers

`infer_types`, as far as it gives types to identifiers. The scopes and the narrowed variables are
stacks of names, and the walk of a function whose return type a call asks for goes on top of those
of its callers. All other checks are a parameter. What the walk read of the stacks is kept with
which declarations the names had in the program.
-/
namespace NewClLang.IdentifierTypes
open TypeRefs StatefulRuns

/-- A `Symbol`. The declarations are numbered in the order in which they are made. -/
structure Symbol where
  name : String
  type : TypeRef
  decl : ℕ
  deriving DecidableEq

/-- The one entry of a dictionary `_narrowed_vars`, with the declaration that the condition tested. -/
structure Narrowed where
  name : String
  type : TypeRef
  decl : ℕ
  deriving DecidableEq

mutual

/-- Expressions. Those that introduce no name and narrow none are operations on their operands; the
    default values for the omitted arguments of a call are walked once the called function has its
    return type. -/
inductive Expr where
  | identifier (node : ℕ) (name : String)
  | operation (node : ℕ) (operands omitted : List Expr)
  | notEqual (node : ℕ) (left right : Expr)
  | ifExpr (node : ℕ) (condition : Expr) (thenBlock elseBlock : List Stmt)
  | blockExpr (node : ℕ) (block : List Stmt)
  | errorHandler (node : ℕ) (operand : Expr) (error : String) (handler : List Stmt)
  | errorMatch (node : ℕ) (operand : Expr) (error : String) (arms : List Expr)
  | functionExpr (node : ℕ) (returnTypeExplicit : Bool) (body : List Stmt)

/-- Statements. The parameters of a function come first in its body, each with its default value if
    it has one. The forms of `for` are loops over the values of some expressions. -/
inductive Stmt where
  | param (node : ℕ) (name : String) (default : List Expr)
  | variableDecl (node : ℕ) (name : String) (annotated : Option TypeRef) (initializer : Expr)
  | assignment (node : ℕ) (target value : Expr)
  | update (node : ℕ) (target : Expr)
  | expression (expr : Expr)
  | loop (node : ℕ) (heads : List Expr) (names : List String) (body : List Stmt)
  | tryCall (node : ℕ) (operand : Expr) (success : List String) (successBlock : List Stmt)
      (error : List String) (errorBlock : List Stmt)
  | defer (body : List Stmt)
  | function (node : ℕ) (key : ℕ) (returnTypeExplicit : Bool) (defaults body : List Stmt)
  | other (node : ℕ)

end

structure FunctionDecl where
  key : ℕ
  returnTypeExplicit : Bool
  defaults : List Stmt
  body : List Stmt

abbrev Program := List Stmt

def Stmt.function? : Stmt → Option FunctionDecl
  | .function _ key explicit defaults body => some ⟨key, explicit, defaults, body⟩
  | _ => none

def Program.decls (p : Program) : List FunctionDecl := p.filterMap Stmt.function?

def Program.top (p : Program) : List ℕ := p.decls.map FunctionDecl.key

/-- An identifier whose type is set: the variable of its name in scope where it stands or else the
    type of the function or type of its name, the declarations that the conditions around it in its
    function test, what the walk finds on its stacks, and the type that it gives. -/
structure Reading where
  declared : Option Symbol
  globalType : Option TypeRef
  tested : List ℕ
  found : Option Symbol
  narrowing : Option Narrowed
  assigned : TypeRef
  deriving DecidableEq

/-- A check of the target of an assignment. -/
structure Assigning where
  declared : Option Symbol
  tested : List ℕ
  narrowing : Option Narrowed
  banned : Bool

/-- `_scopes` and `narrowed_read_stack`, innermost first, with how many of the scopes belong to the
    function that is walked and the declarations that its conditions around the place test; all
    declarations made, and the attributes `type` and `_narrowed_vars` set so far. -/
structure State where
  scopes : List (List Symbol)
  narrowed : List Narrowed
  ownScopes : ℕ
  tested : List ℕ
  declared : List Symbol
  types : List (ℕ × TypeRef)
  narrowedVars : List (ℕ × Narrowed)
  resolved : List ℕ
  resolving : List ℕ
  exhausted : Bool
  readings : List Reading
  assignings : List Assigning

inductive Failure where
  | alreadyDeclared (name : String)
  | narrowedAssignment (name : String)
  | rejected (node : ℕ)
  | unknownFunction (key : ℕ)
  | inferenceCycle (key : ℕ)
  | depthExhausted

abbrev Walk (α : Type) := EStateM Failure State α

/-- The other checks. They read the types of operands, the attributes of the nodes and the tables
    of the program: which functions a node asks the return type of, the type that it gets, the types
    of the names that a statement declares, and the names of functions and types. -/
structure Rules where
  resolves : ℕ → List TypeRef → State → List ℕ
  check : ℕ → List TypeRef → State → Option TypeRef
  binds : ℕ → List TypeRef → State → Option (List TypeRef)
  isFunction : String → Bool
  functionType : String → State → Option TypeRef
  typeName : String → Option TypeRef

/-- The type of a name that is no variable. -/
def Rules.globalType (rules : Rules) (name : String) (s : State) : Option TypeRef :=
  if rules.isFunction name then rules.functionType name s else rules.typeName name

structure Env where
  rules : Rules
  top : List ℕ
  resolve : ℕ → Walk Unit

def nonnullable : TypeRef → Option TypeRef
  | .pointer inner true => some (.pointer inner false)
  | _ => none

def nilType : TypeRef := .named "__nil"

def errorType : TypeRef := .named "error"

/-- `lookup` of the symbol table. -/
def lookup (scopes : List (List Symbol)) (name : String) : Option Symbol :=
  scopes.flatten.find? (fun sym => sym.name == name)

def lookupNarrowed (narrowed : List Narrowed) (name : String) : Option Narrowed :=
  narrowed.find? (fun e => e.name == name)

namespace State

/-- The scopes that the program has where the walk is: those of the function and the global one. -/
def lexical (s : State) : List (List Symbol) :=
  s.scopes.take s.ownScopes ++ (s.scopes.drop s.ownScopes).getLast?.toList

end State

section Steps

def pushScope : Walk Unit := fun s =>
  .ok () { s with scopes := [] :: s.scopes, ownScopes := s.ownScopes + 1 }

def popScope : Walk Unit := fun s =>
  .ok () { s with scopes := s.scopes.tail, ownScopes := s.ownScopes - 1 }

def pushNarrowed (e : Narrowed) : Walk Unit := fun s =>
  .ok () { s with narrowed := e :: s.narrowed }

def popNarrowed : Walk Unit := fun s => .ok () { s with narrowed := s.narrowed.tail }

/-- A condition that narrows no variable leaves the attribute of an earlier walk in place. -/
def setNarrowedVars (node : ℕ) (narrowing : Option Narrowed) : Walk Unit := fun s =>
  match narrowing with
  | none => .ok () s
  | some e => .ok () { s with narrowedVars := (node, e) :: s.narrowedVars }

def setTested (tested : List ℕ) : Walk Unit := fun s => .ok () { s with tested := tested }

def setOwnScopes (n : ℕ) : Walk Unit := fun s => .ok () { s with ownScopes := n }

def declare (name : String) (type : TypeRef) : Walk Unit := fun s =>
  match s.scopes with
  | [] => .ok () s
  | scope :: rest =>
      if scope.any (fun sym => sym.name == name) then .error (.alreadyDeclared name) s
      else
        let sym : Symbol := ⟨name, type, s.declared.length⟩
        .ok () { s with scopes := (sym :: scope) :: rest, declared := s.declared ++ [sym] }

def declareAll : List String → List TypeRef → Walk Unit
  | name :: names, type :: types => do
      declare name type
      declareAll names types
  | _, _ => pure ()

/-- `is_assignment_forbidden`, where the target is an identifier. -/
def checkForbidden (name : String) : Walk Unit := fun s =>
  let narrowing := lookupNarrowed s.narrowed name
  let s' := { s with
    assignings :=
      ⟨lookup s.lexical name, s.tested, narrowing, narrowing.isSome⟩ :: s.assignings }
  if narrowing.isSome then .error (.narrowedAssignment name) s' else .ok () s'

def inScope {α : Type} (x : Walk α) : Walk α := do
  pushScope
  let a ← x
  popScope
  pure a

/-- The declaration that a condition tests is tested in the block that it guards. -/
def guarded (narrowing : Option Narrowed) (x : Walk Unit) : Walk Unit := do
  let s ← get
  setTested ((narrowing.map Narrowed.decl).toList ++ s.tested)
  x
  setTested s.tested

/-- `infer_block_value` on the block that the condition of an `if` may have narrowed. -/
def narrowedBlock (node : ℕ) (narrowing : Option Narrowed) (x : Walk Unit) : Walk Unit := do
  setNarrowedVars node narrowing
  let s ← get
  inScope do
    match s.narrowedVars.lookup node with
    | none => x
    | some e => do
        pushNarrowed e
        guarded narrowing x
        popNarrowed

end Steps

/-- A walked expression: its type, the symbol that it is if it is a variable, and what
    `maybe_narrow_condition` makes of it. -/
structure Typed where
  type : TypeRef
  symbol? : Option Symbol
  narrowing : Option Narrowed

/-- The variable of a comparison with `nil`. -/
def comparedWithNil (left right : Typed) : Option Typed :=
  if left.symbol?.isSome && right.type == nilType then some left
  else if right.symbol?.isSome && left.type == nilType then some right
  else none

def maybeNarrowCondition (left right : Typed) : Option Narrowed :=
  match comparedWithNil left right with
  | none => none
  | some var =>
      match var.symbol?, nonnullable var.type with
      | some sym, some type => some ⟨sym.name, type, sym.decl⟩
      | _, _ => none

section Checks
variable (env : Env)

def resolveTarget (f : ℕ) : Walk Unit := if env.top.contains f then env.resolve f else pure ()

def resolveTargets : List ℕ → Walk Unit
  | [] => pure ()
  | f :: fs => do
      resolveTarget env f
      resolveTargets fs

def resolveDeclared (f : ℕ) : Walk Unit :=
  if env.top.contains f then env.resolve f else throw (.unknownFunction f)

def check (node : ℕ) (types : List TypeRef) : Walk TypeRef := fun s =>
  match env.rules.check node types s with
  | none => .error (.rejected node) s
  | some type => .ok type { s with types := (node, type) :: s.types }

/-- The rest of a node's case, after its operands. -/
def finish (node : ℕ) (types : List TypeRef) : Walk TypeRef := do
  let s ← get
  resolveTargets env (env.rules.resolves node types s)
  check env node types

/-- The types of the names that a statement declares. -/
def bindTypes (node : ℕ) (types : List TypeRef) : Walk (List TypeRef) := do
  let _ ← finish env node types
  let s ← get
  match env.rules.binds node types s with
  | none => throw (.rejected node)
  | some bound => pure bound

def setRead (node : ℕ) (reading : Reading) : Walk Unit := fun s =>
  .ok () { s with
    readings := reading :: s.readings
    types := (node, reading.assigned) :: s.types }

def narrowedOr (narrowing : Option Narrowed) (type : TypeRef) : TypeRef :=
  match narrowing with
  | some e => e.type
  | none => type

/-- The case of an identifier, with the stacks as they are in `s`. -/
def readIdentifier (node : ℕ) (name : String) (s : State) : Walk Typed :=
  let declared := lookup s.lexical name
  let narrowing := lookupNarrowed s.narrowed name
  match lookup s.scopes name with
  | some sym => do
      let type := narrowedOr narrowing sym.type
      setRead node
        ⟨declared, env.rules.globalType name s, s.tested, some sym, narrowing, type⟩
      pure ⟨type, some sym, none⟩
  | none =>
      if env.rules.isFunction name then do
        let type ← finish env node []
        setRead node ⟨declared, some type, s.tested, none, none, type⟩
        pure ⟨type, none, none⟩
      else
        match env.rules.typeName name with
        | none => throw (.rejected node)
        | some named => do
            let type := narrowedOr narrowing named
            setRead node ⟨declared, some named, s.tested, none, narrowing, type⟩
            pure ⟨type, none, none⟩

def walkIdentifier (node : ℕ) (name : String) : Walk Typed := do
  let s ← get
  readIdentifier env node name s

end Checks

def Expr.name? : Expr → Option String
  | .identifier _ name => some name
  | _ => none

def checkTarget (target : Expr) : Walk Unit :=
  match target.name? with
  | some name => checkForbidden name
  | none => pure ()

mutual

def walkExpr (env : Env) : Expr → Walk Typed
  | .identifier node name => walkIdentifier env node name
  | .operation node operands omitted => do
      let types ← walkExprs env operands
      let s ← get
      resolveTargets env (env.rules.resolves node types s)
      let defaults ← walkExprs env omitted
      let type ← finish env node (types ++ defaults)
      pure ⟨type, none, none⟩
  | .notEqual node left right => do
      let l ← walkExpr env left
      let r ← walkExpr env right
      let type ← finish env node [l.type, r.type]
      pure ⟨type, none, maybeNarrowCondition l r⟩
  | .ifExpr node condition thenBlock elseBlock => do
      let c ← walkExpr env condition
      let _ ← finish env node [c.type]
      narrowedBlock node c.narrowing (walkStmts env thenBlock)
      inScope (walkStmts env elseBlock)
      let type ← finish env node []
      pure ⟨type, none, none⟩
  | .blockExpr node block => do
      inScope (walkStmts env block)
      let type ← finish env node []
      pure ⟨type, none, none⟩
  | .errorHandler node operand error handler => do
      let c ← walkExpr env operand
      let _ ← finish env node [c.type]
      inScope do
        declare error errorType
        inScope (walkStmts env handler)
      let type ← finish env node []
      pure ⟨type, none, none⟩
  | .errorMatch node operand error arms => do
      let c ← walkExpr env operand
      let _ ← finish env node [c.type]
      let types ← inScope do
        declare error errorType
        walkExprs env arms
      let type ← finish env node types
      pure ⟨type, none, none⟩
  | .functionExpr node explicit body => do
      if explicit then pure () else inScope (walkStmts env body)
      let _ ← finish env node []
      inScope (walkStmts env body)
      let type ← finish env node []
      pure ⟨type, none, none⟩

def walkExprs (env : Env) : List Expr → Walk (List TypeRef)
  | [] => pure []
  | e :: es => do
      let t ← walkExpr env e
      let ts ← walkExprs env es
      pure (t.type :: ts)

def walkStmt (env : Env) : Stmt → Walk Unit
  | .param node name default => do
      let ts ← walkExprs env default
      let types ← bindTypes env node ts
      declareAll [name] types
  | .variableDecl node name annotated initializer => do
      let t ← walkExpr env initializer
      let _ ← finish env node [t.type]
      declare name (annotated.getD t.type)
  | .assignment node target value => do
      let t ← walkExpr env target
      let _ ← finish env node [t.type]
      checkTarget target
      let v ← walkExpr env value
      let _ ← finish env node [t.type, v.type]
  | .update node target => do
      let t ← walkExpr env target
      let _ ← finish env node [t.type]
      checkTarget target
      let _ ← finish env node [t.type]
  | .expression expr => do
      let _ ← walkExpr env expr
  | .loop node heads names body => do
      let ts ← walkExprs env heads
      let types ← bindTypes env node ts
      inScope do
        declareAll names types
        walkStmts env body
  | .tryCall node operand success successBlock error errorBlock => do
      let t ← walkExpr env operand
      let types ← bindTypes env node [t.type]
      inScope do
        declareAll success types
        walkStmts env successBlock
      inScope do
        declareAll error [errorType]
        walkStmts env errorBlock
  | .defer body => walkStmts env body
  | .function node key explicit _ body => do
      if explicit then pure () else resolveDeclared env key
      inScope (walkStmts env body)
      let _ ← finish env node []
  | .other node => do
      let _ ← finish env node []

def walkStmts (env : Env) : List Stmt → Walk Unit
  | [] => pure ()
  | s :: rest => do
      walkStmt env s
      walkStmts env rest

end

/-- `infer_return_from_body`, on top of the stacks as they are. -/
def inferReturnFromBody (env : Env) (d : FunctionDecl) : Walk Unit := do
  let s ← get
  setOwnScopes 0
  setTested []
  inScope (walkStmts env d.body)
  setOwnScopes s.ownScopes
  setTested s.tested

def startInference (f : ℕ) : Walk Unit := fun s => .ok () { s with resolving := f :: s.resolving }

def endInference (f : ℕ) (resolving : List ℕ) : Walk Unit := fun s =>
  .ok () { s with resolving := resolving, resolved := f :: s.resolved }

def exhaust : Walk Unit := fun s => .error .depthExhausted { s with exhausted := true }

/-- `resolve_function_return` and `resolve_method_return`, to a bounded depth of nested calls. -/
def resolveReturn (rules : Rules) (p : Program) : ℕ → ℕ → Walk Unit
  | 0, _ => exhaust
  | n + 1, f => do
      let s ← get
      match p.decls.find? (fun d => d.key == f) with
      | none => throw (.unknownFunction f)
      | some d =>
          if d.returnTypeExplicit || s.resolved.contains f then pure ()
          else if s.resolving.contains f then throw (.inferenceCycle f)
          else do
            startInference f
            inferReturnFromBody ⟨rules, p.top, resolveReturn rules p n⟩ d
            endInference f s.resolving

/-- The functions under inference are distinct, so this depth is never exhausted. -/
def Program.env (rules : Rules) (p : Program) : Env :=
  ⟨rules, p.top, resolveReturn rules p (p.top.length + 1)⟩

def validateFunctionDefaults (env : Env) : List FunctionDecl → Walk Unit
  | [] => pure ()
  | d :: ds => do
      inScope (walkStmts env d.defaults)
      validateFunctionDefaults env ds

/-- The passes of `infer_types` over the functions. -/
def inferTypes (rules : Rules) (p : Program) : Walk Unit := do
  validateFunctionDefaults (p.env rules) p.decls
  resolveTargets (p.env rules) p.top
  walkStmts (p.env rules) p

def initial : State := ⟨[[]], [], 1, [], [], [], [], [], [], false, [], []⟩

def accepts (rules : Rules) (p : Program) : Bool :=
  match inferTypes rules p initial with
  | .ok _ _ => true
  | .error _ _ => false

/-- Where `infer_types` ends, whether it accepts the program or not. -/
def outcome (rules : Rules) (p : Program) : State := finalState (inferTypes rules p) initial

end NewClLang.IdentifierTypes
