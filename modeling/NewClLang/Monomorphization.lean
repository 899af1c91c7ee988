import NewClLang.ErasedDescriptors
import NewClLang.FallibleRuns
import NewClLang.ModuleSyntax

set_option autoImplicit false

/-!
# Monomorphization

`monomorphize` of `compiler/generics.py`. A walk gives the rewritten node and the instances that it
requests, in order; which instances have been made already changes nothing in the walk itself.
-/
namespace NewClLang.Monomorphization
open FallibleRuns ModuleSyntax RoseTrees TypeRefs

inductive Origin where
  | type
  | function

def Origin.word : Origin → String
  | .type => "type"
  | .function => "function"

inductive GenericError where
  | genericMethod
  | notGeneric (origin : Origin) (base : String)
  | argCount (origin : Origin) (base : String) (expected given : ℕ)
  | unsatisfied (origin : Origin) (base : String) (arg : TypeRef) (constraint : String)
  | argsRequired (origin : Origin) (name : String)

def GenericError.message : GenericError → String
  | .genericMethod => "generic methods are not supported in generic v1"
  | .notGeneric origin base => origin.word ++ " " ++ base ++ " is not generic"
  | .argCount origin base expected given =>
    "generic " ++ origin.word ++ " " ++ base ++ ": expected " ++ toString expected ++
      " type args, got " ++ toString given
  | .unsatisfied origin base arg constraint =>
    "generic " ++ origin.word ++ " " ++ base ++ ": type arg " ++ formatTypeRefUser arg ++
      " does not satisfy " ++ constraint
  | .argsRequired origin name =>
    "generic " ++ origin.word ++ " " ++ name ++ " requires explicit type args"

/-- `request_struct` or `request_func` of a template that has passed the checks. -/
inductive Request where
  | type (base : String) (args : List TypeRef)
  | function (base : String) (args : List TypeRef)

abbrev Asks := Logged GenericError Request

structure FunctionTemplate where
  head : FunctionHead
  children : List Node

structure StructTemplate where
  head : StructHead
  children : List Node

/-- `generic_funcs` and `generic_structs`, the latest declaration of a name first. -/
structure Templates where
  functions : List (String × FunctionTemplate)
  structs : List (String × StructTemplate)

def Templates.isFunction (tmpls : Templates) (name : String) : Bool :=
  (tmpls.functions.lookup name).isSome

def Templates.isStruct (tmpls : Templates) (name : String) : Bool :=
  (tmpls.structs.lookup name).isSome

section Names
open ErasedDescriptors

/-- `_mangle_type`. -/
def mangleType (t : TypeRef) : String :=
  String.ofList (stripUnderscores (collapse false (formatTypeRef t).toList))

def instanceName (name : String) (args : List TypeRef) : String :=
  name ++ "__" ++ "__".intercalate (args.map mangleType)

def erasedFuncName (baseName : String) : String := "__erased_" ++ baseName

end Names

section Substitution

/-- `dict(zip(tmpl.type_params, args))`: a later type parameter of the same name wins. -/
def substitution (typeParams : List TypeParam) (args : List TypeRef) (name : String) : TypeRef :=
  (((typeParams.map TypeParam.name).zip args).reverse.lookup name).getD (.named name)

def normalizeCallTypeArgs (name : TypeRef) (typeArgs : List TypeRef) : TypeRef × List TypeRef :=
  if typeArgs.isEmpty then
    match name with
    | .generic (.named base) args => (.named base, args)
    | _ => (name, [])
  else (name, typeArgs)

/-- `apply` of `_substitute_node`. -/
def substituteKind (subst : String → TypeRef) : Kind → Kind
  | .functionDeclaration head =>
    .functionDeclaration { head with
      params := head.params.map (fun p => { p with type := p.type.map (TypeRef.rewrite subst) })
      returnType := head.returnType.map (TypeRef.rewrite subst)
      receiverType := head.receiverType.map (TypeRef.rewrite subst)
      typeParams := [] }
  | .structDecl head =>
    .structDecl { head with
      fields := head.fields.map (fun f => (f.1, f.2.rewrite subst))
      typeParams := [] }
  | .structLiteral name fields => .structLiteral (name.rewrite subst) fields
  | .mapLiteral mapType => .mapLiteral (mapType.map (TypeRef.rewrite subst))
  | .functionCall name typeArgs =>
    let (name, typeArgs) := normalizeCallTypeArgs name typeArgs
    .functionCall name (typeArgs.map (TypeRef.rewrite subst))
  | .genericFunctionValue name typeArgs =>
    .genericFunctionValue name (typeArgs.map (TypeRef.rewrite subst))
  | .indexAccess candidate =>
    .indexAccess (candidate.map (fun typeArgs => typeArgs.map (TypeRef.rewrite subst)))
  | .sizeOfType typeName => .sizeOfType (typeName.rewrite subst)
  | .variableDeclaration name annotated =>
    .variableDeclaration name (annotated.map (TypeRef.rewrite subst))
  | .arrayLiteral length elemType => .arrayLiteral length (elemType.rewrite subst)
  | .sliceLiteral elemType => .sliceLiteral (elemType.map (TypeRef.rewrite subst))
  | kind => kind

def functionInstance (tmpl : FunctionTemplate) (name : String) (args : List TypeRef) : Node :=
  let subst := substitution tmpl.head.typeParams args
  .node (substituteKind subst (.functionDeclaration { tmpl.head with name }))
    (mapAll (substituteKind subst) tmpl.children)

def structInstance (tmpl : StructTemplate) (name : String) (args : List TypeRef) : Node :=
  let subst := substitution tmpl.head.typeParams args
  .node (substituteKind subst (.structDecl { tmpl.head with name }))
    (mapAll (substituteKind subst) tmpl.children)

end Substitution

section Erasure

def ordConstraint : String := "types.Ord"

def satisfiesConstraint (constraint : String) : Bool :=
  constraint == "any" ||
    ["types.Ord", "types.Eq", "types.Hash", "types.Zero"].contains constraint

def isTypeParam (head : FunctionHead) : Option TypeRef → Bool
  | some (.named name) => (head.typeParams.map TypeParam.name).contains name
  | _ => false

def statements : Option Node → List Node
  | some (.node (.block _) stmts) => stmts
  | _ => []

/-- `_single_tail_expr`. -/
def singleTailExpr : List Node → Option Node
  | [.node .ret [expr]] => some expr
  | [.node .expressionStatement [expr]] => some expr
  | _ => none

def identifierName : Node → Option String
  | .node (.identifier name) _ => some name
  | _ => none

/-- `_block_identifier_name`. -/
def blockIdentifierName (block : Node) : Option String :=
  (singleTailExpr (statements (some block))).bind identifierName

def canEraseStage1 (tmpl : FunctionTemplate) : Bool :=
  let head := tmpl.head
  if head.typeParams.any (fun p => p.constraint != "any") then false
  else if head.params.any Param.hasDefault then false
  else if head.params.isEmpty || !isTypeParam head head.returnType then false
  else if head.params.any (fun p => !isTypeParam head p.type) then false
  else match (singleTailExpr (statements tmpl.children.getLast?)).bind identifierName with
    | some name => head.params.any (fun p => name == p.name)
    | none => false

/-- The tail expression `if a < b { a } else { b }`. -/
def isMinimum (first second : String) : Option Node → Bool
  | some (.node .ifExpr [.node (.binaryOp "<") [left, right], thenBlock, elseBlock]) =>
    identifierName left == some first && identifierName right == some second &&
      blockIdentifierName thenBlock == some first && blockIdentifierName elseBlock == some second
  | _ => false

def canEraseStage2OrdMin (tmpl : FunctionTemplate) : Bool :=
  let head := tmpl.head
  match head.typeParams, head.params with
  | [typeParam], [first, second] =>
    typeParam.constraint == ordConstraint && !first.hasDefault && !second.hasDefault &&
      isTypeParam head head.returnType && isTypeParam head first.type &&
      isTypeParam head second.type &&
      isMinimum first.name second.name (singleTailExpr (statements tmpl.children.getLast?))
  | _, _ => false

def canErase (tmpl : FunctionTemplate) : Bool := canEraseStage1 tmpl || canEraseStage2OrdMin tmpl

def rawType : TypeRef := .named "raw"

/-- `erase_function`. The template is an attribute of the erased function, and so one of its nodes. -/
def eraseFunction (tmpl : FunctionTemplate) : Node :=
  let head := tmpl.head
  let erased (t : Option TypeRef) : Option TypeRef := if isTypeParam head t then some rawType else t
  let returned := RoseTree.node .ret [.node
    (.identifier ((head.params.head?.map Param.name).getD "_desc")) []]
  let body := if !head.params.isEmpty && erased head.returnType = some rawType then [returned] else []
  .node
    (.functionDeclaration {
      name := erasedFuncName head.name
      receiverName := none
      receiverType := none
      typeParams := []
      params := ⟨"_desc", some rawType, false⟩ ::
        head.params.map (fun p => { p with type := erased p.type })
      returnType := erased head.returnType })
    [.node (.block true) body, .node (.functionDeclaration head) tmpl.children]

end Erasure

section Rewriting
variable (tmpls : Templates)

/-- The constraints are looked up in the order of the type parameters. -/
def checkConstraints (origin : Origin) (base : String) : List TypeParam → List TypeRef → Asks Unit
  | p :: ps, arg :: args =>
    if satisfiesConstraint p.constraint then checkConstraints origin base ps args
    else raise (.unsatisfied origin base arg p.constraint)
  | _, _ => pure ()

def checkTypeArgs (origin : Origin) (base : String) (typeParams : List TypeParam)
    (args : List TypeRef) : Asks Unit :=
  if args.length ≠ typeParams.length then
    raise (.argCount origin base typeParams.length args.length)
  else checkConstraints origin base typeParams args

def requestStruct (base : String) (args : List TypeRef) : Asks Unit :=
  match tmpls.structs.lookup base with
  | none => if args.isEmpty then pure () else raise (.notGeneric .type base)
  | some tmpl => do
    checkTypeArgs .type base tmpl.head.typeParams args
    ask (.type base args)

def requestFunc (base : String) (args : List TypeRef) : Asks String :=
  match tmpls.functions.lookup base with
  | none => if args.isEmpty then pure base else raise (.notGeneric .function base)
  | some tmpl => do
    checkTypeArgs .function base tmpl.head.typeParams args
    ask (.function base args)
    pure (if canErase tmpl then erasedFuncName base else instanceName base args)

mutual

/-- A function type, and an application of what is not a name, stay as they are. -/
def rewriteType : TypeRef → Asks TypeRef
  | .named name =>
    if tmpls.isStruct name then raise (.argsRequired .type name) else pure (.named name)
  | .pointer inner nullable => do
    let inner ← rewriteType inner
    pure (.pointer inner nullable)
  | .slice elem => do
    let elem ← rewriteType elem
    pure (.slice elem)
  | .array length elem => do
    let elem ← rewriteType elem
    pure (.array length elem)
  | .generic (.named base) args => do
    let args ← rewriteTypes args
    if base = "map" then pure (.generic (.named "map") args)
    else
      requestStruct tmpls base args
      pure (.named (instanceName base args))
  | t => pure t

def rewriteTypes : List TypeRef → Asks (List TypeRef)
  | [] => pure []
  | t :: ts => do
    let t ← rewriteType t
    let ts ← rewriteTypes ts
    pure (t :: ts)

end

def rewriteOptional : Option TypeRef → Asks (Option TypeRef)
  | none => pure none
  | some t => do
    let t ← rewriteType tmpls t
    pure (some t)

def rewriteParam (p : Param) : Asks Param := do
  let type ← rewriteOptional tmpls p.type
  pure { p with type }

def rewriteField (f : String × TypeRef) : Asks (String × TypeRef) := do
  let type ← rewriteType tmpls f.2
  pure (f.1, type)

def rewriteCall (name : TypeRef) (typeArgs : List TypeRef) : Asks Kind :=
  let (name, typeArgs) := normalizeCallTypeArgs name typeArgs
  let base := formatTypeRef name
  if typeArgs.isEmpty then
    if tmpls.isFunction base then raise (.argsRequired .function base)
    else pure (.functionCall name [])
  else do
    let args ← rewriteTypes tmpls typeArgs
    if base = "map" then pure (.functionCall (.generic (.named "map") args) [])
    else
      let rewrittenName ← requestFunc tmpls base args
      pure (.functionCall (.named rewrittenName) [])

def rewriteFunctionValue (name : String) (typeArgs : List TypeRef) : Asks Kind :=
  if typeArgs.isEmpty then pure (.genericFunctionValue name [])
  else do
    let args ← rewriteTypes tmpls typeArgs
    let name ← requestFunc tmpls name args
    pure (.genericFunctionValue name [])

/-- The generic function that an index access with type arguments names. -/
def indexedFunction (candidate : Option (List TypeRef)) (children : List Node) :
    Option (String × List TypeRef) :=
  match candidate, children.head?.bind identifierName with
  | some typeArgs, some name =>
    if !typeArgs.isEmpty && tmpls.isFunction name then some (name, typeArgs) else none
  | _, _ => none

/-- The node's own attributes, and whether its children stay: an index access that turns out to be
    a function value loses them. -/
def rewriteNode (kind : Kind) (children : List Node) : Asks (Kind × Bool) :=
  match kind with
  | .functionDeclaration head => do
    let params ← each (rewriteParam tmpls) head.params
    let returnType ← rewriteOptional tmpls head.returnType
    let receiverType ← rewriteOptional tmpls head.receiverType
    pure (.functionDeclaration { head with params, returnType, receiverType }, true)
  | .structDecl head => do
    let fields ← each (rewriteField tmpls) head.fields
    pure (.structDecl { head with fields }, true)
  | .structLiteral name fields => do
    let name ← rewriteType tmpls name
    pure (.structLiteral name fields, true)
  | .mapLiteral mapType => do
    let mapType ← rewriteOptional tmpls mapType
    pure (.mapLiteral mapType, true)
  | .functionCall name typeArgs => do
    let call ← rewriteCall tmpls name typeArgs
    pure (call, true)
  | .genericFunctionValue name typeArgs => do
    let value ← rewriteFunctionValue tmpls name typeArgs
    pure (value, true)
  | .indexAccess candidate =>
    match indexedFunction tmpls candidate children with
    | some (name, typeArgs) => do
      let value ← rewriteFunctionValue tmpls name typeArgs
      pure (value, false)
    | none => pure (.indexAccess candidate, true)
  | .sizeOfType typeName => do
    let typeName ← rewriteType tmpls typeName
    pure (.sizeOfType typeName, true)
  | .variableDeclaration name annotated => do
    let annotated ← rewriteOptional tmpls annotated
    pure (.variableDeclaration name annotated, true)
  | .arrayLiteral length elemType => do
    let elemType ← rewriteType tmpls elemType
    pure (.arrayLiteral length elemType, true)
  | .sliceLiteral elemType => do
    let elemType ← rewriteOptional tmpls elemType
    pure (.sliceLiteral elemType, true)
  | kind => pure (kind, true)

/-- The parameters of a node with their defaults, which are its first children. -/
def defaultCount : Kind → ℕ
  | .functionDeclaration head => head.params.countP Param.hasDefault
  | .functionExpr params _ => params.countP Param.hasDefault
  | _ => 0

mutual

/-- `_walk_values(node, rewrite_node)`, with `skip_param_defaults`. -/
def walk (skip : Bool) : Node → Asks Node
  | .node kind children => do
    let (kind', kept) ← rewriteNode tmpls kind children
    if kept then
      let children ← walkAll skip (if skip then defaultCount kind else 0) children
      pure (.node kind' children)
    else pure (.node kind' [])

/-- The first `skipped` nodes are left alone. -/
def walkAll (skip : Bool) : ℕ → List Node → Asks (List Node)
  | _, [] => pure []
  | skipped + 1, child :: children => do
    let children ← walkAll skip skipped children
    pure (child :: children)
  | 0, child :: children => do
    let child ← walk skip child
    let children ← walkAll skip 0 children
    pure (child :: children)

end

/-- For each parameter with a default, whether a call with `argc` arguments omits it. -/
def omitted : ℕ → List Param → List Bool
  | _, [] => []
  | 0, p :: ps => if p.hasDefault then true :: omitted 0 ps else omitted 0 ps
  | argc + 1, p :: ps => if p.hasDefault then false :: omitted argc ps else omitted argc ps

def walkMarked : List Bool → List Node → Asks (List Node)
  | true :: marks, child :: children => do
    let child ← walk tmpls false child
    let children ← walkMarked marks children
    pure (child :: children)
  | false :: marks, child :: children => do
    let children ← walkMarked marks children
    pure (child :: children)
  | _, children => pure children

def omittedOf (argc : ℕ) : Kind → List Bool
  | .functionDeclaration head => omitted argc head.params
  | _ => []

/-- The loop of `request_omitted_defaults` over the parameters of the function that is called. -/
def walkOmitted (argc : ℕ) (fn : Node) : Asks Node := do
  let children ← walkMarked tmpls (omittedOf argc fn.label) fn.children
  pure (.node fn.label children)

end Rewriting

section Calls

def callOf (kind : Kind) (children : List Node) : List (String × ℕ) :=
  match kind with
  | .functionCall (.named name) _ => [(name, children.length)]
  | _ => []

mutual

/-- The calls outside the defaults of parameters, with the number of their arguments. -/
def calls : Node → List (String × ℕ)
  | .node kind children => callOf kind children ++ callsAll (defaultCount kind) children

def callsAll : ℕ → List Node → List (String × ℕ)
  | _, [] => []
  | skipped + 1, _ :: children => callsAll skipped children
  | 0, child :: children => calls child ++ callsAll 0 children

end

end Calls

section Machine

def functionName : Kind → Option String
  | .functionDeclaration head => some head.name
  | _ => none

/-- The keys of `made_structs` and `made_funcs`, among them `("__erased__", base)`. -/
inductive Made where
  | type (base : String) (args : List TypeRef)
  | function (base : String) (args : List TypeRef)
  | erased (base : String)
  deriving DecidableEq

inductive Place where
  | ordinary (index : ℕ)
  | generated (index : ℕ)

/-- At the head of the loop, before the generated statement `index`, or behind the loop. -/
inductive Control where
  | round
  | generated (index : ℕ)
  | finished

/-- The variables of `monomorphize`; `functions` are the entries of `concrete_funcs`, the latest of
    a name first. -/
structure Machine where
  ordinary : List Node
  generated : List Node
  made : List Made
  functions : List (String × Place)
  before : ℕ
  control : Control

variable (tmpls : Templates)

def Templates.function (base : String) : FunctionTemplate :=
  (tmpls.functions.lookup base).getD ⟨⟨base, none, none, [], [], none⟩, []⟩

def Templates.struct (base : String) : StructTemplate :=
  (tmpls.structs.lookup base).getD ⟨⟨base, [], []⟩, []⟩

def Machine.addFunction (m : Machine) (inst : Node) : Machine :=
  { m with
    generated := m.generated ++ [inst]
    functions := ((functionName inst.label).map
      (fun name => (name, Place.generated m.generated.length))).toList ++ m.functions }

def Machine.request (m : Machine) : Request → Machine
  | .type base args =>
    if .type base args ∈ m.made then m
    else { m with
      made := .type base args :: m.made
      generated := m.generated ++
        [structInstance (tmpls.struct base) (instanceName base args) args] }
  | .function base args =>
    let tmpl := tmpls.function base
    if .function base args ∈ m.made then m
    else
      let m := { m with made := .function base args :: m.made }
      if canErase tmpl then
        if .erased base ∈ m.made then m
        else
          let m := { m with made := .erased base :: m.made }
          m.addFunction (eraseFunction tmpl)
      else m.addFunction (functionInstance tmpl (instanceName base args) args)

def Machine.get (m : Machine) : Place → Option Node
  | .ordinary index => m.ordinary[index]?
  | .generated index => m.generated[index]?

def Machine.set (m : Machine) (fn : Node) : Place → Machine
  | .ordinary index => { m with ordinary := m.ordinary.set index fn }
  | .generated index => { m with generated := m.generated.set index fn }

def requestOmittedDefaults (m : Machine) (call : String × ℕ) : Except GenericError Machine :=
  match m.functions.lookup call.1 with
  | none => .ok m
  | some place =>
    match m.get place with
    | none => .ok m
    | some fn =>
      match walkOmitted tmpls call.2 fn with
      | .error e => .error e
      | .ok (fn, requests) => .ok (requests.foldl (Machine.request tmpls) (m.set fn place))

def requestCallDefaults : List (String × ℕ) → Machine → Except GenericError Machine
  | [], m => .ok m
  | call :: rest, m =>
    match requestOmittedDefaults tmpls m call with
    | .error e => .error e
    | .ok m => requestCallDefaults rest m

/-- One step of the loop: the pass over the ordinary statements, the walk of one generated
    statement, or the pass over the calls. That pass rewrites no node in which it looks for calls,
    since these are defaults of parameters. -/
def step (m : Machine) : Except GenericError Machine :=
  match m.control with
  | .round =>
    match each (walk tmpls false) m.ordinary with
    | .error e => .error e
    | .ok (ordinary, requests) =>
      .ok (requests.foldl (Machine.request tmpls)
        { m with ordinary, before := m.generated.length, control := .generated 0 })
  | .generated index =>
    match m.generated[index]? with
    | some stmt =>
      match walk tmpls true stmt with
      | .error e => .error e
      | .ok (stmt, requests) =>
        .ok (requests.foldl (Machine.request tmpls)
          { m with generated := m.generated.set index stmt, control := .generated (index + 1) })
    | none =>
      match requestCallDefaults tmpls ((m.ordinary ++ m.generated).flatMap calls) m with
      | .error e => .error e
      | .ok m =>
        .ok { m with control := if m.generated.length = m.before then .finished else .round }
  | .finished => .ok m

end Machine

section Program

/-- The loop that sorts the statements of a program. -/
def declare (tmpls : Templates) (m : Machine) :
    List Node → Except GenericError (Templates × Machine)
  | [] => .ok (tmpls, m)
  | .node kind children :: rest =>
    let ordinary := { m with ordinary := m.ordinary ++ [.node kind children] }
    match kind with
    | .functionDeclaration head =>
      if head.typeParams.isEmpty then
        declare tmpls
          { ordinary with functions := (head.name, .ordinary m.ordinary.length) :: m.functions } rest
      else if head.receiverName.isSome then .error .genericMethod
      else declare
        { tmpls with functions := (head.name, ⟨head, children⟩) :: tmpls.functions } m rest
    | .structDecl head =>
      if head.typeParams.isEmpty then declare tmpls ordinary rest
      else declare
        { tmpls with structs := (head.name, ⟨head, children⟩) :: tmpls.structs } m rest
    | _ => declare tmpls ordinary rest

def start (program : List Node) : Except GenericError (Templates × Machine) :=
  declare ⟨[], []⟩ ⟨[], [], [], [], 0, .round⟩ program

def Machine.finished (m : Machine) : Prop := m.control = .finished

/-- `monomorphize` raises an error or comes to its last line. -/
def Returns (program : List Node) : Prop :=
  ∀ tmpls m, start program = .ok (tmpls, m) → Stops (step tmpls) Machine.finished m

end Program

end NewClLang.Monomorphization
