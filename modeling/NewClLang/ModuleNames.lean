import NewClLang.ModuleSyntax

set_option autoImplicit false

/-!
# Qualifying the names of a module

`_rewrite_module_names` gives the top-level names of an imported module its module name. It visits
every node, but not every type in it.
-/
namespace NewClLang.ModuleNames
open RoseTrees TypeRefs ModuleSyntax

/-- The name that a function declaration contributes to `_top_names`. -/
def functionName : Kind → Option String
  | .functionDeclaration head => if head.receiverName.isSome then none else some head.name
  | _ => none

/-- The functions of an `ExternBlock`. -/
def externName (fn : Node) : Option String :=
  match fn.label with
  | .functionDeclaration head => some head.name
  | _ => none

def topNamesOf (stmt : Node) : List String :=
  match stmt.label with
  | .structDecl head => [head.name]
  | .ifaceDecl name _ _ => [name]
  | .enumDecl name _ => [name]
  | .externBlock => stmt.children.filterMap externName
  | kind => (functionName kind).toList

/-- `_top_names`, for the statements of all files of a module. -/
def topNames (statements : List Node) : List String := statements.flatMap topNamesOf

def isQualified (name : String) : Bool := name.toList.contains '.'

/-- The names that a node binds in the scope around it or in its children. -/
def binders : Kind → List String
  | .functionDeclaration head => head.receiverName.toList ++ head.params.map Param.name
  | .functionExpr params _ => params.map Param.name
  | .variableDeclaration name _ => [name]
  | .forIn index value => index :: value.toList
  | .tryStatement success error => success.toList ++ error.toList
  | .errorHandler errorName => [errorName]
  | .errorMatch errorName => [errorName]
  | _ => []

/-- An imported module: the name of its directory and what its files hold. An identifier of the
    lexer has no dot, so what the module declares has none. -/
structure Module where
  name : String
  statements : List Node
  plainNames : ∀ name ∈ topNames statements, isQualified name = false
  plainBinders : ∀ visit ∈ visitsAll (fun _ _ => ()) () statements, ∀ name ∈ binders visit.2,
    isQualified name = false

section Rewriting
variable (m : Module)

def qualified (name : String) : String := m.name ++ "." ++ name

/-- `q` and `qualify_name`. -/
def q (name : String) : String :=
  if !isQualified name && (topNames m.statements).contains name then qualified m name else name

def qualType (t : TypeRef) : TypeRef := t.rewrite (fun name => .named (q m name))

/-- `q` on the name of a call or of a struct literal, which may be a type application. -/
def qApplied : TypeRef → TypeRef
  | .named name => .named (q m name)
  | t => t

def qualParam (p : Param) : Param := { p with type := p.type.map (qualType m) }

def qualMethod (method : Method) : Method :=
  { method with
    params := method.params.map (fun p => (p.1, qualType m p.2))
    returnType := method.returnType.map (qualType m) }

/-- What `walk` does to one node. The functions of an `ExternBlock` are its children, and what is
    done to them there is done to them again as nodes, where it changes nothing more. -/
def rewriteKind : Kind → Kind
  | .functionDeclaration head =>
    .functionDeclaration
      { head with
        name := if head.receiverName.isSome then head.name else q m head.name
        returnType := head.returnType.map (qualType m)
        params := head.params.map (qualParam m)
        receiverType := head.receiverType.map (qualType m) }
  | .structDecl head =>
    .structDecl
      { head with
        name := q m head.name
        fields := head.fields.map (fun f => (f.1, qualType m f.2)) }
  | .ifaceDecl name methods embeds =>
    .ifaceDecl (q m name) (methods.map (qualMethod m)) (embeds.map (qualType m))
  | .enumDecl name variants => .enumDecl (q m name) variants
  | .functionExpr params returnType =>
    .functionExpr (params.map (qualParam m)) (returnType.map (qualType m))
  | .functionCall name typeArgs => .functionCall (qApplied m name) typeArgs
  | .genericFunctionValue name typeArgs =>
    .genericFunctionValue (q m name) (typeArgs.map (qualType m))
  | .indexAccess typeArgsCandidate =>
    .indexAccess (typeArgsCandidate.map (fun types => types.map (qualType m)))
  | .sizeOfType typeName => .sizeOfType (qualType m typeName)
  | .identifier name => .identifier (q m name)
  | .structLiteral name fields => .structLiteral (qApplied m name) fields
  | .mapLiteral mapType => .mapLiteral (mapType.map (qualType m))
  | .enumRef enumName variant => .enumRef (q m enumName) variant
  | kind => kind

/-- `_rewrite_module_names` -/
def rewriteModuleNames (entry : Bool) : List Node :=
  if entry then m.statements else mapAll (rewriteKind m) m.statements

end Rewriting

/-- Whether the types of a node are none that `walk` rewrites. -/
def omitsTypes : Kind → Bool
  | .variableDeclaration _ _ => true
  | .functionCall _ _ => true
  | .arrayLiteral _ _ => true
  | .sliceLiteral _ => true
  | .structLiteral (.named _) _ => false
  | .structLiteral _ _ => true
  | _ => false

/-- A node with the type parameters that are in scope at it. -/
def typeScope (kind : Kind) (typeParams : List String) : List String := kind.typeParams ++ typeParams

/-- Where the node before refers to a type, a function, a variable or an enum of the module, the node
    after has the qualified name. A type parameter hides a type of its name. -/
structure Replaced (m : Module) (typeParams : List String) (kind kind' : Kind) : Prop where
  values : ∀ (i : ℕ) (name : String), kind.values[i]? = some name →
    name ∈ topNames m.statements → kind'.values[i]? = some (qualified m name)
  types : ∀ (i : ℕ) (name : String), (namesAll kind.types)[i]? = some name →
    name ∈ topNames m.statements → name ∉ typeParams →
    (namesAll kind'.types)[i]? = some (qualified m name)

/-- Every reference of an imported module to what it declares is replaced. -/
def Complete (m : Module) : Prop :=
  ∀ (i : ℕ) (typeParams : List String) (kind kind' : Kind),
    (visitsAll typeScope [] m.statements)[i]? = some (typeParams, kind) →
    (visitsAll typeScope [] (rewriteModuleNames m false))[i]? = some (typeParams, kind') →
    Replaced m typeParams kind kind'

/-- No name of the module is written where the rewriting does not look. -/
def NoneOmitted (m : Module) : Prop :=
  ∀ visit ∈ visitsAll typeScope [] m.statements, omitsTypes visit.2 = true →
    ∀ name ∈ namesAll visit.2.types, name ∈ topNames m.statements → name ∈ visit.1

section Names
variable (m : Module)

theorem q_own {name : String} (h : name ∈ topNames m.statements) : q m name = qualified m name := by
  rw [q, m.plainNames name h, Bool.not_false, Bool.true_and, if_pos]
  simpa using h

theorem qualified_isQualified (name : String) : isQualified (qualified m name) = true := by
  simp [isQualified, qualified]

theorem qualified_ne {name : String} (h : name ∈ topNames m.statements) :
    name ≠ qualified m name := by
  intro heq
  have hplain := m.plainNames name h
  rw [heq, qualified_isQualified] at hplain
  cases hplain

theorem names_qualType (t : TypeRef) : names (qualType m t) = (names t).map (q m) :=
  names_rewrite (q m) t

theorem namesAll_map_qualType (ts : List TypeRef) :
    namesAll (ts.map (qualType m)) = (namesAll ts).map (q m) := by
  rw [namesAll_eq, namesAll_eq, List.flatMap_map, List.map_flatMap]
  exact List.flatMap_congr (fun t _ => names_qualType m t)

/-- The types that `walk` looks at are qualified, and the other ones stay. -/
theorem rewriteKind_types (kind : Kind) :
    (rewriteKind m kind).types =
      if omitsTypes kind then kind.types else kind.types.map (qualType m) := by
  have hlooked : omitsTypes kind = false → (rewriteKind m kind).types =
      (kind.rewrite (fun name => .named (q m name))).types := by
    intro h
    cases kind with
    | functionCall name typeArgs => cases h
    | variableDeclaration name annotated => cases h
    | arrayLiteral length elemType => cases h
    | sliceLiteral elemType => cases h
    | structLiteral name fields =>
      cases name with
      | named name => rfl
      | _ => cases h
    | _ => rfl
  have homitted : omitsTypes kind = true → (rewriteKind m kind).types = kind.types := by
    intro h
    cases kind with
    | structLiteral name fields =>
      cases name with
      | named name => cases h
      | _ => rfl
    | variableDeclaration name annotated => rfl
    | functionCall name typeArgs => rfl
    | arrayLiteral length elemType => rfl
    | sliceLiteral elemType => rfl
    | _ => cases h
  cases homits : omitsTypes kind with
  | true => exact homitted homits
  | false => exact (hlooked homits).trans (types_rewrite _ kind)

theorem rewriteKind_values (kind : Kind) :
    (rewriteKind m kind).values = kind.values.map (q m) := by
  cases kind with
  | functionCall name typeArgs => cases name <;> rfl
  | _ => rfl

theorem rewriteKind_typeParams (kind : Kind) (typeParams : List String) :
    typeScope (rewriteKind m kind) typeParams = typeScope kind typeParams := by
  cases kind <;> rfl

end Names

/-- One node: its references are replaced exactly when none stands in a type that is not looked at. -/
theorem replaced_iff (m : Module) (typeParams : List String) (kind : Kind) :
    Replaced m typeParams kind (rewriteKind m kind) ↔
      (omitsTypes kind = true → ∀ name ∈ namesAll kind.types, name ∈ topNames m.statements →
        name ∈ typeParams) := by
  constructor
  · intro hreplaced homits name hname hown
    by_contra hfree
    obtain ⟨i, hi⟩ := List.getElem?_of_mem hname
    have hafter := hreplaced.types i name hi hown hfree
    rw [rewriteKind_types, if_pos homits, hi] at hafter
    exact qualified_ne m hown (Option.some.inj hafter)
  · intro hnone
    constructor
    case values =>
      intro i name hi hown
      rw [rewriteKind_values, List.getElem?_map, hi, Option.map_some, q_own m hown]
    case types =>
      intro i name hi hown hfree
      have hlooked : omitsTypes kind = false := by
        rw [Bool.eq_false_iff]
        intro homits
        exact hfree (hnone homits name (List.mem_of_getElem? hi) hown)
      rw [rewriteKind_types, hlooked, if_neg Bool.false_ne_true, namesAll_map_qualType,
        List.getElem?_map, hi, Option.map_some, q_own m hown]

/-- The qualification of an imported module is complete exactly when no name of the module stands in
    the type of a `let`, in the element type of an array or slice literal, in the type arguments of
    a call, or in a struct literal of an applied type. -/
theorem rewrite_complete_iff (m : Module) : Complete m ↔ NoneOmitted m := by
  have hvisits : visitsAll typeScope [] (rewriteModuleNames m false) =
      (visitsAll typeScope [] m.statements).map (fun visit => (visit.1, rewriteKind m visit.2)) :=
    visitsAll_map (rewriteKind_typeParams m) m.statements []
  rw [Complete, hvisits]
  constructor
  · rintro hcomplete ⟨typeParams, kind⟩ hvisit
    obtain ⟨i, hi⟩ := List.getElem?_of_mem hvisit
    refine (replaced_iff m typeParams kind).mp (hcomplete i typeParams kind _ hi ?_)
    rw [List.getElem?_map, hi]
    rfl
  · intro hnone i typeParams kind kind' hi hi'
    rw [List.getElem?_map, hi] at hi'
    cases hi'
    exact (replaced_iff m typeParams kind).mpr (hnone (typeParams, kind) (List.mem_of_getElem? hi))

/-- `struct Value { kind: i32 }  fun none(): []Value { ret []Value {} }` in the module `json`. -/
def jsonModule : Module where
  name := "json"
  statements := [
    .node (.structDecl ⟨"Value", [], [("kind", .named "i32")]⟩) [],
    .node (.functionDeclaration ⟨"none", none, none, [], [], some (.slice (.named "Value"))⟩) [
      .node (.block true) [.node (.other "Return") [.node (.sliceLiteral (some (.named "Value"))) []]]]]
  plainNames := by decide
  plainBinders := by decide

/-- The literal keeps the type `[]Value`, while the function returns `[]json.Value`. -/
theorem literal_not_qualified : ¬Complete jsonModule := by
  intro hcomplete
  have hreplaced := hcomplete 4 [] (.sliceLiteral (some (.named "Value")))
    (.sliceLiteral (some (.named "Value"))) rfl rfl
  exact absurd (hreplaced.types 0 "Value" rfl (by decide) List.not_mem_nil) (by decide)

end NewClLang.ModuleNames
