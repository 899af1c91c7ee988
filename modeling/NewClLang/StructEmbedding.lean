import NewClLang.TypeSyntax

set_option autoImplicit false

/-!
# Embedding of structs

What the type checker makes of embedded fields (`compiler/typecheck.py`): `validate_struct_embedding`
looks for conflicts where a struct is declared, `promoted_field` and `promoted_method` look for a name
where it is used.
-/
namespace NewClLang.StructEmbedding
open TypeRefs TypeSyntax

section Declarations

/-- A declaration of a struct. The parser takes only a name for an embedded field. -/
structure StructDecl where
  fields : List (String × TypeRef)
  embeddedFields : List String
  named : ∀ f ∈ fields, f.1 ∈ embeddedFields → ∃ name, f.2 = .named name

/-- The type of the result and the parameters of a method. -/
abbrev Signature := Option TypeRef × List (String × TypeRef)

/-- The structs of a program, and the methods of each type, which `build_symbol_table` takes only
    once. -/
structure StructProgram where
  structs : List (String × StructDecl)
  methods : List (String × List (String × Signature))
  once : ∀ m ∈ methods, (m.2.map Prod.fst).Nodup

/-- A dictionary in the order of insertion. -/
def store {α : Type} (d : List (String × α)) (entry : String × α) : List (String × α) :=
  if entry.1 ∈ d.map Prod.fst then d.map (fun e => if e.1 = entry.1 then entry else e)
  else d ++ [entry]

def dict {α : Type} (entries : List (String × α)) : List (String × α) := entries.foldl store []

variable (p : StructProgram)

def StructProgram.lookupStruct (name : String) : Option (List (String × TypeRef)) :=
  (p.structs.lookup name).map (fun decl => dict decl.fields)

/-- `embedded_structs`. -/
def StructProgram.embeddedStructs (name : String) : List (String × TypeRef) :=
  match p.structs.lookup name with
  | some decl => dict (decl.fields.filter (fun f => f.1 ∈ decl.embeddedFields))
  | none => []

/-- `symtab._methods`. -/
def StructProgram.methodsOf (name : String) : List (String × Signature) :=
  (p.methods.lookup name).getD []

def pointerBaseName : TypeRef → String
  | .pointer inner _ => typeKey inner
  | t => typeKey t

/-- `embed_type[1:] if embed_type.startswith("*") else embed_type`. -/
def embedBase : TypeRef → String
  | .pointer inner false => typeKey inner
  | t => typeKey t

end Declarations

section Validation
variable (p : StructProgram)

/-- The loop that looks for fields that are declared twice. -/
def checkFields (stmt : String) : List String → List String → Except String Unit
  | [], _ => .ok ()
  | name :: names, seen =>
    if name ∈ seen then .error ("struct " ++ stmt ++ ": duplicate field " ++ name)
    else checkFields stmt names (name :: seen)

/-- The loop over the fields, or the methods, of an embedded struct. -/
def promote (stmt kind embed : String) (direct : List String) :
    List String → List (String × String) → Except String (List (String × String))
  | [], promoted => .ok promoted
  | name :: names, promoted =>
    if name ∈ direct then
      .error ("struct " ++ stmt ++ ": promoted " ++ kind ++ " " ++ name ++
        " conflicts with direct " ++ kind)
    else
      match promoted.lookup name with
      | some other =>
        .error ("struct " ++ stmt ++ ": promoted " ++ kind ++ " " ++ name ++
          " conflicts with embedded " ++ kind ++ " " ++ other)
      | none => promote stmt kind embed direct names ((name, embed) :: promoted)

def validateEmbeds (stmt : String) (directFields : List String) :
    List (String × TypeRef) → List (String × String) → List (String × String) → Except String Unit
  | [], _, _ => .ok ()
  | (embed, type) :: embeds, promotedFields, promotedMethods =>
    match p.lookupStruct (embedBase type) with
    | none => .error ("struct " ++ stmt ++ ": embedded struct " ++ typeKey type ++ " not found")
    | some fields => do
      let promotedFields ←
        promote stmt "field" embed directFields (fields.map Prod.fst) promotedFields
      let promotedMethods ←
        promote stmt "method" embed ((p.methodsOf stmt).map Prod.fst)
          ((p.methodsOf (embedBase type)).map Prod.fst) promotedMethods
      validateEmbeds stmt directFields embeds promotedFields promotedMethods

def directFields (decl : StructDecl) : List String :=
  (decl.fields.map Prod.fst).filter (fun name => name ∉ decl.embeddedFields)

def validateStructEmbedding (stmt : String) (decl : StructDecl) : Except String Unit := do
  checkFields stmt (decl.fields.map Prod.fst) []
  validateEmbeds p stmt (directFields decl) (p.embeddedStructs stmt) [] []

/-- Every struct is accepted. -/
def Accepted : Prop :=
  ∀ stmt decl, p.structs.lookup stmt = some decl → validateStructEmbedding p stmt decl = .ok ()

end Validation

section Promotion
variable (p : StructProgram) {α : Type}

/-- What ends a search. -/
inductive Failure where
  | outOfFuel
  | message (text : String)

/-- Where a name has been found, and what it stands for. -/
abbrev Match (α : Type) := List String × α

/-- The loop over the embedded structs. -/
def collect (members : String → Option (List (String × α)))
    (nested : String → Except Failure (Option (Match α))) (name : String) :
    List (String × TypeRef) → Except Failure (List (Match α))
  | [] => .ok []
  | (embed, type) :: embeds =>
    match members (pointerBaseName type) with
    | none => collect members nested name embeds
    | some own => do
      let inner ← nested (pointerBaseName type)
      let rest ← collect members nested name embeds
      .ok (((own.lookup name).map (fun m => ([embed], m))).toList ++
        (inner.map (fun m => (embed :: m.1, m.2))).toList ++ rest)

/-- The fuel bounds the depth of the embedding. -/
def promoted (kind : String) (members : String → Option (List (String × α))) :
    ℕ → String → String → List String → Except Failure (Option (Match α))
  | 0, _, _, _ => .error .outOfFuel
  | fuel + 1, typeName, name, seen =>
    if typeName ∈ seen then .ok none
    else do
      let found ← collect members (fun base => promoted kind members fuel base name (typeName :: seen))
        name (p.embeddedStructs typeName)
      if 1 < found.length then
        .error (.message (typeName ++ ": ambiguous promoted " ++ kind ++ " " ++ name))
      else .ok found.head?

def promotedField : ℕ → String → String → List String →
    Except Failure (Option (Match TypeRef)) :=
  promoted p "field" p.lookupStruct

/-- A method is found with the type of its receiver. -/
def promotedMethod : ℕ → String → String → List String →
    Except Failure (Option (Match (String × Signature))) :=
  promoted p "method" (fun base => some ((p.methodsOf base).map (fun m => (m.1, base, m.2))))

end Promotion

end NewClLang.StructEmbedding
