import NewClLang.Lexer
import NewClLang.ModuleSyntax

set_option autoImplicit false

/-!
# What the parser builds

The nodes of `compiler/ast.py` as `compiler/parser.py` builds them: a class with the attributes that
are no nodes, the span, and the nodes among the attributes in their order.
-/
namespace NewClLang.ParsedNodes
open Lexer ModuleSyntax RoseTrees TypeRefs

/-- The attributes of a function. Where it is in an `extern` block, `external` has the library and the
symbol. The children are the default values that there are, and the body. -/
structure Signature where
  name : String
  receiverName : Option String
  receiverType : Option TypeRef
  typeParams : List TypeParam
  params : List Param
  returnType : Option TypeRef
  returnTypeExplicit : Bool
  fallibleExplicit : Bool
  external : Option (Option StringValue × Option StringValue)

/-- A method of an interface. Without a type it returns `void`. -/
structure MethodHead where
  name : String
  params : List Param
  returnType : Option TypeRef
  fallible : Bool

inductive Label where
  | program
  | importDecl (moduleName : String)
  | typeAlias (name : String) (target : TypeRef)
  | externBlock (lib : Option StringValue)
  | functionDeclaration (signature : Signature)
  | structDecl (name : String) (fields : List (String × TypeRef)) (typeParams : List TypeParam)
    (embeddedFields : List String)
  | ifaceDecl (name : String) (methods : List MethodHead) (embeds : List TypeRef)
  | enumDecl (name : String) (variants : List String)
  | variableDeclaration (name : String) (annotated : Option TypeRef)
  | expressionStatement
  | assignment (op : String)
  | update (op : String)
  | block
  | forCondition
  | forIn (index : String) (value : Option String)
  | breakStmt
  | ret
  | errReturn
  | defer
  | spawnStmt
  | tryStatement (successName errorName : Option String)
  | functionExpr (params : List Param) (returnType : Option TypeRef) (returnTypeExplicit : Bool)
    (fallibleExplicit : Bool)
  | ifExpr
  | matchExpr (patterns : List Bool)
  | blockExpr
  | stringLiteral (value : List Char)
  | interpolatedString
  | runeLiteral (value : ℕ)
  | integerLiteral (value : ℤ) (suffix : Option String)
  | floatLiteral (value : String) (suffix : Option String)
  | boolLiteral (value : Bool)
  | nilLiteral
  | magicConst (name : String)
  | identifier (name : String) (genericTypeArgs : List TypeRef)
  | binaryOp (op : String)
  | unaryOp (op : String)
  | functionCall (name : String) (typeArgs : List TypeRef)
  | genericFunctionValue (name : String) (typeArgs : List TypeRef)
  | methodCall (method : String)
  | fieldAccess (field : String)
  | indexAccess (genericTypeArgsCandidate : Option (List TypeRef))
  | sliceExpr
  | sizeOfType (typeName : TypeRef)
  | fallibleOp (op : String)
  | errorHandlerExpr (errorName : String)
  | errorMatchExpr (errorName : String) (patterns : List Bool)
  | structLiteral (name : String) (fields : List String) (heap : Bool)
  | mapLiteral (mapType : Option TypeRef)
  | arrayLiteral (length : ℕ) (elemType : Option TypeRef)
  | sliceLiteral (elemType : Option TypeRef)
  | enumRef (enumName variant : String)

/-- The `span` of a node: where its first token is said to be, and its last. What the parser does not
record is here too: where the node begins in the file, which is nowhere for a node of an interpolation,
and, for a node that is built on an expression before it, where that expression is said to begin. -/
structure Span where
  start : ℕ
  stop : ℕ
  first : Option ℕ
  receiver : Option (Option ℕ)

structure Labelled where
  label : Label
  span : Option Span

abbrev Node := RoseTree Labelled

def node (label : Label) (children : List Node) : Node := .node ⟨label, none⟩ children

def Node.span (n : Node) : Option Span := n.label.span

def Node.withSpan (n : Node) (span : Option Span) : Node := .node ⟨n.label.label, span⟩ n.children

/-- A node of an interpolation, whose positions are those in the text of the interpolation. -/
def Node.detached (n : Node) : Node :=
  n.map (fun l => ⟨l.label, l.span.map (fun s => { s with first := none })⟩)

/-- A parameter and its default value. -/
abbrev ParamNode := Param × Option Node

def paramsOf (params : List ParamNode) : List Param := params.map Prod.fst

def defaultsOf (params : List ParamNode) : List Node := params.filterMap Prod.snd

/-- The arms of a `match`, each with its pattern, which `else` has not, and its body. -/
abbrev Arm := Option Node × Node

def patternsOf (arms : List Arm) : List Bool := arms.map (fun arm => arm.1.isSome)

def armNodes (arms : List Arm) : List Node := arms.flatMap (fun arm => arm.1.toList ++ [arm.2])

end NewClLang.ParsedNodes
