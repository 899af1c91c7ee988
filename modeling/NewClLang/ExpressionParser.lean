import NewClLang.ParserBasics

set_option autoImplicit false

/-!
# The parser: expressions

`parse_expression` of `compiler/parser.py` and what it calls, from the literals to the levels of
operators.
-/
namespace NewClLang.ExpressionParser
open Lexer ParsedNodes ParserBasics TokenParsers TypeRefs
open ModuleSyntax (formatTypeRef)
open PythonText (Interpreter)

section Primaries
variable (py : Interpreter) (self : Recursive)

/-- `MAGIC_CONSTS`. -/
def magicConsts : List String := ["__FILE__", "__LINE__", "__COL__", "__FUNC__", "__MODULE__"]

/-- `list(lex(value))`. -/
def lexText (text : List Char) : Parse (List Token) := fun c =>
  match lex py text with
  | .ok tokens => .ok (tokens, c)
  | .error e => .error (ofLexer e)

/-- The parser of an interpolated expression. -/
def parseWhole : Parse Node := do
  let expr ← self.expression
  let _ ← expect .eof
  pure expr

def parsePart : Part → Parse Node
  | .literal text => pure (node (.stringLiteral text) [])
  | .expr text => do
    let tokens ← lexText py text
    let expr ← within tokens (parseWhole self)
    pure expr.detached

/-- `_parse_interpolated_parts` -/
def parseInterpolatedParts : List Part → Parse (List Node)
  | [] => pure []
  | part :: rest => do
    let first ← parsePart py self part
    let others ← parseInterpolatedParts rest
    pure (first :: others)

def parseString : Parse Node := do
  let start ← advance
  match Token.string start with
  | .interpolated parts => do
    let nodes ← parseInterpolatedParts py self parts
    span (node .interpolatedString nodes) start
  | .plain text => span (node (.stringLiteral text) []) start

def parseLiteral (label : Token → Label) : Parse Node := do
  let start ← advance
  span (node (label start) []) start

def integerLiteral (t : Token) : Label := .integerLiteral (Token.integer t).1 (Token.integer t).2

def floatLiteral (t : Token) : Label := .floatLiteral (Token.float t).1 (Token.float t).2

/-- What follows the blocks of an `if` after its first one. -/
def parseElse : Parse (List Node) := do
  let t ← peek
  if t.kind = .kwElse then do
    let _ ← advance
    let t ← peek
    if t.kind = .kwIf then do
      let nested ← self.primary
      pure [node .block [node .expressionStatement [nested]]]
    else do
      let block ← parseBlock self
      pure [block]
  else pure []

def parseIf : Parse Node := do
  let start ← advance
  let condition ← self.expression
  let thenBlock ← parseBlock self
  let elseBlock ← parseElse self
  span (node .ifExpr (condition :: thenBlock :: elseBlock)) start

def parseMatch : Parse Node := do
  let start ← advance
  let scrutinee ← self.expression
  let arms ← parseMatchArms self
  span (node (.matchExpr (patternsOf arms)) (scrutinee :: armNodes arms)) start

def parseBlockExpr : Parse Node := do
  let start ← peek
  let block ← parseBlock self
  span (node .blockExpr [block]) start

/-- The type arguments behind the name of a struct, in the form in which they become part of it. -/
def parseAppliedName (name : String) : Parse String := do
  let t ← peek
  if t.kind = .lbracket then do
    let args ← parseTypeArgList self
    pure (formatTypeRef (.generic (.named name) args))
  else pure name

def parseNew : Parse Node := do
  let _ ← advance
  let dotted ← parseDottedName
  let name ← parseAppliedName self dotted
  let _ ← expect .lbrace
  let fields ← parseStructLiteralFields self
  let _ ← expect .rbrace
  pure (structLiteral name fields true)

/-- `[N]T { ... }`, or `[]T { ... }`, in which the type may be left out. -/
def parseElemType (length : Option ℕ) : Parse (Option TypeRef) := do
  let t ← peek
  if length.isNone ∧ t.kind = .lbrace then pure none
  else do
    let type ← parseType self
    pure (some type)

def parseArrayLiteral : Parse Node := do
  let start ← advance
  let length ← parseLength
  let _ ← expect .rbracket
  let elemType ← parseElemType self length
  let _ ← expect .lbrace
  let elements ← parseCommaList self.fuel .rbrace self.expression
  let _ ← expect .rbrace
  match length with
  | none => span (node (.sliceLiteral elemType) elements) start
  | some n => span (node (.arrayLiteral n elemType) elements) start

/-- `map[K,V]{ ... }`. -/
def parseTypedMap (start : Token) : Parse Node := do
  let args ← parseTypeArgList self
  let _ ← expect .lbrace
  let entries ← parseMapLiteralEntries self
  let _ ← expect .rbrace
  span (node (.mapLiteral (some (.generic (.named "map") args))) entries) start

/-- `map{ ... }`. -/
def parseMap (start : Token) : Parse Node := do
  let _ ← advance
  let t ← peek
  if t.kind = .rbrace then
    failWith ("map literal: cannot infer key/value types from empty literal; use map[K,V]" ++
      "\x7b\x7d")
  else do
    let entries ← parseMapLiteralEntries self
    let _ ← expect .rbrace
    span (node (.mapLiteral none) entries) start

def parseStructFields (start : Token) (name : String) : Parse Node := do
  let _ ← advance
  let fields ← parseStructLiteralFields self
  let _ ← expect .rbrace
  span (structLiteral name fields false) start

/-- `name::Variant`. -/
def parseEnumRef (name : String) : Parse Node := do
  let _ ← advance
  let variant ← expectText .ident
  pure (node (.enumRef name variant) [])

/-- `.member::` or a struct literal behind `.member`. -/
def qualifiedAhead (ts : List Token) : Bool :=
  kindAt ts 0 == some .dot && kindAt ts 1 == some .ident &&
    (kindAt ts 2 == some .coloncolon || kindAt ts 2 == some .lbrace)

def parseQualified (start : Token) (name : String) : Parse Node := do
  let _ ← advance
  let member ← expectText .ident
  let qname := name ++ "." ++ member
  let t ← peek
  if t.kind = .coloncolon then parseEnumRef qname
  else if t.kind = .lbrace then parseStructFields self start qname
  else span (node (.identifier qname []) []) start

/-- Whether the braces begin as those of a struct literal do. -/
def structAhead : Parse Bool := do
  let _ ← advance
  let t ← peek
  if t.kind = .rbrace then pure true
  else if t.kind = .ident then do
    let _ ← advance
    let t ← peek
    pure (t.kind == .colon)
  else pure false

def parseStructOrName (start : Token) (name : String) : Parse Node := do
  let t ← peek
  if t.kind = .lbrace then do
    let save ← mark
    let isStruct ← structAhead
    let _ ← reset save
    if isStruct then parseStructFields self start name else span (node (.identifier name []) []) start
  else span (node (.identifier name []) []) start

/-- `name[...](`, `name[...]{`, or else a name alone. -/
def parseApplied (start : Token) (name : String) : Parse Node := do
  let save ← mark
  let args ← parseTypeArgList self
  let t ← peek
  if t.kind = .lparen then do
    let _ ← advance
    let nodes ← parseCallArgs self
    let _ ← expect .rparen
    span (node (.functionCall name args) nodes) start
  else if t.kind = .lbrace then do
    let brace ← mark
    let isStruct ← structAhead
    let _ ← reset brace
    if isStruct then parseStructOrName self start (formatTypeRef (.generic (.named name) args))
    else do
      let _ ← reset save
      parseStructOrName self start name
  else do
    let _ ← reset save
    parseStructOrName self start name

/-- What a name that is no constant is the beginning of. -/
def parseNamed (start : Token) (name : String) : Parse Node := do
  let t ← peek
  let c ← mark
  let behind := behindBrackets c.rest
  if name = "map" ∧ behind = some .lbrace then parseTypedMap self start
  else if name = "map" ∧ t.kind = .lbrace then parseMap self start
  else if qualifiedAhead c.rest then parseQualified self start name
  else if t.kind = .coloncolon then parseEnumRef name
  else if behind = some .lparen ∨ behind = some .lbrace then parseApplied self start name
  else parseStructOrName self start name

def parseIdentifier : Parse Node := do
  let start ← advance
  let name := Token.text start
  if magicConsts.contains name then span (node (.magicConst name) []) start
  else parseNamed self start name

def parseParens : Parse Node := do
  let _ ← advance
  let expr ← self.expression
  let _ ← expect .rparen
  pure expr

def parseFun : Parse Node := do
  let start ← advance
  parseFunctionExpr self start

/-- `parse_primary` -/
def parsePrimary : Parse Node := do
  let t ← peek
  match t.kind with
  | .kwIf => parseIf self
  | .kwMatch => parseMatch self
  | .kwRet => parseReturn self
  | .kwErr => parseErrReturn self
  | .lbrace => parseBlockExpr self
  | .string => parseString py self
  | .integer => parseLiteral integerLiteral
  | .float => parseLiteral floatLiteral
  | .bool => parseLiteral (fun start => .boolLiteral (Token.bool start))
  | .kwNil => parseLiteral (fun _ => .nilLiteral)
  | .kwFun => parseFun self
  | .char => parseLiteral (fun start => .runeLiteral (Token.char start))
  | .kwNew => parseNew self
  | .ident => parseIdentifier self
  | .lbracket => parseArrayLiteral self
  | .lparen => parseParens self
  | _ => fail (.unexpected t)

end Primaries

section Postfixes
variable (py : Interpreter) (importedModules : List String) (self : Recursive)

/-- The name of an identifier, and its type arguments where it has any. -/
def identifierOf (expr : Node) : Option (String × List TypeRef) :=
  match expr.label.label with
  | .identifier name typeArgs => some (name, typeArgs)
  | _ => none

def isImported (expr : Node) : Bool :=
  match identifierOf expr with
  | some (name, _) => importedModules.contains name
  | none => false

/-- The span of a call is that of its name, where that has one. -/
def spanOfCall (n : Node) (first : ℕ) (name : Node) (t : Token) : Parse Node :=
  if name.span.isSome then spanOn n first name t else pure n

/-- `(...)` behind an expression. -/
def callSuffix (first : ℕ) (expr : Node) : Parse Node := do
  let t ← advance
  match identifierOf expr with
  | some (name, typeArgs) =>
    if name = "size_of" then do
      let typeName ← parseType self
      let _ ← expect .rparen
      spanOfCall (node (.sizeOfType typeName) []) first expr t
    else do
      let args ← parseCallArgs self
      let _ ← expect .rparen
      spanOfCall (node (.functionCall name typeArgs) args) first expr t
  | none => do
    let _ ← parseCallArgs self
    let _ ← expect .rparen
    failWith "Only named functions and closure variables can be called"

/-- `i]` or `i:j]` behind the opening bracket. -/
def indexSuffix (expr : Node) (typeArgs : Option (List TypeRef)) : Parse Node := do
  let _ ← advance
  let first ← self.expression
  let t ← peek
  if t.kind = .colon then do
    let _ ← advance
    let t ← peek
    if t.kind = .rbracket then do
      let _ ← expect .rbracket
      pure (node .sliceExpr [expr, first])
    else do
      let stop ← self.expression
      let _ ← expect .rbracket
      pure (node .sliceExpr [expr, first, stop])
  else do
    let _ ← expect .rbracket
    pure (node (.indexAccess typeArgs) [expr, first])

/-- The type arguments that the brackets can be read as, and the token behind them. -/
def typeArgsAhead : Parse (Option (List TypeRef × TokenKind)) := do
  let save ← mark
  let args ← attempt isParseError (parseTypeArgList self)
  match args with
  | none => do
    let _ ← reset save
    pure none
  | some args => do
    let t ← peek
    let _ ← reset save
    pure (some (args, t.kind))

/-- `[...]` behind an expression. -/
def bracketSuffix (expr : Node) : Parse Node :=
  match identifierOf expr with
  | none => indexSuffix self expr none
  | some (name, _) => do
    let c ← mark
    let ahead ← typeArgsAhead self
    match ahead with
    | none => indexSuffix self expr none
    | some (typeArgs, behind) =>
      if behind = .lparen then do
        let _ ← parseTypeArgList self
        pure ((node (.identifier name typeArgs) []).withSpan expr.span)
      else if matchingContains .comma 0 c.rest then do
        let _ ← parseTypeArgList self
        pure (node (.genericFunctionValue name typeArgs) [])
      else indexSuffix self expr (some typeArgs)

/-- `[...]` behind the member of an imported module. -/
def moduleSuffix (qname : String) : Parse Node := do
  let typeArgs ← parseTypeArgList self
  let t ← peek
  if t.kind = .lparen then do
    let _ ← advance
    let args ← parseCallArgs self
    let _ ← expect .rparen
    pure (node (.functionCall qname typeArgs) args)
  else if t.kind ≠ .lbrace then pure (node (.genericFunctionValue qname typeArgs) [])
  else do
    let _ ← advance
    let fields ← parseStructLiteralFields self
    let _ ← expect .rbrace
    pure (structLiteral (formatTypeRef (.generic (.named qname) typeArgs)) fields false)

/-- A call of a method, or of a function of an imported module. -/
def memberCall (expr : Node) (field : String) (args : List Node) : Node :=
  match identifierOf expr with
  | some (name, _) =>
    if importedModules.contains name then node (.functionCall (name ++ "." ++ field) []) args
    else node (.methodCall field) (expr :: args)
  | none => node (.methodCall field) (expr :: args)

/-- Whether the brackets behind a member of an imported module hold type arguments. -/
def typeArgsBehind (expr : Node) (ts : List Token) : Bool :=
  kindAt ts 0 == some .lbracket && isImported importedModules expr && 1 < ts.length &&
    kindAt ts 1 != some .integer

/-- `.field` or `.method(...)` behind an expression. -/
def dotSuffix (first : ℕ) (expr : Node) : Parse Node := do
  let dot ← advance
  let field ← expectText .ident
  let t ← peek
  let c ← mark
  if typeArgsBehind importedModules expr c.rest then
    match identifierOf expr with
    | some (name, _) => moduleSuffix self (name ++ "." ++ field)
    | none => pure (node (.fieldAccess field) [expr])
  else if t.kind = .lparen then do
    let _ ← advance
    let args ← parseCallArgs self
    let _ ← expect .rparen
    spanOn (memberCall importedModules expr field args) first expr dot
  else pure (node (.fieldAccess field) [expr])

/-- `??` or `!!`. -/
def fallibleSuffix (op : String) (first : ℕ) (expr : Node) : Parse Node := do
  let t ← advance
  spanOn (node (.fallibleOp op) [expr]) first expr t

/-- `err? e { ... }`. -/
def errorHandlerSuffix (first : ℕ) (expr : Node) : Parse Node := do
  let t ← advance
  let _ ← advance
  let errorName ← expectText .ident
  let handler ← parseBlock self
  spanOn (node (.errorHandlerExpr errorName) [expr, handler]) first expr t

/-- `match? e { ... }`. -/
def errorMatchSuffix (first : ℕ) (expr : Node) : Parse Node := do
  let t ← advance
  let _ ← advance
  let errorName ← expectText .ident
  let arms ← parseMatchArms self
  spanOn (node (.errorMatchExpr errorName (patternsOf arms)) (expr :: armNodes arms)) first expr t

/-- The next suffix, where there is one. -/
def suffix (first : ℕ) (expr : Node) : Parse (Option Node) := do
  let t ← peek
  let c ← mark
  match t.kind with
  | .lparen => some <$> callSuffix self first expr
  | .lbracket => some <$> bracketSuffix self expr
  | .dot => some <$> dotSuffix importedModules self first expr
  | .questionquestion => some <$> fallibleSuffix "??" first expr
  | .notnot => some <$> fallibleSuffix "!!" first expr
  | .kwErr =>
    if kindAt c.rest 1 = some .question then some <$> errorHandlerSuffix self first expr
    else pure none
  | .kwMatch =>
    if kindAt c.rest 1 = some .question then some <$> errorMatchSuffix self first expr
    else pure none
  | _ => pure none

def suffixTurn (first : ℕ) (expr : Node) : Parse (Node ⊕ Node) := do
  let next ← suffix importedModules self first expr
  match next with
  | some expr => pure (.inl expr)
  | none => pure (.inr expr)

/-- `parse_postfix` -/
def parsePostfix : Parse Node := do
  let t ← peek
  let expr ← parsePrimary py self
  iterate (suffixTurn importedModules self t.pos) self.fuel expr

end Postfixes

section Operators
variable (py : Interpreter) (importedModules : List String) (self : Recursive)

/-- `parse_unary` -/
def parseUnary : Parse Node := do
  let t ← peek
  if t.kind ∈ [TokenKind.not, .tilde, .minus] then do
    let op ← advance
    let operand ← self.unary
    pure (node (.unaryOp (Token.text op)) [operand])
  else parsePostfix py importedModules self

/-- One turn of the loop over the operators of a level. -/
def operatorTurn (ops : List TokenKind) (parseOperand : Parse Node) (left : Node) :
    Parse (Node ⊕ Node) := do
  let t ← peek
  if t.kind ∈ ops then do
    let op ← advance
    let right ← parseOperand
    pure (.inl (node (.binaryOp (Token.text op)) [left, right]))
  else pure (.inr left)

/-- The functions of the levels of binary operators have this form. -/
def parseLevel (fuel : ℕ) (ops : List TokenKind) (parseOperand : Parse Node) : Parse Node := do
  let left ← parseOperand
  iterate (operatorTurn ops parseOperand) fuel left

/-- `parse_multiplicative` -/
def parseMultiplicative : Parse Node :=
  parseLevel self.fuel [.star, .slash, .percent, .shl, .shr, .amp] (parseUnary py importedModules self)

/-- `parse_additive` -/
def parseAdditive : Parse Node :=
  parseLevel self.fuel [.plus, .minus, .pipe, .caret] (parseMultiplicative py importedModules self)

/-- `parse_comparison` -/
def parseComparison : Parse Node :=
  parseLevel self.fuel [.gt, .lt, .ge, .le, .eqeq, .ne] (parseAdditive py importedModules self)

/-- `parse_logic_and` -/
def parseLogicAnd : Parse Node :=
  parseLevel self.fuel [.and] (parseComparison py importedModules self)

/-- `parse_logic_or` -/
def parseLogicOr : Parse Node :=
  parseLevel self.fuel [.or] (parseLogicAnd py importedModules self)

/-- `parse_expression` -/
def parseExpression : Parse Node := parseLogicOr py importedModules self

end Operators

end NewClLang.ExpressionParser
