import NewClLang.ParsedNodes
import NewClLang.TokenParsers

set_option autoImplicit false

/-!
# The parser: types, blocks and parameters

`compiler/parser.py`. A function of `Parser` that calls back into the functions above it gets them as
a `Recursive`.
-/
namespace NewClLang.ParserBasics
open Lexer ParsedNodes TokenParsers TypeRefs
open ModuleSyntax (Param TypeParam)

section Errors

/-- The `ParseError`s. The text of `expected` and `unexpected` ends with the token. -/
inductive ParseError where
  | expected (kind : TokenKind) (got : Token)
  | unexpected (got : Token)
  | spawned (kind : TokenKind)
  | text (message : String)

inductive Raised where
  | parseError (e : ParseError)
  | syntaxError (message : String)
  | valueError

/-- What the lexer of an interpolation raises. -/
def ofLexer : PythonText.Raised → Failure Raised
  | .syntaxError message => .raised (.syntaxError message)
  | .valueError => .raised .valueError
  | .indexError => .indexError
  | .unfinished => .unfinished

def isParseError : Raised → Bool
  | .parseError _ => true
  | _ => false

abbrev Parse := Parser Token Raised

variable {α : Type}

def fail (e : ParseError) : Parse α := raise (.parseError e)

def failWith (message : String) : Parse α := fail (.text message)

end Errors

section Tokens

/-- `value` of a token that has a text. -/
def Token.text (t : Token) : String :=
  match t.value with
  | .text word => String.ofList word
  | _ => ""

def Token.string (t : Token) : StringValue :=
  match t.value with
  | .string value => value
  | _ => .plain []

def Token.integer (t : Token) : ℤ × Option String :=
  match t.value with
  | .integer value suffix => (value, suffix.map String.ofList)
  | _ => (0, none)

def Token.float (t : Token) : String × Option String :=
  match t.value with
  | .float digits suffix => (String.ofList digits, suffix.map String.ofList)
  | _ => ("", none)

def Token.bool (t : Token) : Bool :=
  match t.value with
  | .bool b => b
  | _ => false

def Token.char (t : Token) : ℕ :=
  match t.value with
  | .char code => code
  | _ => 0

end Tokens

section Helpers
variable {α : Type}

def expect (kind : TokenKind) : Parse Token := do
  let t ← peek
  if t.kind ≠ kind then fail (.expected kind t) else advance

/-- `match`. -/
def accept (kind : TokenKind) : Parse Bool := do
  let t ← peek
  if t.kind = kind then do
    let _ ← advance
    pure true
  else pure false

def expectText (kind : TokenKind) : Parse String := do
  let t ← expect kind
  pure (Token.text t)

/-- `self.tokens[self.pos - 1].pos`. -/
def lastPos : Parse ℕ := do
  let c ← mark
  pure ((c.last.map Token.pos).getD 0)

/-- `span`. -/
def span (n : Node) (start : Token) : Parse Node := do
  let stop ← lastPos
  pure (n.withSpan (some ⟨start.pos, stop, some start.pos, none⟩))

/-- A span that starts where that of the receiver does, or else at the token. -/
def spanOn (n : Node) (first : ℕ) (receiver : Node) (t : Token) : Parse Node := do
  let stop ← lastPos
  let recorded := receiver.span.map Span.start
  pure (n.withSpan (some ⟨recorded.getD t.pos, stop, some first, some recorded⟩))

/-- One turn of the loop of `_parse_comma_list`. -/
def commaTurn (endKind : TokenKind) (parseItem : Parse α) (items : List α) :
    Parse (List α ⊕ List α) := do
  let item ← parseItem
  let t ← peek
  if t.kind ≠ .comma then pure (.inr (items ++ [item]))
  else do
    let _ ← advance
    let t ← peek
    if t.kind = endKind then pure (.inr (items ++ [item])) else pure (.inl (items ++ [item]))

/-- `_parse_comma_list`. -/
def parseCommaList (fuel : ℕ) (endKind : TokenKind) (parseItem : Parse α) : Parse (List α) := do
  let t ← peek
  if t.kind ≠ endKind then iterate (commaTurn endKind parseItem) fuel [] else pure []

end Helpers

/-- The functions that are called back, and the number of turns that a loop may take. -/
structure Recursive where
  fuel : ℕ
  expression : Parse Node
  statement : Parse Node
  unary : Parse Node
  primary : Parse Node
  type : Parse TypeRef

section Types
variable (self : Recursive)

/-- A name, or two with a dot between them. -/
def parseDottedName : Parse String := do
  let name ← expectText .ident
  let t ← peek
  if t.kind = .dot then do
    let _ ← advance
    let member ← expectText .ident
    pure (name ++ "." ++ member)
  else pure name

/-- `_parse_type_arg_list`. -/
def parseTypeArgList : Parse (List TypeRef) := do
  let _ ← expect .lbracket
  let args ← parseCommaList self.fuel .rbracket self.type
  let _ ← expect .rbracket
  pure args

/-- The length of an array, which a slice has not, behind the opening bracket. -/
def parseLength : Parse (Option ℕ) := do
  let t ← peek
  if t.kind ≠ .rbracket then do
    let t ← expect .integer
    if (Token.integer t).2.isSome then failWith "array length literal cannot have a type suffix"
    else pure (some (Token.integer t).1.toNat)
  else pure none

/-- `_parse_type`. -/
def parseType : Parse TypeRef := do
  let t ← peek
  if t.kind = .question then do
    let _ ← advance
    let _ ← expect .star
    let inner ← self.type
    pure (.pointer inner true)
  else if t.kind = .kwFun then do
    let _ ← advance
    let _ ← expect .lparen
    let params ← parseCommaList self.fuel .rparen self.type
    let _ ← expect .rparen
    let ret ← self.type
    let fallible ← accept .kwErr
    pure (.function params ret fallible)
  else if t.kind = .star then do
    let _ ← advance
    let inner ← self.type
    pure (.pointer inner false)
  else if t.kind = .lbracket then do
    let _ ← advance
    let length ← parseLength
    let _ ← expect .rbracket
    let elem ← self.type
    match length with
    | none => pure (.slice elem)
    | some n => pure (.array n elem)
  else do
    let name ← parseDottedName
    let t ← peek
    if t.kind = .lbracket then do
      let args ← parseTypeArgList self
      pure (.generic (.named name) args)
    else pure (.named name)

/-- `: T`, where it is there. -/
def parseColonType : Parse (Option TypeRef) := do
  let t ← peek
  if t.kind = .colon then do
    let _ ← advance
    let type ← parseType self
    pure (some type)
  else pure none

/-- `KNOWN_CONSTRAINTS`. -/
def knownConstraints : List String := ["any", "types.Eq", "types.Ord", "types.Hash", "types.Zero"]

def parseTypeParam : Parse TypeParam := do
  let name ← expectText .ident
  let t ← peek
  if t.kind = .ident then do
    let constraint ← parseDottedName
    if knownConstraints.contains constraint then pure ⟨name, constraint⟩
    else failWith ("unknown generic constraint " ++ constraint)
  else pure ⟨name, "any"⟩

/-- `_parse_type_params`. -/
def parseTypeParams : Parse (List TypeParam) := do
  let t ← peek
  if t.kind ≠ .lbracket then pure []
  else do
    let _ ← advance
    let params ← parseCommaList self.fuel .rbracket parseTypeParam
    let _ ← expect .rbracket
    pure params

end Types

section Lookahead

/-- The token behind the bracket that closes the first one, or that bracket where it is the last
token. -/
def afterMatching : ℕ → List Token → Option Token
  | _, [] => none
  | depth, t :: ts =>
    if t.kind = .lbracket then afterMatching (depth + 1) ts
    else if t.kind = .rbracket then
      if depth - 1 = 0 then some (ts.head?.getD t) else afterMatching (depth - 1) ts
    else afterMatching depth ts

/-- `_token_after_matching_bracket`, where the next token is an opening bracket. -/
def behindBrackets (ts : List Token) : Option TokenKind :=
  match ts with
  | [] => none
  | t :: _ =>
    if t.kind = .lbracket then some ((afterMatching 0 ts).getD t).kind else none

/-- `_matching_bracket_contains` -/
def matchingContains (target : TokenKind) : ℕ → List Token → Bool
  | _, [] => false
  | depth, t :: ts =>
    if t.kind = .lbracket then matchingContains target (depth + 1) ts
    else if t.kind = .rbracket then
      if depth - 1 = 0 then false else matchingContains target (depth - 1) ts
    else if depth = 1 ∧ t.kind = target then true
    else matchingContains target depth ts

def kindAt (ts : List Token) (i : ℕ) : Option TokenKind := ts[i]?.map Token.kind

/-- `_is_function_declaration_start`, from the token `fun` on. -/
def isFunctionDeclarationStart (ts : List Token) : Bool :=
  kindAt ts 0 == some .kwFun &&
    (kindAt ts 1 == some .ident ||
      (kindAt ts 1 == some .lparen && kindAt ts 2 == some .ident && kindAt ts 3 == some .star &&
        kindAt ts 4 == some .ident))

end Lookahead

section Blocks
variable (self : Recursive)

/-- One turn of the loop of `_parse_block`. -/
def blockTurn (stmts : List Node) : Parse (List Node ⊕ List Node) := do
  let t ← peek
  if t.kind = .rbrace ∨ t.kind = .eof then pure (.inr stmts)
  else do
    let stmt ← self.statement
    pure (.inl (stmts ++ [stmt]))

/-- `_parse_block` -/
def parseBlock : Parse Node := do
  let _ ← expect .lbrace
  let stmts ← iterate (blockTurn self) self.fuel []
  let _ ← expect .rbrace
  pure (node .block stmts)

def parsePattern : Parse (Option Node) := do
  let t ← peek
  if t.kind = .kwElse then do
    let _ ← advance
    pure none
  else do
    let pattern ← self.expression
    pure (some pattern)

/-- One turn of the loop of `_parse_match_arms`. -/
def armTurn (arms : List Arm) : Parse (List Arm ⊕ List Arm) := do
  let t ← peek
  if t.kind = .rbrace then pure (.inr arms)
  else do
    let pattern ← parsePattern self
    let _ ← expect .arrow
    let body ← self.expression
    let _ ← accept .semi
    pure (.inl (arms ++ [(pattern, body)]))

/-- `_parse_match_arms` -/
def parseMatchArms : Parse (List Arm) := do
  let _ ← expect .lbrace
  let arms ← iterate (armTurn self) self.fuel []
  let _ ← expect .rbrace
  pure arms

/-- The type of a parameter, which it may leave out only in front of a default value. -/
def parseParamType : Parse (Option TypeRef) := do
  let t ← peek
  if t.kind = .colon then do
    let _ ← advance
    let type ← parseType self
    pure (some type)
  else if t.kind ≠ .eq then
    failWith "parameter type is required unless a default value is provided"
  else pure none

/-- `_parse_param` -/
def parseParam (allowDefault : Bool) : Parse ParamNode := do
  let name ← expectText .ident
  let type ← parseParamType self
  let t ← peek
  if t.kind = .eq then
    if allowDefault then do
      let _ ← advance
      let default ← self.expression
      pure (⟨name, type, true⟩, some default)
    else failWith "default parameters are not supported here"
  else if type.isNone then
    failWith "parameter type is required unless a default value is provided"
  else pure (⟨name, type, false⟩, none)

def parseParamItem (allowDefault : Bool) : Parse ParamNode := do
  let t ← peek
  if allowDefault = false ∧ (t.kind = .dot ∨ t.kind = .dotdot) then
    failWith "extern v1 does not support varargs"
  else parseParam self allowDefault

/-- `_parse_param_list` -/
def parseParamList (allowDefault : Bool) : Parse (List ParamNode) :=
  parseCommaList self.fuel .rparen (parseParamItem self allowDefault)

/-- `_parse_function_expr` -/
def parseFunctionExpr (start : Token) : Parse Node := do
  let _ ← expect .lparen
  let params ← parseParamList self false
  let _ ← expect .rparen
  let returnType ← parseColonType self
  let fallible ← accept .kwErr
  let body ← parseBlock self
  span (node (.functionExpr (paramsOf params) returnType returnType.isSome fallible)
    (defaultsOf params ++ [body])) start

/-- What is returned, where anything is. -/
def parseReturned : Parse (List Node) := do
  let t ← peek
  if t.kind ≠ .semi ∧ t.kind ≠ .rbrace then do
    let expr ← self.expression
    pure [expr]
  else pure []

/-- `_parse_return` -/
def parseReturn : Parse Node := do
  let start ← advance
  let expr ← parseReturned self
  let stmt ← span (node .ret expr) start
  let _ ← accept .semi
  pure stmt

/-- `_parse_err_return` -/
def parseErrReturn : Parse Node := do
  let start ← advance
  let expr ← self.expression
  let _ ← accept .semi
  span (node .errReturn [expr]) start

/-- `_parse_call_args` -/
def parseCallArgs : Parse (List Node) := parseCommaList self.fuel .rparen self.expression

def parseFieldValue : Parse (String × Node) := do
  let name ← expectText .ident
  let _ ← expect .colon
  let value ← self.expression
  pure (name, value)

/-- `_parse_struct_literal_fields` -/
def parseStructLiteralFields : Parse (List (String × Node)) :=
  parseCommaList self.fuel .rbrace (parseFieldValue self)

def parseEntry : Parse (List Node) := do
  let key ← self.expression
  let _ ← expect .colon
  let value ← self.expression
  pure [key, value]

/-- `_parse_map_literal_entries` -/
def parseMapLiteralEntries : Parse (List Node) :=
  List.flatten <$> parseCommaList self.fuel .rbrace (parseEntry self)

def structLiteral (name : String) (fields : List (String × Node)) (heap : Bool) : Node :=
  node (.structLiteral name (fields.map Prod.fst) heap) (fields.map Prod.snd)

end Blocks

end NewClLang.ParserBasics
