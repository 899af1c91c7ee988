import NewClLang.ExpressionParser

set_option autoImplicit false

/-!
# The parser: statements and programs

`parse_statement` and `parse_program` of `compiler/parser.py`. The fuel of `parsers` makes the
functions that are called back out of the functions themselves.
-/
namespace NewClLang.StatementParser
open ExpressionParser Lexer ParsedNodes ParserBasics TokenParsers TypeRefs
open PythonText (Interpreter)

section Statements
variable (py : Interpreter) (importedModules : List String) (self : Recursive)

/-- `_parse_let` -/
def parseLet : Parse Node := do
  let start ← advance
  let name ← expectText .ident
  let annotated ← parseColonType self
  let _ ← expect .eq
  let init ← parseExpression py importedModules self
  let stmt ← span (node (.variableDeclaration name annotated) [init]) start
  let _ ← accept .semi
  pure stmt

/-- `_parse_type_alias` -/
def parseTypeAlias : Parse Node := do
  let start ← advance
  let name ← expectText .ident
  let _ ← expect .eq
  let target ← parseType self
  let stmt ← span (node (.typeAlias name target) []) start
  let _ ← accept .semi
  pure stmt

/-- `_parse_import` -/
def parseImport : Parse Node := do
  let start ← advance
  let name ← expectText .ident
  let t ← peek
  if t.kind = .dot then failWith "import v1 only supports one-level module names"
  else if t.kind = .lbrace then failWith "selective import is not supported in import v1"
  else do
    let stmt ← span (node (.importDecl name) []) start
    let _ ← accept .semi
    pure stmt

/-- The receiver of a method, where there is one. -/
def parseReceiver : Parse (Option (String × TypeRef)) := do
  let t ← peek
  if t.kind = .lparen then do
    let _ ← advance
    let name ← expectText .ident
    let _ ← expect .star
    let type ← parseType self
    let _ ← expect .rparen
    pure (some (name, .pointer type false))
  else pure none

/-- `_parse_function` -/
def parseFunction : Parse Node := do
  let _ ← advance
  let receiver ← parseReceiver self
  let name ← expectText .ident
  let typeParams ← parseTypeParams self
  let _ ← expect .lparen
  let params ← parseParamList self true
  let _ ← expect .rparen
  let returnType ← parseColonType self
  let fallible ← accept .kwErr
  let body ← parseBlock self
  let _ ← accept .semi
  pure (node (.functionDeclaration ⟨name, receiver.map Prod.fst, receiver.map Prod.snd, typeParams,
    paramsOf params, returnType, returnType.isSome, fallible, none⟩) (defaultsOf params ++ [body]))

/-- `= "symbol"`, where it is there. -/
def parseSymbol : Parse (Option StringValue) := do
  let t ← peek
  if t.kind = .eq then do
    let _ ← advance
    let symbol ← expect .string
    pure (some (Token.string symbol))
  else pure none

/-- `_parse_function_signature_only`, in a block of this library. -/
def parseFunctionSignatureOnly (lib : Option StringValue) : Parse Node := do
  let _ ← advance
  let t ← peek
  if t.kind = .lparen then failWith "extern methods are not supported"
  else do
    let name ← expectText .ident
    let typeParams ← parseTypeParams self
    if !typeParams.isEmpty then failWith "generic extern functions are not supported"
    else do
      let _ ← expect .lparen
      let params ← parseParamList self false
      let _ ← expect .rparen
      let returnType ← parseColonType self
      let fallible ← accept .kwErr
      let symbol ← parseSymbol
      let t ← peek
      if t.kind = .lbrace then failWith "extern function bodies are not supported"
      else pure (node (.functionDeclaration ⟨name, none, none, [], paramsOf params, returnType,
        returnType.isSome, fallible, some (lib, symbol)⟩) (defaultsOf params ++ [node .block []]))

/-- One turn of the loop of `_parse_extern_block`. -/
def externTurn (lib : Option StringValue) (funcs : List Node) : Parse (List Node ⊕ List Node) := do
  let t ← peek
  if t.kind = .rbrace then pure (.inr funcs)
  else if t.kind = .eof then failWith "unterminated extern block"
  else if t.kind ≠ .kwFun then failWith "extern block only allows function declarations"
  else do
    let fn ← parseFunctionSignatureOnly self lib
    let _ ← accept .semi
    pure (.inl (funcs ++ [fn]))

def parseLib : Parse (Option StringValue) := do
  let t ← peek
  if t.kind = .string then do
    let lib ← advance
    pure (some (Token.string lib))
  else pure none

/-- `_parse_extern_block` -/
def parseExternBlock : Parse Node := do
  let start ← advance
  let lib ← parseLib
  let _ ← expect .lbrace
  let funcs ← iterate (externTurn self lib) self.fuel []
  let _ ← expect .rbrace
  let _ ← accept .semi
  span (node (.externBlock lib) funcs) start

/-- `_parse_defer` -/
def parseDefer : Parse Node := do
  let start ← advance
  let body ← parseBlock self
  span (node .defer [body]) start

/-- `_parse_spawn` -/
def parseSpawn : Parse Node := do
  let start ← advance
  let t ← peek
  if t.kind ≠ .kwFun then fail (.spawned t.kind)
  else do
    let funcStart ← advance
    let func ← parseFunctionExpr self funcStart
    let _ ← accept .semi
    span (node .spawnStmt [func]) start

/-- `name =` in front of the call of a `try`. -/
def parseSuccessName : Parse (Option String) := do
  let c ← mark
  if kindAt c.rest 0 = some .ident ∧ kindAt c.rest 1 = some .eq then do
    let name ← advance
    let _ ← advance
    pure (some (Token.text name))
  else pure none

/-- `else e { ... }` behind a `try`. -/
def parseFailure : Parse (Option (String × Node)) := do
  let t ← peek
  if t.kind = .kwElse then do
    let _ ← advance
    let name ← expectText .ident
    let block ← parseBlock self
    pure (some (name, block))
  else pure none

/-- `_parse_try` -/
def parseTry : Parse Node := do
  let start ← advance
  let successName ← parseSuccessName
  let call ← parseExpression py importedModules self
  let successBlock ← parseBlock self
  let failure ← parseFailure self
  let _ ← accept .semi
  span (node (.tryStatement successName (failure.map Prod.fst))
    (call :: successBlock :: (failure.map Prod.snd).toList)) start

/-- A loop with a condition, behind `for`. -/
def parseForCondition : Parse Node := do
  let condition ← parseExpression py importedModules self
  let body ← parseBlock self
  let _ ← accept .semi
  pure (node .forCondition [condition, body])

/-- `for i, v in iterable { ... }` from the comma on. -/
def parseForEach (index : String) : Parse Node := do
  let _ ← advance
  let value ← expectText .ident
  let _ ← expect .kwIn
  let iterable ← parseExpression py importedModules self
  let body ← parseBlock self
  pure (node (.forIn index (some value)) [iterable, body])

/-- `for i in start..end { ... }` from `in` on. -/
def parseForRange (index : String) : Parse Node := do
  let _ ← advance
  let start ← parseExpression py importedModules self
  let _ ← expect .dotdot
  let stop ← parseExpression py importedModules self
  let body ← parseBlock self
  pure (node (.forIn index none) [start, stop, body])

/-- `_parse_for` -/
def parseFor : Parse Node := do
  let _ ← advance
  let t ← peek
  if t.kind ≠ .ident then parseForCondition py importedModules self
  else do
    let save ← mark
    let index ← expectText .ident
    let t ← peek
    if t.kind = .comma then parseForEach py importedModules self index
    else if t.kind = .kwIn then parseForRange py importedModules self index
    else do
      let _ ← reset save
      parseForCondition py importedModules self

/-- The name behind the last dot. -/
def lastName (name : String) : String :=
  String.ofList ((name.toList.reverse.takeWhile (· != '.')).reverse)

/-- `_parse_struct_field`. The last component says whether the field is embedded. -/
def parseStructField : Parse (String × TypeRef × Bool) := do
  let nameOrType ← parseType self
  let t ← peek
  if t.kind = .colon then do
    let _ ← advance
    match nameOrType with
    | .named name => do
      let type ← parseType self
      pure (name, type, false)
    | _ => failWith "field name must be an identifier"
  else
    match nameOrType with
    | .named name => pure (lastName name, nameOrType, true)
    | _ => failWith "embedded struct field must be a named type"

/-- `_parse_struct` -/
def parseStruct : Parse Node := do
  let _ ← advance
  let name ← expectText .ident
  let typeParams ← parseTypeParams self
  let _ ← expect .lbrace
  let fields ← parseCommaList self.fuel .rbrace (parseStructField self)
  let _ ← expect .rbrace
  let _ ← accept .semi
  pure (node (.structDecl name (fields.map (fun f => (f.1, f.2.1))) typeParams
    ((fields.filter (fun f => f.2.2)).map Prod.fst)) [])

/-- A method of an interface, from `fun` on. -/
def parseMethodHead : Parse MethodHead := do
  let _ ← advance
  let t ← peek
  if t.kind = .lparen then failWith "iface methods cannot have receivers"
  else do
    let name ← expectText .ident
    let _ ← expect .lparen
    let params ← parseParamList self false
    let _ ← expect .rparen
    let ret ← parseColonType self
    let fallible ← accept .kwErr
    let t ← peek
    if t.kind = .lbrace then failWith "iface method declarations cannot have bodies"
    else do
      let _ ← accept .semi
      pure ⟨name, paramsOf params, ret, fallible⟩

/-- One turn of the loop of `_parse_iface`. -/
def ifaceTurn (members : List MethodHead × List TypeRef) :
    Parse ((List MethodHead × List TypeRef) ⊕ (List MethodHead × List TypeRef)) := do
  let t ← peek
  if t.kind = .rbrace then pure (.inr members)
  else if t.kind = .eof then failWith "unterminated iface declaration"
  else if t.kind = .kwFun then do
    let method ← parseMethodHead self
    pure (.inl (members.1 ++ [method], members.2))
  else do
    let embed ← parseType self
    let _ ← accept .semi
    pure (.inl (members.1, members.2 ++ [embed]))

/-- `_parse_iface` -/
def parseIface : Parse Node := do
  let _ ← advance
  let name ← expectText .ident
  let _ ← expect .lbrace
  let members ← iterate (ifaceTurn self) self.fuel ([], [])
  let _ ← expect .rbrace
  let _ ← accept .semi
  pure (node (.ifaceDecl name members.1 members.2) [])

/-- `_parse_enum` -/
def parseEnum : Parse Node := do
  let _ ← advance
  let name ← expectText .ident
  let _ ← expect .lbrace
  let variants ← parseCommaList self.fuel .rbrace (expectText .ident)
  let _ ← expect .rbrace
  let _ ← accept .semi
  pure (node (.enumDecl name variants) [])

def assignOps : List TokenKind :=
  [.eq, .pluseq, .minuseq, .stareq, .slasheq, .percenteq, .ampeq, .pipeeq, .careteq, .shleq, .shreq]

/-- What stands behind the expression that a statement begins with. -/
def parseAssigned (expr : Node) : Parse Node := do
  let t ← peek
  if t.kind ∈ assignOps then do
    let op ← advance
    let rhs ← parseExpression py importedModules self
    pure (node (.assignment (Token.text op)) [expr, rhs])
  else if t.kind ∈ [TokenKind.plusplus, .minusminus] then do
    let op ← advance
    pure (node (.update (Token.text op)) [expr])
  else pure (node .expressionStatement [expr])

/-- `_parse_ident_stmt` -/
def parseIdentStmt : Parse Node := do
  let expr ← parseExpression py importedModules self
  let stmt ← parseAssigned py importedModules self expr
  let _ ← accept .semi
  pure stmt

def parseExpressionStatement : Parse Node := do
  let expr ← parseExpression py importedModules self
  let _ ← accept .semi
  pure (node .expressionStatement [expr])

def parseBreak : Parse Node := do
  let start ← advance
  let _ ← accept .semi
  span (node .breakStmt []) start

/-- `parse_statement` -/
def parseStatement : Parse Node := do
  let t ← peek
  match t.kind with
  | .kwImport => failWith "import is only allowed at top level"
  | .kwExtern => failWith "extern is only allowed at top level"
  | .kwLet => parseLet py importedModules self
  | .kwFun => do
    let c ← mark
    if isFunctionDeclarationStart c.rest then parseFunction self
    else parseExpressionStatement py importedModules self
  | .kwRet => parseReturn self
  | .kwStruct => parseStruct self
  | .kwEnum => parseEnum self
  | .kwIface => failWith "iface is only allowed at top level"
  | .kwFor => parseFor py importedModules self
  | .kwErr => parseErrReturn self
  | .kwTry => parseTry py importedModules self
  | .kwDefer => parseDefer self
  | .kwSpawn => parseSpawn self
  | .kwType => failWith "type alias is only allowed at top level"
  | .kwBreak => parseBreak
  | .ident => parseIdentStmt py importedModules self
  | _ => parseExpressionStatement py importedModules self

end Statements

section Programs
variable (py : Interpreter) (importedModules : List String)

/-- The functions with this many levels of calls back. -/
def parsers : ℕ → Recursive
  | 0 => ⟨0, fun _ => .error .unfinished, fun _ => .error .unfinished, fun _ => .error .unfinished,
      fun _ => .error .unfinished, fun _ => .error .unfinished⟩
  | k + 1 =>
    let self := parsers k
    ⟨k + 1, parseExpression py importedModules self, parseStatement py importedModules self,
      parseUnary py importedModules self, parsePrimary py self, parseType self⟩

/-- One turn of the loop of `parse_program`. -/
def programTurn (self : Recursive) (stmts : List Node) : Parse (List Node ⊕ List Node) := do
  let t ← peek
  match t.kind with
  | .eof => pure (.inr stmts)
  | .kwImport => do
    let stmt ← parseImport
    pure (.inl (stmts ++ [stmt]))
  | .kwType => do
    let stmt ← parseTypeAlias self
    pure (.inl (stmts ++ [stmt]))
  | .kwExtern => do
    let stmt ← parseExternBlock self
    pure (.inl (stmts ++ [stmt]))
  | .kwIface => do
    let stmt ← parseIface self
    pure (.inl (stmts ++ [stmt]))
  | _ => do
    let stmt ← self.statement
    pure (.inl (stmts ++ [stmt]))

/-- `parse_program` -/
def parseProgram (self : Recursive) : Parse Node := do
  let stmts ← iterate (programTurn self) self.fuel []
  pure (node .program stmts)

/-- `_scan_imports`: the names behind `import` among the tokens. -/
def scanImports : List Token → List String
  | t :: u :: rest =>
    if t.kind = .kwImport ∧ u.kind = .ident then Token.text u :: scanImports (u :: rest)
    else scanImports (u :: rest)
  | _ => []

/-- The length of an interpolated text with its braces. -/
def partLength : Part → ℕ
  | .literal _ => 0
  | .expr text => text.length + 2

/-- The length of the texts that a string leaves to other parsers. -/
def valueLength : StringValue → ℕ
  | .interpolated parts => (parts.map partLength).sum
  | .plain _ => 0

def innerLength (t : Token) : ℕ := valueLength (Token.string t)

/-- More fuel than the parser needs. -/
def fuelFor (tokens : List Token) : ℕ := (tokens.map fun t => innerLength t + 1).sum + 1

/-- `parse` -/
def parse (tokens : List Token) (importedModules : List String) : Except (Failure Raised) Node :=
  let imported := if importedModules.isEmpty then scanImports tokens else importedModules
  (parseProgram (parsers py imported (fuelFor tokens)) ⟨none, tokens⟩).map Prod.fst

end Programs

end NewClLang.StatementParser
