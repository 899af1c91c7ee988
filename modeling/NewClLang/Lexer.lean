import NewClLang.PythonText

set_option autoImplicit false

/-!
# The lexer

`compiler/lexer.py`. Loops that call themselves back have a fuel, which runs out nowhere.
-/
namespace NewClLang.Lexer
open PythonText
open TypeSyntax (strip)

section Tokens

/-- `TokenKind`; the keywords have `kw` in front of their names. -/
inductive TokenKind where
  | integer | float | string | char | bool | ident
  | kwLet | kwIf | kwElse | kwType | kwFun | kwRet | kwErr | kwTry | kwStruct | kwIface | kwEnum
  | kwMatch | kwFor | kwIn | kwBreak | kwNew | kwDefer | kwNil | kwImport | kwExtern | kwSpawn
  | plus | minus | star | slash | percent | amp | pipe | caret | tilde | shl | shr | eq
  | pluseq | minuseq | stareq | slasheq | percenteq | ampeq | pipeeq | careteq | shleq | shreq
  | plusplus | minusminus | gt | lt | ge | le | eqeq | ne | and | or | not
  | question | questionquestion | notnot
  | lparen | rparen | lbrace | rbrace | semi | comma | colon | coloncolon | dotdot | arrow
  | lbracket | rbracket | dot | eof
deriving DecidableEq, Repr

/-- A part of an interpolated string. -/
inductive Part where
  | literal (text : List Char)
  | expr (text : List Char)
deriving DecidableEq, Repr

inductive StringValue where
  | plain (text : List Char)
  | interpolated (parts : List Part)
deriving DecidableEq, Repr

inductive TokenValue where
  | text (text : List Char)
  | bool (b : Bool)
  | integer (value : ℤ) (suffix : Option (List Char))
  | float (text : List Char) (suffix : Option (List Char))
  | string (value : StringValue)
  | char (code : ℕ)
deriving DecidableEq, Repr

structure Token where
  kind : TokenKind
  value : TokenValue
  pos : ℕ
deriving DecidableEq, Repr

def keywords : List (List Char × TokenKind) :=
  [(['l', 'e', 't'], .kwLet), (['i', 'f'], .kwIf), (['e', 'l', 's', 'e'], .kwElse),
    (['f', 'u', 'n'], .kwFun), (['r', 'e', 't'], .kwRet), (['e', 'r', 'r'], .kwErr),
    (['t', 'r', 'y'], .kwTry), (['s', 't', 'r', 'u', 'c', 't'], .kwStruct),
    (['i', 'f', 'a', 'c', 'e'], .kwIface), (['e', 'n', 'u', 'm'], .kwEnum),
    (['m', 'a', 't', 'c', 'h'], .kwMatch), (['f', 'o', 'r'], .kwFor), (['i', 'n'], .kwIn),
    (['b', 'r', 'e', 'a', 'k'], .kwBreak), (['n', 'e', 'w'], .kwNew),
    (['d', 'e', 'f', 'e', 'r'], .kwDefer), (['n', 'i', 'l'], .kwNil),
    (['i', 'm', 'p', 'o', 'r', 't'], .kwImport), (['e', 'x', 't', 'e', 'r', 'n'], .kwExtern),
    (['s', 'p', 'a', 'w', 'n'], .kwSpawn), (['t', 'y', 'p', 'e'], .kwType),
    (['t', 'r', 'u', 'e'], .bool), (['f', 'a', 'l', 's', 'e'], .bool)]

def integerSuffixes : List (List Char) :=
  [['i', '8'], ['i', '1', '6'], ['i', '3', '2'], ['i', '6', '4'],
    ['u', '8'], ['u', '1', '6'], ['u', '3', '2'], ['u', '6', '4']]

def floatSuffixes : List (List Char) := [['f', '3', '2'], ['f', '6', '4']]

def threes : List (List Char × TokenKind) := [(['<', '<', '='], .shleq), (['>', '>', '='], .shreq)]

def twos : List (List Char × TokenKind) :=
  [(['+', '='], .pluseq), (['-', '='], .minuseq), (['*', '='], .stareq), (['/', '='], .slasheq),
    (['%', '='], .percenteq), (['&', '='], .ampeq), (['|', '='], .pipeeq), (['^', '='], .careteq),
    (['+', '+'], .plusplus), (['-', '-'], .minusminus), (['<', '<'], .shl), (['>', '>'], .shr),
    (['>', '='], .ge), (['<', '='], .le), (['=', '='], .eqeq), (['!', '='], .ne),
    (['!', '!'], .notnot), (['&', '&'], .and), (['|', '|'], .or), ([':', ':'], .coloncolon),
    (['-', '>'], .arrow), (['?', '?'], .questionquestion)]

def ones : List (List Char × TokenKind) :=
  [(['+'], .plus), (['-'], .minus), (['*'], .star), (['/'], .slash), (['%'], .percent),
    (['&'], .amp), (['|'], .pipe), (['^'], .caret), (['~'], .tilde), (['='], .eq), (['>'], .gt),
    (['<'], .lt), (['('], .lparen), ([')'], .rparen), (['\x7b'], .lbrace), (['\x7d'], .rbrace),
    ([';'], .semi), ([','], .comma), ([':'], .colon), (['['], .lbracket), ([']'], .rbracket),
    (['!'], .not), (['?'], .question)]

end Tokens

section Literals
variable (py : Interpreter) (source : List Char)

/-- The escapes that stand for one character whatever follows. -/
def simpleEscape (quote ec : Char) : Option Char :=
  if ec = 'n' then some '\n'
  else if ec = 't' then some '\t'
  else if ec = 'r' then some '\r'
  else if ec = '\\' then some '\\'
  else if ec = quote then some quote
  else if ec = '"' then some '"'
  else if ec = '\'' then some '\''
  else none

/-- `{cp:X}`. -/
def hexUpper (cp : ℤ) : String := String.ofList ((Nat.toDigits 16 cp.toNat).map Char.toUpper)

/-- The escape with a code point, of which the braces have been seen. -/
def decodeUnicode (i : ℕ) : Except Raised (List Char × ℕ) :=
  let j := scanWhile (· != '\x7d') source (i + 3)
  if source.length ≤ j then
    .error (.syntaxError s!"Unterminated unicode escape at position {i}")
  else
    let digits := slice source (i + 3) j
    if digits = [] then .error (.syntaxError s!"Invalid unicode escape at position {i}")
    else
      match pythonInt py digits 16 with
      | .error .valueError => .error (.syntaxError s!"Invalid unicode escape at position {i}")
      | .error e => .error e
      | .ok cp =>
        if 0x10FFFF < cp ∨ (0xD800 ≤ cp ∧ cp ≤ 0xDFFF) then
          let code := hexUpper cp
          .error (.syntaxError s!"Invalid unicode code point U+{code} at position {i}")
        else (chr cp).map fun c => ([c], j + 1)

/-- `_decode_escape`. -/
def decodeEscape (i : ℕ) (quote : Char) : Except Raised (List Char × ℕ) :=
  if source.length ≤ i + 1 then
    .error (.syntaxError s!"Unterminated escape sequence at position {i}")
  else do
    let ec ← charAt source (i + 1)
    match simpleEscape quote ec with
    | some c => .ok ([c], i + 2)
    | none => do
      let braced ← nextIs source (i + 2) '\x7b'
      if ec = 'u' ∧ braced = true then decodeUnicode py source i else .ok ([ec], i + 2)

/-- The loop of `_scan_interpolation_expr`. -/
def interpolationLoop (start : ℕ) : ℕ → ℕ → ℕ → Option Char → Except Raised (List Char × ℕ)
  | 0, _, _, _ => .error .unfinished
  | fuel + 1, i, depth, quote =>
    if source.length ≤ i then
      let before := start - 1
      .error (.syntaxError s!"Unterminated string interpolation at position {before}")
    else do
      let ch ← charAt source i
      match quote with
      | some q =>
        if ch = '\\' then interpolationLoop start fuel (i + 2) depth (some q)
        else interpolationLoop start fuel (i + 1) depth (if ch = q then none else some q)
      | none =>
        if ch = '\'' ∨ ch = '"' then interpolationLoop start fuel (i + 1) depth (some ch)
        else if ch ∈ ['(', '[', '\x7b'] then interpolationLoop start fuel (i + 1) (depth + 1) none
        else if ch = '\x7d' then
          if depth - 1 = 0 then
            let expr := strip (slice source start i)
            let before := start - 1
            if expr = [] then
              .error (.syntaxError s!"Empty string interpolation at position {before}")
            else .ok (expr, i + 1)
          else interpolationLoop start fuel (i + 1) (depth - 1) none
        else if ch ∈ [')', ']'] then
          let before := start - 1
          if depth - 1 < 1 then
            .error (.syntaxError s!"Unbalanced string interpolation at position {before}")
          else interpolationLoop start fuel (i + 1) (depth - 1) none
        else interpolationLoop start fuel (i + 1) depth none

/-- `_scan_interpolation_expr`. -/
def scanInterpolationExpr (i : ℕ) : Except Raised (List Char × ℕ) :=
  interpolationLoop source i (source.length - i + 1) i 1 none

/-- The parts with the literal text before them that is not empty. -/
def flush (parts : List Part) (chars : List Char) : List Part :=
  if chars = [] then parts else parts ++ [.literal chars]

/-- The loop of `_scan_string`. -/
def stringLoop (start : ℕ) :
    ℕ → ℕ → List Char → List Part → Bool → Except Raised (StringValue × ℕ)
  | 0, _, _, _, _ => .error .unfinished
  | fuel + 1, i, chars, parts, interpolated =>
    if source.length ≤ i then
      .error (.syntaxError s!"Unterminated string literal at position {start}")
    else do
      let ch ← charAt source i
      if ch = '"' then
        .ok (if interpolated then .interpolated (flush parts chars) else .plain chars, i + 1)
      else if ch = '\\' then do
        let (value, j) ← decodeEscape py source i '"'
        stringLoop start fuel j (chars ++ value) parts interpolated
      else if ch = '\x7b' then do
        let doubled ← nextIs source (i + 1) '\x7b'
        if doubled = true then stringLoop start fuel (i + 2) (chars ++ ['\x7b']) parts interpolated
        else do
          let (expr, j) ← scanInterpolationExpr source (i + 1)
          stringLoop start fuel j [] (flush parts chars ++ [.expr expr]) true
      else if ch = '\x7d' then do
        let doubled ← nextIs source (i + 1) '\x7d'
        if doubled = true then stringLoop start fuel (i + 2) (chars ++ ['\x7d']) parts interpolated
        else .error (.syntaxError s!"Unescaped '\x7d' in string literal at position {i}")
      else stringLoop start fuel (i + 1) (chars ++ [ch]) parts interpolated

/-- `_scan_string`. -/
def scanString (start : ℕ) : Except Raised (StringValue × ℕ) :=
  stringLoop py source start (source.length - start) (start + 1) [] [] false

/-- What stands between the quotes of a character literal. -/
def charValue (i : ℕ) : Except Raised (List Char × ℕ) := do
  let ch ← charAt source i
  if ch = '\\' then decodeEscape py source i '\'' else .ok ([ch], i + 1)

/-- `_scan_char`. -/
def scanChar (start : ℕ) : Except Raised (ℕ × ℕ) :=
  if source.length ≤ start + 1 then
    .error (.syntaxError s!"Unterminated char literal at {start}")
  else do
    let empty ← nextIs source (start + 1) '\''
    if empty = true then .error (.syntaxError s!"Empty char literal at position {start}")
    else do
      let (value, i) ← charValue py source (start + 1)
      let closed ← nextIs source i '\''
      match closed, value with
      | true, [c] => .ok (c.toNat, i + 1)
      | _, _ => .error (.syntaxError
          s!"Char literal must contain exactly one Unicode code point at position {start}")

end Literals

section Words
variable (py : Interpreter) (source : List Char)

def isWordChar (c : Char) : Bool := py.isalnum c || c == '_'

/-- The suffix of a number, and where it ends. -/
def suffixAt (i : ℕ) : Option (List Char) × ℕ :=
  let stop := scanWhile (isWordChar py) source i
  let suffix := slice source i stop
  (if suffix = [] then none else some suffix, stop)

def knownSuffix (known : List (List Char)) (suffix : Option (List Char)) : Bool :=
  match suffix with
  | none => true
  | some s => known.contains s

/-- A number with a point at `i`. -/
def lexFloat (start i : ℕ) : Except Raised (Token × ℕ) :=
  if source.length ≤ i + 1 then
    .error (.syntaxError s!"Invalid float literal at position {start}")
  else do
    let ch ← charAt source (i + 1)
    if py.isdigit ch = false then
      .error (.syntaxError s!"Invalid float literal at position {start}")
    else
      let suffixStart := scanWhile py.isdigit source (i + 1)
      let suffix := suffixAt py source suffixStart
      if knownSuffix floatSuffixes suffix.1 = true then
        .ok (⟨.float, .float (slice source start suffixStart) suffix.1, start⟩, suffix.2)
      else
        let text := String.ofList (suffix.1.getD [])
        .error (.syntaxError s!"Invalid float literal suffix '{text}' at position {suffixStart}")

def lexInteger (start suffixStart : ℕ) : Except Raised (Token × ℕ) :=
  let suffix := suffixAt py source suffixStart
  if knownSuffix integerSuffixes suffix.1 = true then
    (pythonInt py (slice source start suffixStart) 10).map fun value =>
      (⟨.integer, .integer value suffix.1, start⟩, suffix.2)
  else
    let text := String.ofList (suffix.1.getD [])
    .error (.syntaxError s!"Invalid integer literal suffix '{text}' at position {suffixStart}")

def lexNumber (start : ℕ) : Except Raised (Token × ℕ) := do
  let i := scanWhile py.isdigit source start
  let pointed ← nextIs source i '.'
  let ranged ← nextIs source (i + 1) '.'
  if pointed = true ∧ ranged = false then lexFloat py source start i
  else lexInteger py source start i

def lexWord (start : ℕ) : Token × ℕ :=
  let stop := scanWhile (isWordChar py) source start
  let word := slice source start stop
  let kind := (keywords.lookup word).getD .ident
  let value := if kind = .bool then .bool (word == ['t', 'r', 'u', 'e']) else .text word
  (⟨kind, value, start⟩, stop)

/-- The symbol of the table at `i`, and where it ends. -/
def symbolAt (table : List (List Char × TokenKind)) (width i : ℕ) : Option (Token × ℕ) :=
  if i + width ≤ source.length then
    let symbol := slice source i (i + width)
    (table.lookup symbol).map fun kind => (⟨kind, .text symbol, i⟩, i + width)
  else none

def lexSymbol (i : ℕ) (ch : Char) : Except Raised (Token × ℕ) :=
  match (symbolAt source threes 3 i).or
    ((symbolAt source twos 2 i).or (symbolAt source ones 1 i)) with
  | some lexed => .ok lexed
  | none =>
    if ch = '.' then do
      let range ← nextIs source (i + 1) '.'
      if range = true then .ok (⟨.dotdot, .text ['.', '.'], i⟩, i + 2)
      else .ok (⟨.dot, .text ['.'], i⟩, i + 1)
    else .error (.syntaxError s!"Unexpected character '{ch}' at position {i}")

end Words

section Lex
variable (py : Interpreter) (source : List Char)

/-- One turn of the loop of `lex`: the token that it yields, where it yields one, and the next
position. -/
def lexStep (i : ℕ) : Except Raised (Option Token × ℕ) := do
  let ch ← charAt source i
  if ch ∈ [' ', '\t', '\n', '\r'] then .ok (none, i + 1)
  else if ch = '#' then .ok (none, scanWhile (· != '\n') source i)
  else if py.isdigit ch = true then
    (lexNumber py source i).map fun lexed => (some lexed.1, lexed.2)
  else if ch = '"' then
    (scanString py source i).map fun scanned =>
      (some ⟨.string, .string scanned.1, scanned.2⟩, scanned.2)
  else if ch = '\'' then
    (scanChar py source i).map fun scanned =>
      (some ⟨.char, .char scanned.1, scanned.2⟩, scanned.2)
  else if py.isalpha ch = true ∨ ch = '_' then
    let lexed := lexWord py source i
    .ok (some lexed.1, lexed.2)
  else (lexSymbol source i ch).map fun lexed => (some lexed.1, lexed.2)

/-- The loop of `lex`, with the position at which it ends. -/
def lexLoop : ℕ → ℕ → Except Raised (List Token × ℕ)
  | 0, _ => .error .unfinished
  | fuel + 1, i =>
    if i < source.length then do
      let (token, j) ← lexStep py source i
      let (tokens, stop) ← lexLoop fuel j
      .ok (token.toList ++ tokens, stop)
    else .ok ([], i)

def lex : Except Raised (List Token) := do
  let (tokens, _) ← lexLoop py source (source.length + 1) 0
  .ok (tokens ++ [⟨.eof, .text [], source.length⟩])

end Lex

end NewClLang.Lexer
