import NewClLang.Lexer

set_option autoImplicit false

/-!
# The lexical structure of a text

How far the literal, the word or the symbol at the beginning of a text goes. No token is built, and
there are no positions.
-/
namespace NewClLang.LexicalReading
open PythonText Lexer
open TypeSyntax (isSpace)

section Readings

/-- The text that is left, or why there is none: the text is not well-formed, or it has a number
that the lexer does not convert. -/
inductive Reading where
  | next (rest : List Char)
  | malformed
  | faulty

def Reading.andThen (r : Reading) (f : List Char → Reading) : Reading :=
  match r with
  | .next rest => f rest
  | .malformed => .malformed
  | .faulty => .faulty

variable (py : Interpreter)

/-- A code point in braces, behind the opening one. `chr` does not take a negative number. -/
def readUnicode (body : List Char) : Reading :=
  match body.dropWhile (· != '\x7d') with
  | [] => .malformed
  | _ :: rest =>
    let digits := body.takeWhile (· != '\x7d')
    if digits = [] then .malformed
    else
      match pythonInt py digits 16 with
      | .error _ => .malformed
      | .ok cp =>
        if 0x10FFFF < cp ∨ (0xD800 ≤ cp ∧ cp ≤ 0xDFFF) then .malformed
        else if cp < 0 then .faulty
        else .next rest

/-- An escape behind its backslash. -/
def readEscape : List Char → Reading
  | [] => .malformed
  | ec :: rest =>
    if ec = 'u' ∧ rest.head? = some '\x7b' then readUnicode py rest.tail else .next rest

/-- An interpolated expression. `blank` says that there has been nothing but white space. -/
def readExpr (depth : ℕ) (quote : Option Char) (blank : Bool) : List Char → Reading
  | [] => .malformed
  | ch :: rest =>
    match quote with
    | some q =>
      if ch = '\\' then
        match rest with
        | [] => .malformed
        | c :: rest => readExpr depth (some q) (blank && isSpace ch && isSpace c) rest
      else readExpr depth (if ch = q then none else some q) (blank && isSpace ch) rest
    | none =>
      if ch = '\'' ∨ ch = '"' then readExpr depth (some ch) (blank && isSpace ch) rest
      else if ch ∈ ['(', '[', '\x7b'] then readExpr (depth + 1) none (blank && isSpace ch) rest
      else if ch = '\x7d' then
        if depth - 1 = 0 then
          if blank = true then .malformed else .next rest
        else readExpr (depth - 1) none (blank && isSpace ch) rest
      else if ch ∈ [')', ']'] then
        if depth - 1 < 1 then .malformed
        else readExpr (depth - 1) none (blank && isSpace ch) rest
      else readExpr depth none (blank && isSpace ch) rest

/-- A string literal behind its opening quote. -/
def readString : ℕ → List Char → Reading
  | 0, _ => .malformed
  | _ + 1, [] => .malformed
  | fuel + 1, ch :: rest =>
    if ch = '"' then .next rest
    else if ch = '\\' then (readEscape py rest).andThen (readString fuel)
    else if ch = '\x7b' then
      if rest.head? = some '\x7b' then readString fuel rest.tail
      else (readExpr 1 none true rest).andThen (readString fuel)
    else if ch = '\x7d' then
      if rest.head? = some '\x7d' then readString fuel rest.tail else .malformed
    else readString fuel rest

def readQuote (text : List Char) : Reading :=
  if text.head? = some '\'' then .next text.tail else .malformed

/-- A character literal behind its opening quote. -/
def readChar : List Char → Reading
  | [] => .malformed
  | ch :: rest =>
    if ch = '\'' then .malformed
    else if ch = '\\' then (readEscape py rest).andThen readQuote
    else readQuote rest

/-- The suffix of a number. -/
def readSuffix (known : List (List Char)) (text : List Char) : Reading :=
  let suffix := text.takeWhile (isWordChar py)
  if knownSuffix known (if suffix = [] then none else some suffix) = true then
    .next (text.dropWhile (isWordChar py))
  else .malformed

def readInteger (digits text : List Char) : Reading :=
  (readSuffix py integerSuffixes text).andThen fun rest =>
    if convertible py digits = true then .next rest else .faulty

/-- A float behind its point. -/
def readFloat : List Char → Reading
  | [] => .malformed
  | ch :: rest =>
    if py.isdigit ch = true then
      readSuffix py floatSuffixes ((ch :: rest).dropWhile py.isdigit)
    else .malformed

def readNumber (text : List Char) : Reading :=
  let rest := text.dropWhile py.isdigit
  if rest.head? = some '.' ∧ rest.tail.head? ≠ some '.' then readFloat py rest.tail
  else readInteger py (text.takeWhile py.isdigit) rest

def startsWithSymbol (table : List (List Char × TokenKind)) (width : ℕ) (text : List Char) : Bool :=
  decide (width ≤ text.length) && (table.lookup (text.take width)).isSome

def readSymbol (text : List Char) : Reading :=
  if startsWithSymbol threes 3 text = true then .next (text.drop 3)
  else if startsWithSymbol twos 2 text = true then .next (text.drop 2)
  else if startsWithSymbol ones 1 text = true then .next (text.drop 1)
  else if text.head? = some '.' then
    .next (if text.tail.head? = some '.' then text.drop 2 else text.drop 1)
  else .malformed

/-- What one turn of the lexer reads. -/
def readLexeme : List Char → Reading
  | [] => .malformed
  | ch :: rest =>
    if ch ∈ [' ', '\t', '\n', '\r'] then .next rest
    else if ch = '#' then .next ((ch :: rest).dropWhile (· != '\n'))
    else if py.isdigit ch = true then readNumber py (ch :: rest)
    else if ch = '"' then readString py (ch :: rest).length rest
    else if ch = '\'' then readChar py rest
    else if py.isalpha ch = true ∨ ch = '_' then .next ((ch :: rest).dropWhile (isWordChar py))
    else readSymbol (ch :: rest)

/-- The text has a number that is not converted before it has anything malformed. -/
inductive Faulty : List Char → Prop where
  | here {text : List Char} (h : readLexeme py text = .faulty) : Faulty text
  | later {text rest : List Char} (h : readLexeme py text = .next rest) (hrest : Faulty rest) :
    Faulty text

end Readings

end NewClLang.LexicalReading
