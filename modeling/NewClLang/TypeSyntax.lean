import Mathlib.Data.List.DropRight
import NewClLang.NestedTexts
import NewClLang.PrintedTypes

set_option autoImplicit false

/-!
# Types as tokens and as text

`Parser._parse_type`, which reads a type from the tokens of a program, and `parse_type_ref`, which
reads back what `format_type_ref` has printed. A fuel bounds the nesting of the calls; where it runs
out, as where the source raises an error, there is no result.
-/
namespace NewClLang.TypeSyntax
open NestedTexts TypeRefs ModuleSyntax PrintedTypes

section Characters

/-- The characters `str.strip` takes away. -/
def isSpace (c : Char) : Bool :=
  c = ' ' || (9 ≤ c.toNat && c.toNat ≤ 13) || (28 ≤ c.toNat && c.toNat ≤ 31) ||
    [133, 160, 5760, 8232, 8233, 8239, 8287, 12288].contains c.toNat ||
    (8192 ≤ c.toNat && c.toNat ≤ 8202)

/-- No letter, digit or underscore is a mark of a printed type, or white space. -/
def isWordChar (c : Char) : Bool := isNameChar c && !isSpace c

/-- The value of an `IDENT` token. -/
structure Identifier where
  text : String
  nonempty : text.toList ≠ []
  chars : text.toList.all isWordChar = true
deriving DecidableEq

end Characters

section Tokens

/-- The tokens `_parse_type` tells apart. -/
inductive Token where
  | ident (name : Identifier)
  | integer (value : ℕ) (suffix : Option String)
  | question
  | star
  | fn
  | err
  | lparen
  | rparen
  | lbracket
  | rbracket
  | comma
  | dot
  | other
deriving DecidableEq

/-- A parser of types, from the tokens that are left to those it leaves. -/
abbrev TypeParser := List Token → Option (TypeRef × List Token)

/-- The loop of `_parse_comma_list`. -/
def commaLoop (endKind : Token) (parseItem : TypeParser) :
    ℕ → List Token → Option (List TypeRef × List Token)
  | 0, _ => none
  | turns + 1, tokens => do
    let (item, rest) ← parseItem tokens
    match rest with
    | .comma :: rest =>
      if rest.head? = some endKind then some ([item], rest)
      else do
        let (items, rest) ← commaLoop endKind parseItem turns rest
        some (item :: items, rest)
    | rest => some ([item], rest)

/-- `_parse_comma_list`. -/
def parseCommaList (endKind : Token) (parseItem : TypeParser) (turns : ℕ) (tokens : List Token) :
    Option (List TypeRef × List Token) :=
  if tokens.head? = some endKind then some ([], tokens)
  else commaLoop endKind parseItem turns tokens

/-- `_parse_type_arg_list` behind its bracket, where there is one. -/
def parseApplication (parseType : TypeParser) (turns : ℕ) (name : String) : TypeParser
  | .lbracket :: rest => do
    let (args, rest) ← parseCommaList .rbracket parseType turns rest
    match rest with
    | .rbracket :: rest => some (.generic (.named name) args, rest)
    | _ => none
  | rest => some (.named name, rest)

/-- `match(TokenKind.ERR)` behind a result type. -/
def matchErr (params : List TypeRef) (ret : TypeRef) : TypeParser
  | .err :: rest => some (.function params ret true, rest)
  | rest => some (.function params ret false, rest)

/-- A function type behind `fun(`. -/
def parseFunction (parseType : TypeParser) (turns : ℕ) (tokens : List Token) :
    Option (TypeRef × List Token) := do
  let (params, rest) ← parseCommaList .rparen parseType turns tokens
  match rest with
  | .rparen :: rest => do
    let (ret, rest) ← parseType rest
    matchErr params ret rest
  | _ => none

/-- `_parse_type`, with the parser for the types inside. -/
def parseTypeStep (parseType : TypeParser) (turns : ℕ) : TypeParser
  | .question :: .star :: rest => do
    let (inner, rest) ← parseType rest
    some (.pointer inner true, rest)
  | .fn :: .lparen :: rest => parseFunction parseType turns rest
  | .star :: rest => do
    let (inner, rest) ← parseType rest
    some (.pointer inner false, rest)
  | .lbracket :: .rbracket :: rest => do
    let (elem, rest) ← parseType rest
    some (.slice elem, rest)
  | .lbracket :: .integer length none :: .rbracket :: rest => do
    let (elem, rest) ← parseType rest
    some (.array length elem, rest)
  | .ident module :: .dot :: .ident name :: rest =>
    parseApplication parseType turns (module.text ++ "." ++ name.text) rest
  | .ident _ :: .dot :: _ => none
  | .ident name :: rest => parseApplication parseType turns name.text rest
  | _ => none

def parseType : ℕ → TypeParser
  | 0 => fun _ => none
  | fuel + 1 => parseTypeStep (parseType fuel) fuel

/-- `_parse_type` builds the type from some tokens. -/
def Built (r : TypeRef) : Prop := ∃ fuel tokens rest, parseType fuel tokens = some (r, rest)

end Tokens

section Texts

/-- `str.strip`. -/
def strip (t : List Char) : List Char := (t.dropWhile isSpace).rdropWhile isSpace

/-- The character goes to the front of the first part. -/
def grow (c : Char) : List (List Char) → List (List Char)
  | [] => [[c]]
  | part :: parts => (c :: part) :: parts

/-- The loop of `split_top_level`; `square` and `paren` count the brackets that are open. -/
def splitLoop (sep : Char) (square paren : ℤ) : List Char → List (List Char)
  | [] => [[]]
  | c :: rest =>
    if c = '[' then grow c (splitLoop sep (square + 1) paren rest)
    else if c = ']' then grow c (splitLoop sep (square - 1) paren rest)
    else if c = '(' then grow c (splitLoop sep square (paren + 1) rest)
    else if c = ')' then grow c (splitLoop sep square (paren - 1) rest)
    else if c = sep ∧ square = 0 ∧ paren = 0 then [] :: splitLoop sep square paren rest
    else grow c (splitLoop sep square paren rest)

/-- `split_top_level`. -/
def splitTopLevel (t : List Char) : List (List Char) :=
  ((splitLoop ',' 0 0 t).map strip).filter (· ≠ [])

/-- `_find_matching`, on the text behind the bracket it starts at: the text up to the matching one,
    and the text behind that. -/
def findMatching (openCh closeCh : Char) (t : List Char) : Option (List Char × List Char) :=
  closing openCh closeCh 0 t

/-- `int`, of decimal digits. A sign or a `_`, which no length is printed with, is left out. -/
def toInt (t : List Char) : Option ℕ :=
  if strip t ≠ [] ∧ (strip t).all Char.isDigit = true then some (Nat.ofDigitChars 10 (strip t) 0)
  else none

/-- A reader of printed types. -/
abbrev TextParser := List Char → Option TypeRef

/-- The result type and the ` err` behind it. -/
def readResult (parse : TextParser) (params : List TypeRef) (text : List Char) : Option TypeRef :=
  let ret := strip text
  if [' ', 'e', 'r', 'r'] <:+ ret then do
    let ret ← parse (strip (ret.rdrop 4))
    some (.function params ret true)
  else do
    let ret ← parse ret
    some (.function params ret false)

def readParams (parse : TextParser) (args : List Char) : Option (List TypeRef) :=
  if args ≠ [] then (splitTopLevel args).mapM parse else some []

/-- A function type behind `fn(`. -/
def readFunction (parse : TextParser) (t : List Char) : Option TypeRef :=
  match findMatching '(' ')' t with
  | none => none
  | some (args, rest) =>
    if ['-', '>'] <+: rest then do
      let params ← readParams parse args
      readResult parse params (rest.drop 2)
    else none

/-- A generic type or a name. -/
def readName (parse : TextParser) (t : List Char) : Option TypeRef :=
  if '[' ∈ t ∧ t.getLast? = some ']' then
    match findMatching '[' ']' ((t.dropWhile (· ≠ '[')).drop 1) with
    | none => none
    | some (args, rest) =>
      if rest = [] then do
        let base ← parse (t.takeWhile (· ≠ '['))
        let args ← (splitTopLevel args).mapM parse
        some (.generic base args)
      else some (.named (String.ofList t))
  else some (.named (String.ofList t))

/-- `parse_type_ref` of a string, with the reader for the types inside. -/
def parseTypeRefStep (parse : TextParser) (text : List Char) : Option TypeRef :=
  let t := strip text
  if ['?', '*'] <+: t then (parse (t.drop 2)).map (TypeRef.pointer · true)
  else if ['*'] <+: t then (parse (t.drop 1)).map (TypeRef.pointer · false)
  else if ['[', ']'] <+: t then (parse (t.drop 2)).map TypeRef.slice
  else if ['['] <+: t then
    if ']' ∈ t then do
      let length ← toInt ((t.drop 1).takeWhile (· ≠ ']'))
      let elem ← parse ((t.dropWhile (· ≠ ']')).drop 1)
      some (.array length elem)
    else none
  else if ['f', 'n', '('] <+: t then readFunction parse (t.drop 3)
  else readName parse t

def parseWithin : ℕ → TextParser
  | 0 => fun _ => none
  | fuel + 1 => parseTypeRefStep (parseWithin fuel)

/-- `parse_type_ref` of a string. Each call inside is for a shorter text. -/
def parseTypeRef (text : String) : Option TypeRef :=
  parseWithin (text.toList.length + 1) text.toList

/-- `type_key` of a reference, which `parse_type_ref` leaves as it is. `TypeRefBase.__eq__` compares
    the keys. -/
def typeKey (r : TypeRef) : String := formatTypeRef r

end Texts

end NewClLang.TypeSyntax
