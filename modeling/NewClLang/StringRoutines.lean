import NewClLang.ExceptOutcomes
import NewClLang.JsonModule

set_option autoImplicit false

/-!
# The string routines and what they read

`stdlib/strings/strings.nc`, `parse_i32` and `_validate_float` of `stdlib/strconv/strconv.nc`, and the
scanner of `stdlib/json/json.nc`, as they are compiled: `&&` and `||` evaluate both operands, the
arithmetic is that of `i32`, and an index goes to the memory of its string as it is.
-/
namespace NewClLang.StringRoutines
open WrappedIntegers
open JsonModule (Bytes Stop hexValue isDigit isDigit1_9 isSpace failed nullLit trueLit falseLit)

section Strings

/-- A `str`: the zero value, with a null pointer, or a buffer, with a NUL behind its bytes. -/
inductive Str where
  | null
  | buffer (bytes : Bytes)

def Str.bytes : Str → Bytes
  | .null => []
  | .buffer bytes => bytes

/-- What may be read. -/
def Str.memory : Str → Bytes
  | .null => []
  | .buffer bytes => bytes ++ [0]

def Str.length (s : Str) : ℕ := s.bytes.length

/-- `len(s)`. -/
def Str.len (s : Str) : ℤ := wrap32 s.length

/-- `s[i]`. -/
def byteAt (s : Str) (i : ℤ) : Except Stop UInt8 :=
  if 0 ≤ i then
    match s.memory[i.toNat]? with
    | some b => .ok b
    | none => .error .outOfBounds
  else
    .error .outOfBounds

/-- `s[a:b]`: `__nc_str_slice_copy`, with the bounds as unsigned numbers. -/
def strSlice (s : Str) (a b : ℤ) : Except Stop Bytes :=
  let start := (a % 4294967296).toNat
  let n := ((b % 4294967296 - a % 4294967296) % 18446744073709551616).toNat
  if n = 0 ∨ start + n ≤ s.memory.length then
    .ok ((s.memory.drop start).take n)
  else
    .error .outOfBounds

end Strings

section StringsModule
variable (s needle : Str)

/-- The loop over `0..sub_len` that compares every byte of `needle` with those from `i` on. -/
def matchLoop (i : ℤ) : ℕ → ℤ → Bool → Except Stop Bool
  | 0, _, matched => .ok matched
  | turns + 1, j, matched => do
    let a ← byteAt s (wrap32 (i + j))
    let b ← byteAt needle j
    matchLoop i turns (j + 1) (matched && a == b)

def matchesAt (i : ℤ) : Except Stop Bool := matchLoop s needle i needle.len.toNat 0 true

def indexLoop : ℕ → ℤ → Except Stop ℤ
  | 0, _ => .ok (-1)
  | turns + 1, i => do
    let matched ← matchesAt s needle i
    if matched then .ok i else indexLoop turns (i + 1)

def index : Except Stop ℤ :=
  if needle.len = 0 then .ok 0
  else if needle.len > s.len then .ok (-1)
  else indexLoop s needle (wrap32 (wrap32 (s.len - needle.len) + 1)).toNat 0

def contains : Except Stop Bool := do
  let i ← index s needle
  .ok (decide (i ≥ 0))

/-- The loop of `starts_with` and `ends_with`, which ends at the first difference. -/
def equalLoop (start : ℤ) : ℕ → ℤ → Except Stop Bool
  | 0, _ => .ok true
  | turns + 1, i => do
    let a ← byteAt s (wrap32 (start + i))
    let b ← byteAt needle i
    if a ≠ b then .ok false else equalLoop start turns (i + 1)

def startsWith : Except Stop Bool :=
  if needle.len > s.len then .ok false else equalLoop s needle 0 needle.len.toNat 0

def endsWith : Except Stop Bool :=
  if needle.len > s.len then .ok false
  else equalLoop s needle (wrap32 (s.len - needle.len)) needle.len.toNat 0

def lastIndexLoop : ℕ → ℤ → Except Stop ℤ
  | 0, _ => .error .unfinished
  | fuel + 1, i =>
    if i ≥ 0 then do
      let matched ← matchesAt s needle i
      if matched then .ok i else lastIndexLoop fuel (wrap32 (i - 1))
    else
      .ok (-1)

def lastIndex (fuel : ℕ) : Except Stop ℤ :=
  if needle.len = 0 then .ok s.len
  else if needle.len > s.len then .ok (-1)
  else lastIndexLoop s needle fuel (wrap32 (s.len - needle.len))

def countLoop : ℕ → ℤ → ℤ → Except Stop ℤ
  | 0, _, _ => .error .unfinished
  | fuel + 1, n, i =>
    if i ≤ wrap32 (s.len - needle.len) then do
      let matched ← matchesAt s needle i
      if matched then countLoop fuel (wrap32 (n + 1)) (wrap32 (i + needle.len))
      else countLoop fuel n (wrap32 (i + 1))
    else
      .ok n

def count (fuel : ℕ) : Except Stop ℤ :=
  if needle.len = 0 then .ok (wrap32 (s.len + 1)) else countLoop s needle fuel 0 0

/-- `repeat`. A concatenation reads both its operands in full. -/
def repeatStr (n : ℤ) : Except Stop Bytes :=
  if n < 0 then .error (.err "strings.repeat negative count")
  else .ok (List.replicate n.toNat s.bytes).flatten

/-- `matched` in `replace_all`. -/
def replaceAt (old : Str) (i : ℤ) : Except Stop Bool :=
  if wrap32 (i + old.len) ≤ s.len then matchesAt s old i else .ok false

def replaceLoop (old repl : Str) : ℕ → Bytes → ℤ → Except Stop Bytes
  | 0, _, _ => .error .unfinished
  | fuel + 1, out, i =>
    if i < s.len then do
      let matched ← replaceAt s old i
      if matched then
        replaceLoop old repl fuel (out ++ repl.bytes) (wrap32 (i + old.len))
      else do
        let piece ← strSlice s i (wrap32 (i + 1))
        replaceLoop old repl fuel (out ++ piece) (wrap32 (i + 1))
    else
      .ok out

def replaceAll (old repl : Str) (fuel : ℕ) : Except Stop Bytes :=
  if old.len = 0 then .error (.err "strings.replace_all empty old")
  else replaceLoop s old repl fuel [] 0

def trimPrefix : Except Stop Bytes := do
  let starts ← startsWith s needle
  if starts then strSlice s needle.len s.len else .ok s.bytes

def trimSuffix : Except Stop Bytes := do
  let ends ← endsWith s needle
  if ends then strSlice s 0 (wrap32 (s.len - needle.len)) else .ok s.bytes

def isSpaceByte (b : UInt8) : Bool := b == 32 || b == 9 || b == 10 || b == 13

/-- `start < end && is_space_byte(s[start])`: the byte is read in any case. -/
def trimStart (stop : ℤ) : ℕ → ℤ → Except Stop ℤ
  | 0, _ => .error .unfinished
  | fuel + 1, start => do
    let b ← byteAt s start
    if start < stop ∧ isSpaceByte b = true then trimStart stop fuel (wrap32 (start + 1))
    else .ok start

/-- `end > start && is_space_byte(s[end - 1])`. -/
def trimEnd (start : ℤ) : ℕ → ℤ → Except Stop ℤ
  | 0, _ => .error .unfinished
  | fuel + 1, stop => do
    let b ← byteAt s (wrap32 (stop - 1))
    if stop > start ∧ isSpaceByte b = true then trimEnd start fuel (wrap32 (stop - 1))
    else .ok stop

def trimSpace (fuel : ℕ) : Except Stop Bytes := do
  let start ← trimStart s s.len fuel 0
  let stop ← trimEnd s start fuel s.len
  strSlice s start stop

end StringsModule

section StrconvModule
variable (s : Str)

def isDigitByte (b : UInt8) : Bool := b ≥ 48 && b ≤ 57

def parseLoop (limit : ℤ) : ℕ → ℤ → ℤ → Except Stop ℤ
  | 0, _, _ => .error .unfinished
  | fuel + 1, value, i =>
    if i < s.len then do
      let b ← byteAt s i
      let d : ℤ := b.toNat - 48
      if ¬ isDigitByte b = true then .error (.err "strconv.parse_i32 failed")
      else if value > (limit - d) / 10 then .error (.err "strconv.parse_i32 failed")
      else parseLoop limit fuel (value * 10 + d) (wrap32 (i + 1))
    else
      .ok value

/-- The sign: whether it is a minus, and where the digits begin. -/
def signAt : Except Stop (Bool × ℤ) := do
  let b ← byteAt s 0
  if b = 45 then
    .ok (true, 1)
  else do
    let b ← byteAt s 0
    .ok (false, if b = 43 then 1 else 0)

def parseI32 (fuel : ℕ) : Except Stop ℤ :=
  if s.len = 0 then
    .error (.err "strconv.parse_i32 failed")
  else do
    let (neg, i) ← signAt s
    if i = s.len then
      .error (.err "strconv.parse_i32 failed")
    else do
      let value ← parseLoop s (if neg then 2147483648 else 2147483647) fuel 0 i
      .ok (if neg then wrap32 (0 - value) else wrap32 value)

/-- `i < len(s) && test(s[i])`: the byte is read in any case. -/
def testAt (test : UInt8 → Bool) (i : ℤ) : Except Stop Bool := do
  let b ← byteAt s i
  .ok (decide (i < s.len) && test b)

/-- A loop over the bytes that pass a test: where it ends, and how many there were. -/
def skipLoop (test : UInt8 → Bool) : ℕ → ℤ → ℤ → Except Stop (ℤ × ℤ)
  | 0, _, _ => .error .unfinished
  | fuel + 1, n, i => do
    let passes ← testAt s test i
    if passes then skipLoop test fuel (wrap32 (n + 1)) (wrap32 (i + 1)) else .ok (n, i)

def validateFraction (fuel : ℕ) (digits i : ℤ) : Except Stop (ℤ × ℤ) := do
  let point ← testAt s (· == 46) i
  if point then skipLoop s isDigitByte fuel digits (wrap32 (i + 1)) else .ok (digits, i)

def exponentDigits (errMsg : String) (fuel : ℕ) (i : ℤ) : Except Stop ℤ := do
  let (digits, i) ← skipLoop s isDigitByte fuel 0 i
  if digits = 0 then .error (.err errMsg) else .ok i

def validateExponent (errMsg : String) (fuel : ℕ) (i : ℤ) : Except Stop ℤ := do
  let exponent ← testAt s (fun b => b == 101 || b == 69) i
  if exponent then do
    let signed ← testAt s (fun b => b == 45 || b == 43) (wrap32 (i + 1))
    exponentDigits s errMsg fuel (if signed then wrap32 (wrap32 (i + 1) + 1) else wrap32 (i + 1))
  else
    .ok i

/-- `_validate_float`. -/
def validateFloat (errMsg : String) (fuel : ℕ) : Except Stop Unit :=
  if s.len = 0 then
    .error (.err errMsg)
  else do
    let (_, i) ← signAt s
    if i = s.len then
      .error (.err errMsg)
    else do
      let (digits, i) ← skipLoop s isDigitByte fuel 0 i
      let (digits, i) ← validateFraction s fuel digits i
      if digits = 0 then
        .error (.err errMsg)
      else do
        let i ← validateExponent s errMsg fuel i
        if i ≠ s.len then .error (.err errMsg) else .ok ()

end StrconvModule

section JsonScanner
variable (s : Str)

/-! The functions of the parser by what they do to the cursor; the values that they build are left
out. -/

def skipWs : ℕ → ℤ → Except Stop ℤ
  | 0, _ => .error .unfinished
  | fuel + 1, i =>
    if i < s.len then do
      let b ← byteAt s i
      if isSpace b then skipWs fuel (wrap32 (i + 1)) else .ok i
    else
      .ok i

def consume (b : UInt8) (i : ℤ) : Except Stop (Bool × ℤ) := do
  let here ← testAt s (· == b) i
  .ok (here, if here then wrap32 (i + 1) else i)

/-- The loop of `_expect_lit`; `p.i + k >= len(p.s) || p.s[p.i + k] != lit[k]` reads the byte in any
    case. -/
def expectLit (i : ℤ) : Bytes → ℤ → Except Stop ℤ
  | [], k => .ok (wrap32 (i + k))
  | c :: lit, k => do
    let b ← byteAt s (wrap32 (i + k))
    if wrap32 (i + k) ≥ s.len ∨ b ≠ c then failed else expectLit i lit (k + 1)

def hexLoop : ℕ → ℤ → Except Stop ℤ
  | 0, i => .ok i
  | turns + 1, i => do
    let b ← byteAt s i
    let _ ← hexValue b
    hexLoop turns (wrap32 (i + 1))

def parseHex4 (i : ℤ) : Except Stop ℤ :=
  if wrap32 (i + 4) > s.len then failed else hexLoop s 4 i

def isEscape (e : UInt8) : Bool :=
  e == 34 || e == 92 || e == 47 || e == 98 || e == 102 || e == 110 || e == 114 || e == 116

/-- From the backslash on. -/
def parseEscape (i : ℤ) : Except Stop ℤ :=
  if i ≥ s.len then
    failed
  else do
    let e ← byteAt s i
    if isEscape e = true then .ok (wrap32 (i + 1))
    else if e = 117 then parseHex4 s (wrap32 (i + 1))
    else failed

def stringLoop : ℕ → ℤ → Except Stop ℤ
  | 0, _ => .error .unfinished
  | fuel + 1, i =>
    if i < s.len then do
      let b ← byteAt s i
      if b = 34 then
        .ok (wrap32 (i + 1))
      else if b = 92 then do
        let i ← parseEscape s (wrap32 (i + 1))
        stringLoop fuel i
      else if b < 32 then
        failed
      else do
        let _ ← strSlice s i (wrap32 (i + 1))
        stringLoop fuel (wrap32 (i + 1))
    else
      failed

def parseString (fuel : ℕ) (i : ℤ) : Except Stop ℤ := do
  let (quoted, i) ← consume s 34 i
  if quoted then stringLoop s fuel i else failed

/-- A digit that has to stand here, and those that follow. -/
def numberDigits (first : UInt8 → Bool) (fuel : ℕ) (i : ℤ) : Except Stop ℤ := do
  let digit ← testAt s first i
  if digit then do
    let (_, i) ← skipLoop s isDigit fuel 0 i
    .ok i
  else
    failed

def numberInt (fuel : ℕ) (i : ℤ) : Except Stop ℤ := do
  let (zero, i) ← consume s 48 i
  if zero then do
    let digit ← testAt s isDigit i
    if digit then failed else .ok i
  else
    numberDigits s isDigit1_9 fuel i

def numberFrac (fuel : ℕ) (i : ℤ) : Except Stop ℤ := do
  let (point, i) ← consume s 46 i
  if point then numberDigits s isDigit fuel i else .ok i

def numberExp (fuel : ℕ) (i : ℤ) : Except Stop ℤ := do
  let exponent ← testAt s (fun b => b == 101 || b == 69) i
  if exponent then do
    let signed ← testAt s (fun b => b == 45 || b == 43) (wrap32 (i + 1))
    numberDigits s isDigit fuel (if signed then wrap32 (wrap32 (i + 1) + 1) else wrap32 (i + 1))
  else
    .ok i

def parseNumber (fuel : ℕ) (start : ℤ) : Except Stop ℤ := do
  let (minus, i) ← consume s 45 start
  if minus = true ∧ i ≥ s.len then
    failed
  else do
    let i ← numberInt s fuel i
    let i ← numberFrac s fuel i
    let i ← numberExp s fuel i
    let text ← strSlice s start i
    validateFloat (.buffer text) "strconv.parse_f64 failed" fuel
    .ok i

def elementsLoop (value : ℤ → Except Stop ℤ) (ws : ℕ) : ℕ → ℤ → Except Stop ℤ
  | 0, _ => .error .unfinished
  | fuel + 1, i => do
    let i ← value i
    let i ← skipWs s ws i
    let (closed, i) ← consume s 93 i
    if closed then
      .ok i
    else do
      let (comma, i) ← consume s 44 i
      if comma then elementsLoop value ws fuel i else failed

def parseArray (value : ℤ → Except Stop ℤ) (fuel : ℕ) (i : ℤ) : Except Stop ℤ := do
  let i ← skipWs s fuel (wrap32 (i + 1))
  let (closed, i) ← consume s 93 i
  if closed then .ok i else elementsLoop s value fuel fuel i

def membersLoop (value : ℤ → Except Stop ℤ) (ws : ℕ) : ℕ → ℤ → Except Stop ℤ
  | 0, _ => .error .unfinished
  | fuel + 1, i => do
    let i ← skipWs s ws i
    let quoted ← testAt s (· == 34) i
    if quoted then do
      let i ← parseString s ws i
      let i ← skipWs s ws i
      let (colon, i) ← consume s 58 i
      if colon then do
        let i ← value i
        let i ← skipWs s ws i
        let (closed, i) ← consume s 125 i
        if closed then
          .ok i
        else do
          let (comma, i) ← consume s 44 i
          if comma then membersLoop value ws fuel i else failed
      else
        failed
    else
      failed

def parseObject (value : ℤ → Except Stop ℤ) (fuel : ℕ) (i : ℤ) : Except Stop ℤ := do
  let i ← skipWs s fuel (wrap32 (i + 1))
  let (closed, i) ← consume s 125 i
  if closed then .ok i else membersLoop s value fuel fuel i

/-- `_parse_value`, with its recursive calls as an argument. -/
def valueStep (value : ℤ → Except Stop ℤ) (fuel : ℕ) (i : ℤ) : Except Stop ℤ := do
  let i ← skipWs s fuel i
  if i ≥ s.len then
    failed
  else do
    let b ← byteAt s i
    if b = 110 then expectLit s i nullLit 0
    else if b = 116 then expectLit s i trueLit 0
    else if b = 102 then expectLit s i falseLit 0
    else if b = 34 then parseString s fuel i
    else if b = 91 then parseArray s value fuel i
    else if b = 123 then parseObject s value fuel i
    else if b = 45 ∨ isDigit b = true then parseNumber s fuel i
    else failed

def parseValue (fuel : ℕ) : ℕ → ℤ → Except Stop ℤ
  | 0, _ => .error .unfinished
  | depth + 1, i => valueStep s (parseValue fuel depth) fuel i

def jsonParse (fuel : ℕ) : Except Stop Unit := do
  let i ← skipWs s fuel 0
  let i ← parseValue s fuel fuel i
  let i ← skipWs s fuel i
  if i ≠ s.len then failed else .ok ()

/-- The loop of `_quote`, without the text that it builds. -/
def quoteLoop : ℕ → ℤ → Except Stop Unit
  | 0, _ => .ok ()
  | turns + 1, i => do
    let b ← byteAt s i
    if b = 34 ∨ b = 92 ∨ b < 32 then
      quoteLoop turns (i + 1)
    else do
      let _ ← strSlice s i (wrap32 (i + 1))
      quoteLoop turns (i + 1)

def quote : Except Stop Unit := quoteLoop s s.len.toNat 0

end JsonScanner

section Calls

inductive Call where
  | index (s needle : Str)
  | contains (s needle : Str)
  | startsWith (s pre : Str)
  | endsWith (s suffix : Str)
  | lastIndex (s needle : Str)
  | count (s needle : Str)
  | repeatStr (s : Str) (n : ℤ)
  | replaceAll (s old repl : Str)
  | trimPrefix (s pre : Str)
  | trimSuffix (s suffix : Str)
  | trimSpace (s : Str)
  | parseI32 (s : Str)
  | validateFloat (s : Str) (errMsg : String)
  | jsonParse (s : Str)
  | quote (s : Str)

def finish {α : Type} (x : Except Stop α) : Except Stop Unit := x.map fun _ => ()

/-- How a call ends, with fuel for its loops and its nesting. -/
def Call.run (fuel : ℕ) : Call → Except Stop Unit
  | .index s needle => finish (StringRoutines.index s needle)
  | .contains s needle => finish (StringRoutines.contains s needle)
  | .startsWith s pre => finish (StringRoutines.startsWith s pre)
  | .endsWith s suffix => finish (StringRoutines.endsWith s suffix)
  | .lastIndex s needle => finish (StringRoutines.lastIndex s needle fuel)
  | .count s needle => finish (StringRoutines.count s needle fuel)
  | .repeatStr s n => finish (StringRoutines.repeatStr s n)
  | .replaceAll s old repl => finish (StringRoutines.replaceAll s old repl fuel)
  | .trimPrefix s pre => finish (StringRoutines.trimPrefix s pre)
  | .trimSuffix s suffix => finish (StringRoutines.trimSuffix s suffix)
  | .trimSpace s => finish (StringRoutines.trimSpace s fuel)
  | .parseI32 s => finish (StringRoutines.parseI32 s fuel)
  | .validateFloat s errMsg => StringRoutines.validateFloat s errMsg fuel
  | .jsonParse s => StringRoutines.jsonParse s fuel
  | .quote s => StringRoutines.quote s

/-- No byte is read that does not belong to its string, however far the call goes. -/
def InBounds (c : Call) : Prop := ∀ fuel, c.run fuel ≠ .error .outOfBounds

end Calls

end NewClLang.StringRoutines
