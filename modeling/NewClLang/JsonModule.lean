import Mathlib.Data.List.Basic
import NewClLang.WrappedIntegers

set_option autoImplicit false

/-!
# The json module

`stdlib/json/json.nc`: values that share arrays and objects in a heap, the parser with its cursor, and
`stringify`. `&&` and `||` evaluate their right operand only where they have to, as the source means
them. In a text of fewer than `2 ^ 32` bytes the cursor never passes the length that `len` reads, so
of the additions to it only `p.i + 4` is written with its overflow.
-/
namespace NewClLang.JsonModule
open WrappedIntegers

abbrev Bytes := List UInt8

/-- `len`: the lower 32 bits of the length. -/
def len {α : Type} (l : List α) : ℤ := wrap32 l.length

/-- The elements that a loop over `0..len(l)` comes to. -/
def counted {α : Type} (l : List α) : List α := l.take (len l).toNat

inductive Stop where
  | err (message : String)
  | outOfBounds
  | unfinished

/-- What `strconv` does with an `f64`. `parseF64` fails with `none`. -/
structure Floats (F : Type) where
  zero : F
  parseF64 : Bytes → Option F
  formatF64 : F → Bytes

structure Value (F : Type) where
  kindValue : ℤ
  boolValue : Bool
  numValue : F
  strValue : Bytes
  arrValue : Option ℕ
  objValue : Option ℕ

/-- The `_Array` and `_Object` structs made so far; a pointer is an index. -/
structure Heap (F : Type) where
  arrays : List (List (Value F))
  objects : List (List (Bytes × Value F))

section Builders
variable {F : Type} (fl : Floats F)

def null : Value F := ⟨0, false, fl.zero, [], none, none⟩

def boolValue (v : Bool) : Value F := ⟨1, v, fl.zero, [], none, none⟩

def number (v : F) : Value F := ⟨2, false, v, [], none, none⟩

def string (v : Bytes) : Value F := ⟨3, false, fl.zero, v, none, none⟩

def array (h : Heap F) : Value F × Heap F :=
  (⟨4, false, fl.zero, [], some h.arrays.length, none⟩, { h with arrays := h.arrays ++ [[]] })

def object (h : Heap F) : Value F × Heap F :=
  (⟨5, false, fl.zero, [], none, some h.objects.length⟩, { h with objects := h.objects ++ [[]] })

def arrayAt (h : Heap F) (v : Value F) (i : ℤ) : Except Stop (Value F) :=
  if v.kindValue ≠ 4 then
    .error (.err "json.array_at kind mismatch")
  else
    match v.arrValue with
    | some a =>
      match h.arrays[a]? with
      | some items =>
        if i < 0 ∨ i ≥ len items then
          .error (.err "json.array_at index out of range")
        else
          match items[i.toNat]? with
          | some item => .ok item
          | none => .error .outOfBounds
      | none => .error .outOfBounds
    | none => .error (.err "json.array_at missing array")

def arrayAppend (h : Heap F) (v item : Value F) : Except Stop (Heap F) :=
  if v.kindValue ≠ 4 then
    .error (.err "json.array_append kind mismatch")
  else
    match v.arrValue with
    | some a =>
      match h.arrays[a]? with
      | some items => .ok { h with arrays := h.arrays.set a (items ++ [item]) }
      | none => .error .outOfBounds
    | none => .error (.err "json.array_append missing array")

def objectHas (h : Heap F) (v : Value F) (key : Bytes) : Except Stop Bool :=
  if v.kindValue ≠ 5 then
    .error (.err "json.object_has kind mismatch")
  else
    match v.objValue with
    | some o =>
      match h.objects[o]? with
      | some entries => .ok ((counted entries).any (fun e => e.1 == key))
      | none => .error .outOfBounds
    | none => .ok false

/-- The loop of `object_get`. -/
def findEntry (entries : List (Bytes × Value F)) (key : Bytes) : Except Stop (Value F) :=
  match (counted entries).find? (fun e => e.1 == key) with
  | some e => .ok e.2
  | none => .error (.err "json.object_get missing key")

def objectGet (h : Heap F) (v : Value F) (key : Bytes) : Except Stop (Value F) :=
  if v.kindValue ≠ 5 then
    .error (.err "json.object_get kind mismatch")
  else
    match v.objValue with
    | some o =>
      match h.objects[o]? with
      | some entries => findEntry entries key
      | none => .error .outOfBounds
    | none => .error (.err "json.object_get missing key")

/-- The loop of `object_set`: the entries with the key replaced, and the new one at the end where
    there was none. -/
def setEntry {β : Type} (entries : List (Bytes × β)) (key : Bytes) (item : β) : List (Bytes × β) :=
  let next := (counted entries).map (fun e => if e.1 = key then (key, item) else e)
  if (counted entries).any (fun e => e.1 == key) then next else next ++ [(key, item)]

def objectSet (h : Heap F) (v : Value F) (key : Bytes) (item : Value F) : Except Stop (Heap F) :=
  if v.kindValue ≠ 5 then
    .error (.err "json.object_set kind mismatch")
  else
    match v.objValue with
    | some o =>
      match h.objects[o]? with
      | some entries => .ok { h with objects := h.objects.set o (setEntry entries key item) }
      | none => .error .outOfBounds
    | none => .error (.err "json.object_set missing object")

end Builders

section Scanner
variable (s : Bytes)

def failed {α : Type} : Except Stop α := .error (.err "json.parse failed")

/-- `s[i]`; behind the last byte stands a NUL. -/
def byteAt (i : ℕ) : Except Stop UInt8 :=
  match s[i]? with
  | some b => .ok b
  | none => if i = s.length then .ok 0 else .error .outOfBounds

/-- `s[a:b]`. -/
def strSlice (a b : ℕ) : Bytes := (s.drop a).take (b - a)

/-- `p.i < len(p.s) && test(p.s[p.i])`. -/
def isAt (test : UInt8 → Bool) (i : ℕ) : Except Stop Bool :=
  if (i : ℤ) < len s then do
    let b ← byteAt s i
    .ok (test b)
  else
    .ok false

def isDigit (b : UInt8) : Bool := 48 ≤ b && b ≤ 57

def isDigit1_9 (b : UInt8) : Bool := 49 ≤ b && b ≤ 57

def isSpace (b : UInt8) : Bool := b == 32 || b == 9 || b == 10 || b == 13

/-- A loop that goes on while the byte at the cursor passes a test; `turns` is what is left of
    `len`. -/
def skipLoop (test : UInt8 → Bool) : ℕ → ℕ → Except Stop ℕ
  | 0, i => .ok i
  | turns + 1, i => do
    let passes ← isAt s test i
    if passes then skipLoop test turns (i + 1) else .ok i

def skipWs (i : ℕ) : Except Stop ℕ := skipLoop s isSpace ((len s).toNat - i) i

def skipDigits (i : ℕ) : Except Stop ℕ := skipLoop s isDigit ((len s).toNat - i) i

def consume (b : UInt8) (i : ℕ) : Except Stop (Bool × ℕ) := do
  let here ← isAt s (· == b) i
  .ok (here, if here then i + 1 else i)

def peek (b : UInt8) (i : ℕ) : Except Stop Bool := isAt s (· == b) i

/-- The loop of `_expect_lit` over what is left of the literal. -/
def expectLoop : Bytes → ℕ → Except Stop ℕ
  | [], i => .ok i
  | c :: lit, i => do
    let here ← isAt s (· == c) i
    if here then expectLoop lit (i + 1) else failed

def expectLit (lit : Bytes) (i : ℕ) : Except Stop ℕ := expectLoop s lit i

def hexValue (b : UInt8) : Except Stop ℕ :=
  if 48 ≤ b ∧ b ≤ 57 then
    .ok (b.toNat - 48)
  else if 65 ≤ b ∧ b ≤ 70 then
    .ok (b.toNat - 55)
  else if 97 ≤ b ∧ b ≤ 102 then
    .ok (b.toNat - 87)
  else
    failed

def hexLoop : ℕ → ℕ → ℕ → Except Stop (ℕ × ℕ)
  | 0, value, i => .ok (value, i)
  | turns + 1, value, i => do
    let b ← byteAt s i
    let d ← hexValue b
    hexLoop turns (value * 16 + d) (i + 1)

def parseHex4 (i : ℕ) : Except Stop (ℕ × ℕ) :=
  if wrap32 (i + 4) > len s then failed else hexLoop s 4 0 i

/-- `str(rune(r))`: `__nc_rune_to_str_out`. -/
def strRune (r : ℕ) : Bytes :=
  if r ≤ 0x7F then
    [UInt8.ofNat r]
  else if r ≤ 0x7FF then
    [UInt8.ofNat (0xC0 + r / 64), UInt8.ofNat (0x80 + r % 64)]
  else if r ≤ 0xFFFF ∧ ¬ (0xD800 ≤ r ∧ r ≤ 0xDFFF) then
    [UInt8.ofNat (0xE0 + r / 4096), UInt8.ofNat (0x80 + r / 64 % 64), UInt8.ofNat (0x80 + r % 64)]
  else if r ≤ 0x10FFFF then
    [UInt8.ofNat (0xF0 + r / 262144), UInt8.ofNat (0x80 + r / 4096 % 64),
      UInt8.ofNat (0x80 + r / 64 % 64), UInt8.ofNat (0x80 + r % 64)]
  else
    [0xEF, 0xBF, 0xBD]

/-- What follows the backslash: the byte `e`, and for `u` the four digits at the cursor. -/
def parseEscape (e : UInt8) (i : ℕ) : Except Stop (Bytes × ℕ) :=
  if e = 34 then .ok ([34], i)
  else if e = 92 then .ok ([92], i)
  else if e = 47 then .ok ([47], i)
  else if e = 98 then .ok (strRune 8, i)
  else if e = 102 then .ok (strRune 12, i)
  else if e = 110 then .ok ([10], i)
  else if e = 114 then .ok ([13], i)
  else if e = 116 then .ok ([9], i)
  else if e = 117 then do
    let (value, i) ← parseHex4 s i
    .ok (strRune value, i)
  else failed

/-- The loop of `_parse_string`. -/
def stringLoop : ℕ → Bytes → ℕ → Except Stop (Bytes × ℕ)
  | 0, _, _ => .error .unfinished
  | turns + 1, out, i =>
    if (i : ℤ) < len s then do
      let b ← byteAt s i
      if b = 34 then
        .ok (out, i + 1)
      else if b = 92 then
        if ((i + 1 : ℕ) : ℤ) ≥ len s then
          failed
        else do
          let e ← byteAt s (i + 1)
          let (piece, i) ← parseEscape s e (i + 2)
          stringLoop turns (out ++ piece) i
      else if b < 32 then
        failed
      else
        stringLoop turns (out ++ strSlice s i (i + 1)) (i + 1)
    else
      failed

def parseString (i : ℕ) : Except Stop (Bytes × ℕ) := do
  let (quoted, i) ← consume s 34 i
  if quoted then stringLoop s ((len s).toNat - i + 1) [] i else failed

/-- `-` is not the end of the text, and no digit follows a leading zero. -/
def numberInt (i : ℕ) : Except Stop ℕ := do
  let (zero, i) ← consume s 48 i
  if zero then do
    let digit ← isAt s isDigit i
    if digit then failed else .ok i
  else do
    let digit ← isAt s isDigit1_9 i
    if digit then skipDigits s i else failed

def numberDigits (i : ℕ) : Except Stop ℕ := do
  let digit ← isAt s isDigit i
  if digit then skipDigits s i else failed

def numberFrac (i : ℕ) : Except Stop ℕ := do
  let (point, i) ← consume s 46 i
  if point then numberDigits s i else .ok i

def numberExp (i : ℕ) : Except Stop ℕ := do
  let exponent ← isAt s (fun b => b == 101 || b == 69) i
  if exponent then do
    let signed ← isAt s (fun b => b == 45 || b == 43) (i + 1)
    numberDigits s (if signed then i + 2 else i + 1)
  else
    .ok i

def parseNumber {F : Type} (fl : Floats F) (start : ℕ) : Except Stop (F × ℕ) := do
  let (minus, i) ← consume s 45 start
  if minus = true ∧ (i : ℤ) ≥ len s then
    failed
  else do
    let i ← numberInt s i
    let i ← numberFrac s i
    let i ← numberExp s i
    match fl.parseF64 (strSlice s start i) with
    | some x => .ok (x, i)
    | none => .error (.err "strconv.parse_f64 failed")

end Scanner

section Parser
variable {F : Type} (fl : Floats F) (s : Bytes)

/-- A `_Parser` with the heap. -/
structure Cursor (F : Type) where
  i : ℕ
  heap : Heap F

abbrev ValueParser (F : Type) := Cursor F → Except Stop (Value F × Cursor F)

/-- The loop of `_parse_array`. -/
def elementsLoop (value : ValueParser F) (out : Value F) : ℕ → ValueParser F
  | 0, _ => .error .unfinished
  | turns + 1, p => do
    let (item, p) ← value p
    let heap ← arrayAppend p.heap out item
    let i ← skipWs s p.i
    let (closed, i) ← consume s 93 i
    if closed then
      .ok (out, ⟨i, heap⟩)
    else do
      let (comma, i) ← consume s 44 i
      if comma then elementsLoop value out turns ⟨i, heap⟩ else failed

def parseArray (value : ValueParser F) (p : Cursor F) : Except Stop (Value F × Cursor F) := do
  let (out, heap) := array fl p.heap
  let i ← skipWs s (p.i + 1)
  let (closed, i) ← consume s 93 i
  if closed then .ok (out, ⟨i, heap⟩) else elementsLoop s value out (s.length + 1) ⟨i, heap⟩

/-- The loop of `_parse_object`. -/
def membersLoop (value : ValueParser F) (out : Value F) : ℕ → ValueParser F
  | 0, _ => .error .unfinished
  | turns + 1, p => do
    let i ← skipWs s p.i
    let quoted ← peek s 34 i
    if quoted then do
      let (key, i) ← parseString s i
      let i ← skipWs s i
      let (colon, i) ← consume s 58 i
      if colon then do
        let (item, p) ← value ⟨i, p.heap⟩
        let heap ← objectSet p.heap out key item
        let i ← skipWs s p.i
        let (closed, i) ← consume s 125 i
        if closed then
          .ok (out, ⟨i, heap⟩)
        else do
          let (comma, i) ← consume s 44 i
          if comma then membersLoop value out turns ⟨i, heap⟩ else failed
      else
        failed
    else
      failed

def parseObject (value : ValueParser F) (p : Cursor F) : Except Stop (Value F × Cursor F) := do
  let (out, heap) := object fl p.heap
  let i ← skipWs s (p.i + 1)
  let (closed, i) ← consume s 125 i
  if closed then .ok (out, ⟨i, heap⟩) else membersLoop s value out (s.length + 1) ⟨i, heap⟩

/-- The bytes of `null`, `true` and `false`. -/
def nullLit : Bytes := [110, 117, 108, 108]
def trueLit : Bytes := [116, 114, 117, 101]
def falseLit : Bytes := [102, 97, 108, 115, 101]

/-- `_parse_value`, with its recursive calls as an argument. -/
def valueStep (value : ValueParser F) (p : Cursor F) : Except Stop (Value F × Cursor F) := do
  let i ← skipWs s p.i
  if (i : ℤ) ≥ len s then
    failed
  else do
    let b ← byteAt s i
    if b = 110 then do
      let i ← expectLit s nullLit i
      .ok (null fl, ⟨i, p.heap⟩)
    else if b = 116 then do
      let i ← expectLit s trueLit i
      .ok (boolValue fl true, ⟨i, p.heap⟩)
    else if b = 102 then do
      let i ← expectLit s falseLit i
      .ok (boolValue fl false, ⟨i, p.heap⟩)
    else if b = 34 then do
      let (text, i) ← parseString s i
      .ok (string fl text, ⟨i, p.heap⟩)
    else if b = 91 then
      parseArray fl s value ⟨i, p.heap⟩
    else if b = 123 then
      parseObject fl s value ⟨i, p.heap⟩
    else if b = 45 ∨ isDigit b = true then do
      let (x, i) ← parseNumber s fl i
      .ok (number x, ⟨i, p.heap⟩)
    else
      failed

/-- `_parse_value` for texts nested less than `depth`. -/
def parseValue : ℕ → ValueParser F
  | 0, _ => .error .unfinished
  | depth + 1, p => valueStep fl s (parseValue depth) p

def parse (heap : Heap F) : Except Stop (Value F × Heap F) := do
  let i ← skipWs s 0
  let (v, p) ← parseValue fl s (s.length + 1) ⟨i, heap⟩
  let i ← skipWs s p.i
  if (i : ℤ) ≠ len s then failed else .ok (v, p.heap)

end Parser

section Printer
variable {F : Type} (fl : Floats F)

/-- `_hex_digit`. -/
def hexDigit (v : ℕ) : Bytes := if v < 10 then strRune (48 + v) else strRune (87 + v)

def quoteByte (b : UInt8) : Bytes :=
  if b = 34 then [92, 34]
  else if b = 92 then [92, 92]
  else if b = 8 then [92, 98]
  else if b = 9 then [92, 116]
  else if b = 10 then [92, 110]
  else if b = 12 then [92, 102]
  else if b = 13 then [92, 114]
  else if b < 32 then [92, 117, 48, 48] ++ hexDigit (b.toNat / 16) ++ hexDigit (b.toNat % 16)
  else [b]

/-- `_quote`. -/
def quote (s : Bytes) : Bytes := [34] ++ (counted s).flatMap quoteByte ++ [34]

/-- The texts one after the other with commas between them. -/
def joinComma : List Bytes → Bytes
  | [] => []
  | [t] => t
  | t :: u :: rest => t ++ [44] ++ joinComma (u :: rest)

/-- `stringify` where its calls are nested less than `depth`. -/
def stringify (h : Heap F) : ℕ → Value F → Option Bytes
  | 0, _ => none
  | depth + 1, v =>
    if v.kindValue = 0 then some nullLit
    else if v.kindValue = 1 then some (if v.boolValue then trueLit else falseLit)
    else if v.kindValue = 2 then some (fl.formatF64 v.numValue)
    else if v.kindValue = 3 then some (quote v.strValue)
    else if v.kindValue = 4 then
      match v.arrValue with
      | none => some [91, 93]
      | some a => do
        let items ← h.arrays[a]?
        let texts ← (counted items).mapM (stringify h depth)
        some ([91] ++ joinComma texts ++ [93])
    else if v.kindValue = 5 then
      match v.objValue with
      | none => some [123, 125]
      | some o => do
        let entries ← h.objects[o]?
        let texts ← (counted entries).mapM (fun e => do
          let text ← stringify h depth e.2
          some (quote e.1 ++ [58] ++ text))
        some ([123] ++ joinComma texts ++ [125])
    else
      some nullLit

end Printer

end NewClLang.JsonModule
