import NewClLang.CollectorMachine
import NewClLang.CodeEmission

set_option autoImplicit false

/-!
# Allocations and temporaries of compiled code

What the code of each construct allocates, reads and holds, in the order in which the emitters and
the runtime routines do it. Every part leaves one value on the stack of temporaries. Where the
emitters go by the type of an operand, the cases are alternatives of a `branch`.
-/
namespace NewClLang.CollectorLowering
open Syntax CompiledCode CollectorMachine

section Operations

/-- `__nc_str_cat_out`: the operands are copied once the result is allocated. -/
def strCat : List Instr := [.alloc, .read 1, .read 2, .result 2]

/-- `emit_to_str`: a string as it is, or a new one. -/
def toStr : List Instr := [.branch [[], [.alloc, .read 1, .result 1]]]

/-- `__nc_slice_append_raw`: in place, or in a buffer of twice the capacity. -/
def append : List Instr :=
  [.branch [[.write 0 1, .drop], [.alloc, .copy 2 0, .write 1 0, .result 2]]]

/-- `__nc_map_put` into the map below a key and a value, with or without `__nc_map_rehash`. -/
def mapPut : List Instr :=
  [.branch [
    [.probe 2, .read 1, .write 1 2, .write 0 2, .drop, .drop],
    [.alloc, .copy 3 0, .probe 0, .read 2, .write 2 0, .write 1 0, .result 3]]]

def mapEntries : List (List Instr) → List Instr
  | key :: value :: entries => key ++ value ++ mapPut ++ mapEntries entries
  | _ => []

def interpolated : List (List Instr) → List Instr
  | [] => [.literal]
  | part :: parts => part ++ toStr ++ parts.flatMap (fun part => part ++ toStr ++ strCat)

/-- The elements of a literal are stored in a buffer allocated before the first is evaluated. -/
def elements (ops : List (List Instr)) : List Instr :=
  .alloc :: ops.flatMap (fun element => element ++ [.write 0 1, .drop])

def readAll : ℕ → List Instr
  | 0 => []
  | n + 1 => .read n :: readAll n

/-- The functions that `emit_call` compiles to scalar code or to a routine that allocates nothing. -/
def plainBuiltins : List String :=
  ["len", "cap", "delete", "clear", "min", "max", "abs", "rune", "bool", "i8", "i16", "i32", "i64",
    "u8", "u16", "u32", "u64", "f32", "f64", "runtime.gc_collect", "runtime.gc_live"]

/-- `emit_call`, of a builtin, a function, a closure, loaded before the arguments are evaluated, or
    an extern function. -/
def call (name : String) (ops : List (List Instr)) : List Instr :=
  if name = "append" then ops.flatten ++ append
  else if name = "str" then ops.flatten ++ toStr
  else if name = "io.print" ∨ name = "io.println" then
    ops.flatten ++ toStr ++ [.read 0, .combine 1]
  else if name = "__nc_str_alloc" ∨ name = "__nc_bytes_alloc" then
    ops.flatten ++ [.alloc, .result 1]
  else if name = "copy" then ops.flatten ++ [.copy 0 1, .combine 2]
  else if name ∈ plainBuiltins then ops.flatten ++ readAll ops.length ++ [.combine ops.length]
  else
    [.branch [ops.flatten ++ [.call ops.length],
      .load :: ops.flatten ++ [.call (ops.length + 1)],
      ops.flatten ++ readAll ops.length ++ [.combine ops.length]]]

def binary (ops : List (List Instr)) : List Instr :=
  [.branch [ops.flatten ++ [.combine 2], ops.flatten ++ [.read 0, .read 1, .combine 2],
    ops.flatten ++ strCat, ops.flatten ++ [.call 2], ops.reverse.flatten ++ [.call 2]]]

/-- Indexing of a slice, an array or a string, of a map held as a value, and of a map in a slot,
    which is read after the key is evaluated. -/
def indexAccess (ops : List (List Instr)) : List Instr :=
  [.branch [ops.flatten ++ [.drop, .fetch], ops.flatten ++ [.probe 1, .read 0, .drop, .fetch],
    ops.reverse.flatten ++ [.probe 0, .read 1, .fetch, .result 1]]]

def operation (op : Operation) (ops : List (List Instr)) : List Instr :=
  match op with
  | .unary _ => ops.flatten ++ [.branch [[.combine ops.length], [.call ops.length]]]
  | .binary .logicalAnd => ops.flatten ++ [.combine ops.length]
  | .binary .logicalOr => ops.flatten ++ [.combine ops.length]
  | .binary (.strict _) => binary ops
  | .call name => call name ops
  | .methodCall _ =>
      ops.flatten ++ [.branch [[.call ops.length], readAll ops.length ++ [.combine ops.length],
        [.probe 1, .read 0, .combine ops.length]]]
  | .fieldAccess _ => ops.flatten ++ [.branch [[.combine 1], [.fetch], [.drop, .load]]]
  | .indexAccess => indexAccess ops
  | .sliceExpr =>
      ops.flatten ++ [.branch [[.combine ops.length],
        [.alloc, .copy ops.length 0, .result ops.length]]]
  | .arrayLiteral => elements ops
  | .sliceLiteral => elements ops
  | .mapLiteral => .alloc :: mapEntries ops
  | .structLiteral _ false => ops.flatten ++ [.combine ops.length]
  | .structLiteral _ true => ops.flatten ++ [.combine ops.length, .alloc, .write 1 0, .result 1]
  | .interpolatedString => interpolated ops

def lvalue (a : Action) (ops : List (List Instr)) : List Instr :=
  match a with
  | .identifier _ _ => [.branch [[.literal], [.load]]]
  | .operation (.fieldAccess _) => [.branch [[.literal], ops.flatten ++ [.combine 1]]]
  | .operation .indexAccess =>
      [.branch [ops.flatten ++ [.drop], ops.tail.flatten]]
  | _ => ops.flatten ++ [.combine ops.length]

/-- A value on the stack goes to a slot, to the part of a block whose address is below it, or under
    the key below it to a map, which may grow. -/
def storeValue : List Instr :=
  [.branch [
    [.store, .drop, .literal],
    [.write 0 1, .drop, .drop, .literal],
    [.load, .branch [
      [.probe 0, .read 2, .write 2 0, .write 1 0, .drop],
      [.alloc, .copy 1 0, .probe 0, .read 3, .write 3 0, .write 2 0, .store, .drop]],
      .drop, .drop, .literal]]]

/-- `=` and the compound operators: `+=` on the strings of a map concatenates with the old value,
    and an overloaded operator is called on it. -/
def assignment (ops : List (List Instr)) : List Instr :=
  [.branch [
    ops.flatten,
    ops.flatten ++ .load :: .probe 0 :: .fetch :: strCat,
    (ops.take 1).flatten ++ .load :: (ops.drop 1).flatten ++ [.call 2]]] ++ storeValue

end Operations

def action (a : Action) (ops : List (List Instr)) : List Instr :=
  match a with
  | .literal => [.literal]
  | .identifier _ _ => [.branch [[.load], [.load, .fetch]]]
  | .functionExpr [] => [.literal]
  | .functionExpr captures =>
      .alloc :: captures.flatMap (fun _ =>
        [.branch [[.load], [.load, .fetch]], .write 0 1, .drop])
  | .operation op => operation op ops
  | .fallibleStatus => [.declare, .declare] ++ ops.flatten ++ [.store, .literal]
  | .fallibleValue => [.load]
  | .bindValue _ => [.declare, .load, .store, .literal]
  | .bindError _ => [.declare, .load, .store, .literal]
  | .variableDecl _ => .declare :: ops.flatten ++ [.store, .literal]
  | .lvalue target => lvalue target ops
  | .assignment => assignment ops
  | .startRange _ => .declare :: ops.flatten ++ [.combine 2]
  | .inRange _ => [.literal]
  | .startIteration _ _ => [.declare, .declare] ++ ops.flatten ++ [.beginIteration, .literal]
  | .nextItem _ _ => [.branch [[], [.iterate, .store], [.iterate, .store, .iterate, .store]], .literal]
  | .advance _ => [.literal]
  | .endIteration => [.endIteration, .literal]
  | .spawn => .declare :: ops.flatten ++ [.store, .literal]
  | .setResult _ => ops.flatten ++ [.store, .literal]

def drain (sites : List (List Instr)) : List Instr :=
  [.again [.literal] [.branch ([.literal] :: sites)]]

mutual

def lower : Code → List Instr
  | .act a operands => action a (lowerAll operands)
  | .block codes => lowerBlock codes
  | .branch condition thenCode elseCode =>
      lower condition ++ [.drop, .branch [lower thenCode, lower elseCode]]
  | .arms scrutinee bodies =>
      lower scrutinee ++ [.branch [[.read 0], [.load, .read 0, .drop]], .drop,
        .branch ([.stop] :: lowerAll bodies)]
  | .loop condition body => [.loop (lower condition) (lower body), .literal]
  | .breakLoop => [.breakLoop]
  | .stop => [.stop]
  | .register _ _ => [.literal]
  | .inlined body => lower body
  | .drain sites => drain (lowerAll sites) ++ [.literal]
  | .exit sites => drain (lowerAll sites) ++ [.ret]
  | .exitDeferred => [.ret]

def lowerAll : List Code → List (List Instr)
  | [] => []
  | c :: cs => lower c :: lowerAll cs

/-- The value of each part but the last is dropped. -/
def lowerBlock : List Code → List Instr
  | [] => [.literal]
  | [c] => lower c
  | c :: c' :: cs => lower c ++ .drop :: lowerBlock (c' :: cs)

end

structure Body where
  isMain : Bool
  body : List Stmt
  tail : Option Expr

def Body.code (b : Body) : List Instr := lower (CodeEmission.emitFunction b.isMain b.body b.tail).1

def compile (program : List Body) : List (List Instr) := program.map Body.code

/-- The call of a function from outside of the program. -/
def enterMain (main : Body) : State :=
  { frames := [enter main.code [] []], heap := [], trace := [] }

end NewClLang.CollectorLowering
