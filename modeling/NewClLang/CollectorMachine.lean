import NewClLang.Reachability
import Mathlib.Data.List.Basic

set_option autoImplicit false

/-!
# Values, slots and collected blocks

A machine for what compiled code does with blocks of the collector. A value is the list of its
words that may hold the address of a block. Which slot is read, which branch is taken, which words
a type registers and what is computed are choices of the run; the order of evaluation, what is
allocated when, and what is held meanwhile are fixed by the code.
-/
namespace NewClLang.CollectorMachine
open Reachability

/-- The address of a block, or a word that is none. -/
abbrev Word := Option ℕ

abbrev Value := List Word

/-- The content of each block, in the order of allocation. -/
abbrev Heap := List Value

/-- A variable, by the words that `root_slots_for_type` registers and those it does not. -/
structure Slot where
  rooted : Value
  unrooted : Value
deriving DecidableEq

/-- Operands are named by their depth in the stack of temporaries. `read` and `fetch` read a block,
    `probe` a table and some of the keys in it; `copy` reads a block and writes another, `write`
    writes one. -/
inductive Instr where
  | literal
  | load
  | declare
  | store
  | drop
  | alloc
  | read (depth : ℕ)
  | probe (depth : ℕ)
  | fetch
  | write (src dst : ℕ)
  | copy (src dst : ℕ)
  | combine (n : ℕ)
  | result (n : ℕ)
  | branch (alternatives : List (List Instr))
  | loop (head body : List Instr)
  | again (head body : List Instr)
  | turn (head body : List Instr)
  | loopEnd (temps iterables : ℕ)
  | breakLoop
  | beginIteration
  | iterate
  | endIteration
  | call (n : ℕ)
  | ret
  | stop

/-- A call of a function: `temps` are the operands evaluated and not yet used up, and `iterables`
    those of the loops being run. -/
structure Frame where
  slots : List Slot
  temps : List Value
  iterables : List Value
  code : List Instr

structure Snapshot where
  roots : List Value
  heap : Heap
deriving DecidableEq

inductive Event where
  | alloc (before : Snapshot)
  | access (block : ℕ)
deriving DecidableEq

/-- The frames, that of the running function first, and what happened so far, last event first. -/
structure State where
  frames : List Frame
  heap : Heap
  trace : List Event

/-- `frame` is that of the slot used: the running function's, or that of a caller, to whose slots
    there are pointers. -/
structure Choice where
  frame : ℕ
  index : ℕ
  masks : List (List Bool)

section Words

def pick : List Bool → Value → Value
  | true :: mask, w :: v => w :: pick mask v
  | false :: mask, _ :: v => pick mask v
  | _, _ => []

def rest : List Bool → Value → Value
  | true :: mask, _ :: v => rest mask v
  | false :: mask, w :: v => w :: rest mask v
  | [], v => v
  | _, [] => []

def Choice.mask (c : Choice) : List Bool := c.masks.headD []

def toSlot (mask : List Bool) (v : Value) : Slot := ⟨pick mask v, rest mask v⟩

def toSlots : List (List Bool) → List Value → List Slot
  | _, [] => []
  | masks, v :: vs => toSlot (masks.headD []) v :: toSlots masks.tail vs

def wordAt (i : ℕ) (v : Value) : Word := v[i]?.join

end Words

section Roots

def pointers (vs : List Value) : Set ℕ := {b | ∃ v ∈ vs, some b ∈ v}

def pointsTo (heap : Heap) (a b : ℕ) : Prop := ∃ content, heap[a]? = some content ∧ some b ∈ content

def Frame.rooted (f : Frame) : List Value := f.slots.map Slot.rooted

/-- What a frame holds in words that are not registered. -/
def Frame.unrooted (f : Frame) : List Value := f.slots.map Slot.unrooted ++ f.temps ++ f.iterables

def State.roots (s : State) : List Value := s.frames.flatMap Frame.rooted

def State.temporaries (s : State) : List Value := s.frames.flatMap Frame.unrooted

def State.snapshot (s : State) : Snapshot := ⟨s.roots, s.heap⟩

/-- What a collection started then keeps. -/
def Snapshot.Retains (before : Snapshot) (b : ℕ) : Prop :=
  Reachable (pointsTo before.heap) (pointers before.roots) b

end Roots

section Steps

structure Local where
  frame : Frame
  heap : Heap
  accessed : List ℕ

def readBlock (w : Word) : List ℕ := w.toList

def contentOf (heap : Heap) (w : Word) : Value := (w.bind (fun b => heap[b]?)).getD []

/-- Some of the old words of a block, and new ones. -/
def overwrite (heap : Heap) (w : Word) (mask : List Bool) (v : Value) : Heap :=
  match w with
  | none => heap
  | some b => heap.modify b (fun old => pick mask old ++ v)

def Frame.temp (f : Frame) (depth : ℕ) : Value := f.temps.getD depth []

def isLoopEnd : Instr → Bool
  | .loopEnd _ _ => true
  | _ => false

/-- Where control goes on after `break`, with the operands held there. -/
def afterBreak (f : Frame) : Frame :=
  match f.code.dropWhile (fun i => !isLoopEnd i) with
  | .loopEnd temps iterables :: code =>
      { f with
        temps := f.temps.drop (f.temps.length - temps)
        iterables := f.iterables.drop (f.iterables.length - iterables)
        code := code }
  | _ => { f with code := [] }

/-- `f` is the frame without the instruction, which is one that stays within the frame. -/
def runLocal (i : Instr) (c : Choice) (f : Frame) (heap : Heap) : Local :=
  match i with
  | .literal => ⟨{ f with temps := [] :: f.temps }, heap, []⟩
  | .load => ⟨f, heap, []⟩
  | .declare => ⟨{ f with slots := ⟨[], []⟩ :: f.slots }, heap, []⟩
  | .store => ⟨f, heap, []⟩
  | .drop => ⟨{ f with temps := f.temps.tail }, heap, []⟩
  | .alloc => ⟨{ f with temps := [some heap.length] :: f.temps }, heap ++ [[]], []⟩
  | .read depth => ⟨f, heap, readBlock (wordAt c.index (f.temp depth))⟩
  | .probe depth =>
      let w := wordAt 0 (f.temp depth)
      ⟨f, heap, readBlock w ++ (pick c.mask (contentOf heap w)).filterMap id⟩
  | .fetch =>
      let w := wordAt c.index (f.temp 0)
      ⟨{ f with temps := pick c.mask (contentOf heap w) :: f.temps.tail }, heap, readBlock w⟩
  | .write src dst =>
      let w := wordAt 0 (f.temp dst)
      ⟨f, overwrite heap w c.mask (f.temp src), readBlock w⟩
  | .copy src dst =>
      let w := wordAt 0 (f.temp src)
      let w' := wordAt 0 (f.temp dst)
      ⟨f, overwrite heap w' c.mask (contentOf heap w), readBlock w ++ readBlock w'⟩
  | .combine n =>
      ⟨{ f with temps := pick c.mask (f.temps.take n).flatten :: f.temps.drop n }, heap, []⟩
  | .result n => ⟨{ f with temps := f.temp 0 :: f.temps.drop (n + 1) }, heap, []⟩
  | .branch alternatives =>
      ⟨{ f with code := alternatives.getD c.index [] ++ f.code }, heap, []⟩
  | .loop head body =>
      ⟨{ f with
        code := .again head body :: .loopEnd f.temps.length f.iterables.length :: f.code }, heap, []⟩
  | .again head body => ⟨{ f with code := head ++ .turn head body :: f.code }, heap, []⟩
  | .turn head body =>
      if c.index = 0 then ⟨{ f with temps := f.temps.tail }, heap, []⟩
      else
        ⟨{ f with
          temps := f.temps.tail
          code := body ++ .drop :: .again head body :: f.code }, heap, []⟩
  | .loopEnd _ _ => ⟨f, heap, []⟩
  | .breakLoop => ⟨afterBreak f, heap, []⟩
  | .beginIteration =>
      ⟨{ f with temps := f.temps.tail, iterables := f.temp 0 :: f.iterables }, heap, []⟩
  | .iterate =>
      let w := wordAt 0 (f.iterables.headD [])
      ⟨{ f with temps := pick c.mask (contentOf heap w) :: f.temps }, heap, readBlock w⟩
  | .endIteration => ⟨{ f with iterables := f.iterables.tail }, heap, []⟩
  | .call _ => ⟨f, heap, []⟩
  | .ret => ⟨f, heap, []⟩
  | .stop => ⟨{ f with code := [] }, heap, []⟩

def enter (code : List Instr) (masks : List (List Bool)) (args : List Value) : Frame :=
  { slots := toSlots masks args ++ [⟨[], []⟩], temps := [], iterables := [], code := code }

def Frame.slot (f : Frame) (i : ℕ) : Value :=
  let slot := f.slots.getD i ⟨[], []⟩
  slot.rooted ++ slot.unrooted

def Frame.assign (i : ℕ) (slot : Slot) (f : Frame) : Frame :=
  { f with slots := f.slots.set i slot }

def State.slot (s : State) (c : Choice) : Value :=
  ((s.frames[c.frame]?).map (fun f => f.slot c.index)).getD []

/-- The next step calls `__nc_gc_alloc`. -/
def allocates (s : State) : Bool :=
  match s.frames with
  | { code := .alloc :: _, .. } :: _ => true
  | _ => false

def step (program : List (List Instr)) (s : State) (c : Choice) : State :=
  match s.frames with
  | [] => s
  | f :: callers =>
    match f.code with
    | [] => s
    | .call n :: code =>
      match program[c.index]? with
      | none => s
      | some callee =>
        { s with frames := enter callee c.masks (f.temps.take n) ::
            { f with temps := f.temps.drop n, code := code } :: callers }
    | .ret :: _ =>
      match callers with
      | [] => { s with frames := [] }
      | caller :: others =>
        { s with frames := { caller with temps := f.slot c.index :: caller.temps } :: others }
    | .load :: code =>
      { s with frames := { f with temps := s.slot c :: f.temps, code := code } :: callers }
    | .store :: code =>
      let frames := { f with temps := f.temps.tail, code := code } :: callers
      { s with frames := frames.modify c.frame (Frame.assign c.index (toSlot c.mask (f.temp 0))) }
    | i :: code =>
      let l := runLocal i c { f with code := code } s.heap
      { frames := l.frame :: callers
        heap := l.heap
        trace := l.accessed.map Event.access ++
          (if allocates s then [.alloc s.snapshot] else []) ++ s.trace }

end Steps

end NewClLang.CollectorMachine
