import Mathlib.Data.List.Basic
import NewClLang.WrappedIntegers

set_option autoImplicit false

/-!
# sort.sort

`stdlib/sort/sort.nc` on one slice. A run keeps the elements of the slice and what the comparator
keeps between its calls; it is undefined where an element outside the slice is read or written. The
operations on `i32` are a parameter, and so is whether `&&` evaluates its right operand always.
-/
namespace NewClLang.IntroSort
open WrappedIntegers

structure Sorting (α W : Type) where
  items : List α
  world : W

structure Setting (α W : Type) where
  arith : Arithmetic
  bothOperands : Bool
  less : α → α → W → Bool × W

section Accesses
variable {α W : Type}

def Sorting.read (s : Sorting α W) (i : ℤ) : Option α :=
  if 0 ≤ i then s.items[i.toNat]? else none

def Sorting.write (s : Sorting α W) (i : ℤ) (value : α) : Option (Sorting α W) :=
  if 0 ≤ i ∧ i < s.items.length then some { s with items := s.items.set i.toNat value } else none

def Setting.call (e : Setting α W) (a b : α) (s : Sorting α W) : Bool × Sorting α W :=
  ((e.less a b s.world).1, { s with world := (e.less a b s.world).2 })

/-- `less(items[i], items[j])`. -/
def Setting.lessAt (e : Setting α W) (i j : ℤ) (s : Sorting α W) : Option (Bool × Sorting α W) := do
  let a ← s.read i
  let b ← s.read j
  some (e.call a b s)

end Accesses

section Algorithm
variable {α W : Type} (e : Setting α W)

def sortSwap (s : Sorting α W) (a b : ℤ) : Option (Sorting α W) :=
  if a = b then
    some s
  else do
    let tmp ← s.read a
    let other ← s.read b
    let s ← s.write a other
    s.write b tmp

/-- `if less(items[i], items[j]) { _sort_swap(items, a, b) }`. -/
def swapIfLess (i j a b : ℤ) (s : Sorting α W) : Option (Sorting α W) := do
  let (smaller, s) ← e.lessAt i j s
  if smaller then sortSwap s a b else some s

/-- The turns `i` to `last - 1` of the loop in `_sort_partition_by`. -/
def partitionLoop (pivotValue : α) : ℕ → ℤ → ℤ → Sorting α W → Option (ℤ × Sorting α W)
  | 0, _, store, s => some (store, s)
  | turns + 1, i, store, s => do
    let item ← s.read i
    let (smaller, s) := e.call item pivotValue s
    if smaller then
      let s ← sortSwap s i store
      let store ← e.arith (store + 1)
      partitionLoop pivotValue turns (i + 1) store s
    else
      partitionLoop pivotValue turns (i + 1) store s

def sortPartitionBy (s : Sorting α W) (lo hi : ℤ) : Option (ℤ × Sorting α W) := do
  let width ← e.arith (hi - lo)
  let mid ← e.arith (lo + width.tdiv 2)
  let last ← e.arith (hi - 1)
  let s ← swapIfLess e mid lo lo mid s
  let s ← swapIfLess e last mid mid last s
  let s ← swapIfLess e mid lo lo mid s
  let pivotValue ← s.read mid
  let s ← sortSwap s mid last
  let (store, s) ← partitionLoop e pivotValue (last - lo).toNat lo lo s
  let s ← sortSwap s store last
  some (store, s)

/-- The inner loop of `_sort_insertion_by`: the turns in which `j > lo`. -/
def insertionShift (value : α) : ℕ → ℤ → Sorting α W → Option (ℤ × Sorting α W)
  | 0, j, s => some (j, s)
  | turns + 1, j, s => do
    let before ← e.arith (j - 1)
    let item ← s.read before
    let (smaller, s) := e.call value item s
    if smaller then
      let s ← s.write j item
      insertionShift value turns before s
    else
      some (j, s)

def insertionTurn (lo i : ℤ) (s : Sorting α W) : Option (Sorting α W) := do
  let value ← s.read i
  let (j, s) ← insertionShift e value (i - lo).toNat i s
  s.write j value

def insertionLoop (lo : ℤ) : ℕ → ℤ → Sorting α W → Option (Sorting α W)
  | 0, _, s => some s
  | turns + 1, i, s => do
    let s ← insertionTurn e lo i s
    insertionLoop lo turns (i + 1) s

def sortInsertionBy (s : Sorting α W) (lo hi : ℤ) : Option (Sorting α W) := do
  let first ← e.arith (lo + 1)
  insertionLoop e lo (hi - first).toNat first s

/-- `right < count && less(items[lo + largest], items[lo + right])`. -/
def rightIsLarger (lo largest right count : ℤ) (s : Sorting α W) :
    Option (Bool × Sorting α W) :=
  if right < count ∨ e.bothOperands = true then do
    let i ← e.arith (lo + largest)
    let j ← e.arith (lo + right)
    let (smaller, s) ← e.lessAt i j s
    some (decide (right < count) && smaller, s)
  else
    some (false, s)

/-- One turn of `_sort_sift_down_by`: the index to go on with, or `none` where it returns. -/
def siftTurn (lo root count : ℤ) (s : Sorting α W) : Option (Option ℤ × Sorting α W) := do
  let twice ← e.arith (root * 2)
  let child ← e.arith (twice + 1)
  if child ≥ count then
    some (none, s)
  else do
    let i ← e.arith (lo + root)
    let j ← e.arith (lo + child)
    let (smaller, s) ← e.lessAt i j s
    let largest := if smaller then child else root
    let right ← e.arith (child + 1)
    let (smaller, s) ← rightIsLarger e lo largest right count s
    let largest := if smaller then right else largest
    if largest = root then
      some (none, s)
    else do
      let i ← e.arith (lo + root)
      let j ← e.arith (lo + largest)
      let s ← sortSwap s i j
      some (some largest, s)

/-- `root` grows in every turn and stays below `count`, so `count` turns are enough. -/
def siftLoop (lo count : ℤ) : ℕ → ℤ → Sorting α W → Option (Sorting α W)
  | 0, _, _ => none
  | turns + 1, root, s => do
    let (next, s) ← siftTurn e lo root count s
    match next with
    | none => some s
    | some root => siftLoop lo count turns root s

def sortSiftDownBy (s : Sorting α W) (lo root count : ℤ) : Option (Sorting α W) :=
  siftLoop e lo count count.toNat root s

/-- The turns of the first loop of `_sort_heap_by` from `start` downwards. -/
def heapBuild (lo count : ℤ) : ℕ → Sorting α W → Option (Sorting α W)
  | 0, s => some s
  | start + 1, s => do
    let s ← sortSiftDownBy e s lo start count
    heapBuild lo count start s

/-- The turns of the second loop of `_sort_heap_by`: `turns` is `end - 1`. -/
def heapExtract (lo : ℤ) : ℕ → Sorting α W → Option (Sorting α W)
  | 0, s => some s
  | turns + 1, s => do
    let last ← e.arith (lo + ((turns + 1 : ℕ) : ℤ))
    let s ← sortSwap s lo last
    let s ← sortSiftDownBy e s lo 0 ((turns + 1 : ℕ) : ℤ)
    heapExtract lo turns s

def sortHeapBy (s : Sorting α W) (lo hi : ℤ) : Option (Sorting α W) := do
  let count ← e.arith (hi - lo)
  let s ← heapBuild e lo count (count.tdiv 2).toNat s
  heapExtract e lo (count - 1).toNat s

def halvings (n : ℕ) : ℕ := if n ≤ 1 then 0 else halvings (n / 2) + 1

/-- `_sort_depth_limit`. -/
def sortDepthLimit (n : ℤ) : ℕ := halvings n.toNat * 2

/-- The loop of `_sort_intro_by` takes `depth` down with each turn, as the recursive call does. -/
def sortIntroBy : ℕ → Sorting α W → ℤ → ℤ → Option (Sorting α W)
  | 0, s, lo, hi => do
    let width ← e.arith (hi - lo)
    if width > 16 then sortHeapBy e s lo hi else some s
  | depth + 1, s, lo, hi => do
    let width ← e.arith (hi - lo)
    if width > 16 then do
      let (pivot, s) ← sortPartitionBy e s lo hi
      let left ← e.arith (pivot - lo)
      let next ← e.arith (pivot + 1)
      let right ← e.arith (hi - next)
      if left < right then do
        let s ← sortIntroBy depth s lo pivot
        sortIntroBy depth s next hi
      else do
        let s ← sortIntroBy depth s next hi
        sortIntroBy depth s lo pivot
    else
      some s

/-- `len` is the length's lower 32 bits. -/
def Sorting.len (s : Sorting α W) : ℤ := wrap32 s.items.length

def sort (s : Sorting α W) : Option (Sorting α W) :=
  if s.len < 2 then
    some s
  else do
    let rough ← sortIntroBy e (sortDepthLimit s.len) s 0 s.len
    sortInsertionBy e rough 0 s.len

end Algorithm

end NewClLang.IntroSort
