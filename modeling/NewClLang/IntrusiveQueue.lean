import Mathlib.Logic.Function.Basic
import Mathlib.Data.List.Nodup

set_option autoImplicit false

/-!
# Queues through the elements

A queue with a pointer to its first element and one to its last one, the link to the next element
being a field of each element. An operation has no result where it follows a pointer to an element
that is not allocated.
-/
namespace NewClLang.IntrusiveQueue

structure Queue (α : Type*) where
  head : Option α
  tail : Option α

def Queue.empty {α : Type*} : Queue α := ⟨none, none⟩

section Operations
variable {α : Type*} [DecidableEq α] (alive : α → Bool)

def load (next : α → Option α) (a : α) : Option (Option α) :=
  if alive a then some (next a) else none

def store (next : α → Option α) (a : α) (pointer : Option α) : Option (α → Option α) :=
  if alive a then some (Function.update next a pointer) else none

def linkLast (next : α → Option α) (q : Queue α) (a : α) : Option ((α → Option α) × Queue α) :=
  match q.tail with
  | some b => (store alive next b (some a)).map fun next => (next, ⟨q.head, some a⟩)
  | none => some (next, ⟨some a, some a⟩)

/-- The link of the new element is cleared before the queue is changed. -/
def push (next : α → Option α) (q : Queue α) (a : α) : Option ((α → Option α) × Queue α) := do
  let next ← store alive next a none
  linkLast alive next q a

/-- The link of the new element is cleared after the queue is changed. -/
def append (next : α → Option α) (q : Queue α) (a : α) : Option ((α → Option α) × Queue α) := do
  let (next, q) ← linkLast alive next q a
  let next ← store alive next a none
  some (next, q)

def pop (next : α → Option α) (q : Queue α) :
    Option (Option α × (α → Option α) × Queue α) :=
  match q.head with
  | none => some (none, next, q)
  | some a => do
      let head ← load alive next a
      let next ← store alive next a none
      some (some a, next, ⟨head, if head.isNone then none else q.tail⟩)

end Operations

section Chains
variable {α : Type*} {next next' : α → Option α} {p : Option α} {xs : List α} {a : α}

/-- The elements from a pointer on are those of a list. -/
inductive Chain (next : α → Option α) : Option α → List α → Prop where
  | nil : Chain next none []
  | cons {a : α} {rest : List α} (h : Chain next (next a) rest) : Chain next (some a) (a :: rest)

/-- A chain depends on the links of its own elements only. -/
theorem Chain.congr (h : Chain next p xs) (hsame : ∀ b ∈ xs, next' b = next b) :
    Chain next' p xs := by
  induction h with
  | nil => exact .nil
  | @cons b rest _ ih =>
    have hrest := ih fun c hc => hsame c (List.mem_cons_of_mem _ hc)
    rw [← hsame b List.mem_cons_self] at hrest
    exact .cons hrest

/-- An element is put behind the last one. -/
theorem Chain.concat {b : α} (h : Chain next p (xs ++ [b])) (hnodup : (xs ++ [b]).Nodup)
    (hsame : ∀ c ∈ xs, next' c = next c) (hlast : next' b = some a) (hnew : next' a = none) :
    Chain next' p (xs ++ [b, a]) := by
  induction xs generalizing p with
  | nil =>
    cases h with
    | cons _ =>
      refine .cons ?_
      rw [hlast]
      refine .cons ?_
      rw [hnew]
      exact .nil
  | cons c xs ih =>
    cases h with
    | cons h =>
      have hrest := ih h (List.nodup_cons.mp hnodup).2 fun d hd =>
        hsame d (List.mem_cons_of_mem _ hd)
      rw [← hsame c List.mem_cons_self] at hrest
      exact .cons hrest

end Chains

section Contents
variable {α : Type*} {next next' : α → Option α} {q : Queue α} {xs : List α} {a : α}

/-- The queue is that of a list in which no element occurs twice. -/
structure Holds (next : α → Option α) (q : Queue α) (xs : List α) : Prop where
  chain : Chain next q.head xs
  tail : q.tail = xs.getLast?
  nodup : xs.Nodup

theorem holds_empty (next : α → Option α) : Holds next Queue.empty [] :=
  ⟨.nil, rfl, List.nodup_nil⟩

theorem Holds.congr (h : Holds next q xs) (hsame : ∀ b ∈ xs, next' b = next b) :
    Holds next' q xs :=
  ⟨h.chain.congr hsame, h.tail, h.nodup⟩

/-- The result of an operation, and the elements whose links it leaves as they are. -/
structure Replaced (next next' : α → Option α) (q' : Queue α) (xs : List α)
    (changed : List α) : Prop where
  holds : Holds next' q' xs
  frame : ∀ b, b ∉ changed → next' b = next b

theorem nodup_concat (h : xs.Nodup) (hnew : a ∉ xs) : (xs ++ [a]).Nodup := by
  rw [List.nodup_append]
  refine ⟨h, List.nodup_singleton a, ?_⟩
  rintro b hb c hc rfl
  exact hnew (List.mem_singleton.mp hc ▸ hb)

end Contents

section Results
variable {α : Type*} [DecidableEq α] {alive : α → Bool} {next next' : α → Option α}
variable {q : Queue α} {xs : List α} {a : α}

/-- `linkLast` once the link of the new element is cleared. -/
theorem linkLast_holds (h : Holds next q xs) (halive : ∀ b ∈ xs, alive b = true)
    (hnew : a ∉ xs) (hclear : next a = none) :
    ∃ next' q', linkLast alive next q a = some (next', q') ∧
      Replaced next next' q' (xs ++ [a]) xs := by
  rw [linkLast, h.tail]
  rcases List.eq_nil_or_concat' xs with rfl | ⟨ys, b, rfl⟩
  · refine ⟨next, ⟨some a, some a⟩, rfl, ⟨.cons ?_, rfl, List.nodup_singleton a⟩, fun _ _ => rfl⟩
    rw [hclear]
    exact .nil
  · have hb : alive b = true := halive b (List.mem_append_right _ (List.mem_singleton_self b))
    have hne : a ≠ b :=
      (ne_of_mem_of_not_mem (List.mem_append_right _ (List.mem_singleton_self b)) hnew).symm
    have hfresh : b ∉ ys := fun hin => by
      have := List.nodup_append.mp h.nodup
      exact this.2.2 b hin b (List.mem_singleton_self b) rfl
    rw [List.getLast?_concat]
    simp only [store, if_pos hb, Option.map_some]
    refine ⟨_, _, rfl, ⟨?_, ?_, nodup_concat h.nodup hnew⟩, ?_⟩
    · rw [List.append_assoc]
      refine h.chain.concat h.nodup ?_ (Function.update_self ..) ?_
      · exact fun c hc => Function.update_of_ne (ne_of_mem_of_not_mem hc hfresh) ..
      · rw [Function.update_of_ne hne, hclear]
    · rw [List.getLast?_concat]
    · intro c hc
      refine Function.update_of_ne ?_ ..
      rintro rfl
      exact hc (List.mem_append_right _ (List.mem_singleton_self c))

theorem push_holds (h : Holds next q xs) (halive : ∀ b ∈ xs, alive b = true)
    (ha : alive a = true) (hnew : a ∉ xs) :
    ∃ next' q', push alive next q a = some (next', q') ∧
      Replaced next next' q' (xs ++ [a]) (a :: xs) := by
  have hcleared : Holds (Function.update next a none) q xs :=
    h.congr fun b hb => Function.update_of_ne (ne_of_mem_of_not_mem hb hnew) ..
  obtain ⟨next', q', hlink, hholds, hframe⟩ :=
    linkLast_holds hcleared halive hnew (Function.update_self ..)
  refine ⟨next', q', ?_, hholds, ?_⟩
  · rw [push, store, if_pos ha]
    exact hlink
  · intro b hb
    rw [List.mem_cons, not_or] at hb
    rw [hframe b hb.2, Function.update_of_ne hb.1]

/-- The order of the two stores makes no difference, as the new element is not the last one. -/
theorem append_eq_push (h : q.tail ≠ some a) : append alive next q a = push alive next q a := by
  cases htail : q.tail with
  | none =>
    simp only [append, push, linkLast, htail, store]
    by_cases ha : alive a = true <;> simp [ha]
  | some b =>
    have hne : b ≠ a := by
      rintro rfl
      exact h htail
    simp only [append, push, linkLast, htail, store]
    by_cases ha : alive a = true <;> by_cases hb : alive b = true <;>
      simp [ha, hb, Function.update_comm hne]

theorem append_holds (h : Holds next q xs) (halive : ∀ b ∈ xs, alive b = true)
    (ha : alive a = true) (hnew : a ∉ xs) :
    ∃ next' q', append alive next q a = some (next', q') ∧
      Replaced next next' q' (xs ++ [a]) (a :: xs) := by
  have htail : q.tail ≠ some a := by
    rw [h.tail]
    exact fun hlast => hnew (List.mem_of_getLast? hlast)
  rw [append_eq_push htail]
  exact push_holds h halive ha hnew

theorem pop_nil (h : Holds next q []) : pop alive next q = some (none, next, q) := by
  have hhead : q.head = none := by
    cases hchain : q.head with
    | none => rfl
    | some b =>
      have := h.chain
      rw [hchain] at this
      cases this
  rw [pop, hhead]

theorem pop_cons (h : Holds next q (a :: xs)) (ha : alive a = true) :
    ∃ next' q', pop alive next q = some (some a, next', q') ∧ Replaced next next' q' xs [a] := by
  obtain ⟨hchain, htail, hnodup⟩ := h
  obtain ⟨hfresh, hrest⟩ := List.nodup_cons.mp hnodup
  cases hhead : q.head with
  | none =>
    rw [hhead] at hchain
    cases hchain
  | some b =>
    rw [hhead] at hchain
    cases hchain with
    | cons hchain =>
      rw [pop, hhead]
      simp only [load, store, if_pos ha, Option.bind_eq_bind, Option.bind_some]
      refine ⟨_, _, rfl, ⟨?_, ?_, hrest⟩, fun b hb => Function.update_of_ne (by simpa using hb) ..⟩
      · exact hchain.congr fun b hb => Function.update_of_ne (ne_of_mem_of_not_mem hb hfresh) ..
      · dsimp only
        rw [htail]
        generalize next a = p at hchain
        cases hchain <;> rfl

end Results

end NewClLang.IntrusiveQueue
