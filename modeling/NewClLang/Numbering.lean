import Mathlib.Data.List.Nodup
import Mathlib.Logic.Function.Basic

set_option autoImplicit false

/-!
# Numbering of items in passes

A pass goes over a list and gives every item whose key has no number yet the next one, counted from
zero in each pass. The numbers outlive the pass.
-/
namespace NewClLang.Numbering

variable {α β : Type} {key : β → α}

/-- The numbers given so far, and the items to which the current pass gave one. -/
structure Numbered (α β : Type) where
  numbers : α → Option ℕ
  listed : List β

def unnumbered : α → Option ℕ := fun _ => none

/-- A number is the position of its item. -/
def Positions (key : β → α) (n : Numbered α β) : Prop :=
  ∀ a i, n.numbers a = some i ↔ n.listed[i]?.map key = some a

theorem positions_unnumbered : Positions key ⟨unnumbered, []⟩ := by
  intro a i
  constructor
  · intro h
    exact absurd h (Option.some_ne_none i).symm
  · intro h
    exact absurd h (by simp)

theorem map_getElem?_concat (xs : List β) (x : β) (a : α) (i : ℕ) :
    (xs ++ [x])[i]?.map key = some a ↔
      xs[i]?.map key = some a ∨ i = xs.length ∧ key x = a := by
  rcases Nat.lt_trichotomy i xs.length with hi | hi | hi
  · rw [List.getElem?_append_left hi]
    constructor
    · exact Or.inl
    · rintro (h | ⟨h, -⟩)
      · exact h
      · omega
  · subst hi
    rw [List.getElem?_concat_length, List.getElem?_eq_none (Nat.le_refl _)]
    simp
  · rw [List.getElem?_eq_none (by simp; omega), List.getElem?_eq_none (by omega)]
    constructor
    · exact Or.inl
    · rintro (h | ⟨h, -⟩)
      · exact h
      · omega

/-- Items with one number have one key. -/
theorem Positions.inj {n : Numbered α β} (h : Positions key n) {a b : α} {i : ℕ}
    (ha : n.numbers a = some i) (hb : n.numbers b = some i) : a = b := by
  have hai := (h a i).1 ha
  rw [(h b i).1 hb] at hai
  exact (Option.some.inj hai).symm

theorem Positions.numbered {n : Numbered α β} (h : Positions key n) {x : β} (hx : x ∈ n.listed) :
    ∃ i, n.numbers (key x) = some i := by
  obtain ⟨i, hi⟩ := List.mem_iff_getElem?.1 hx
  refine ⟨i, (h _ _).2 ?_⟩
  rw [hi]
  rfl

theorem Positions.listed {n : Numbered α β} (h : Positions key n) {a : α} {i : ℕ}
    (ha : n.numbers a = some i) : ∃ x ∈ n.listed, key x = a := by
  have hat := (h a i).1 ha
  obtain ⟨x, hx, hkey⟩ := Option.map_eq_some_iff.1 hat
  exact ⟨x, List.mem_of_getElem? hx, hkey⟩

theorem Positions.at_position {n : Numbered α β} (h : Positions key n) {i : ℕ}
    (hi : i < (n.listed.map key).length) : n.numbers (n.listed.map key)[i] = some i := by
  rw [h, ← List.getElem?_map, List.getElem?_eq_getElem hi]

/-- No key is listed twice. -/
theorem Positions.nodup {n : Numbered α β} (h : Positions key n) : (n.listed.map key).Nodup := by
  rw [List.nodup_iff_injective_getElem]
  intro i j hij
  have hi := h.at_position i.2
  have hsame : (n.listed.map key)[i.1] = (n.listed.map key)[j.1] := hij
  rw [hsame, h.at_position j.2] at hi
  exact Fin.ext (Option.some.inj hi).symm

section Passes
variable [DecidableEq α]

def number (key : β → α) (n : Numbered α β) (x : β) : Numbered α β :=
  match n.numbers (key x) with
  | some _ => n
  | none => ⟨Function.update n.numbers (key x) (some n.listed.length), n.listed ++ [x]⟩

def numberAll (key : β → α) (numbers : α → Option ℕ) (xs : List β) : Numbered α β :=
  xs.foldl (number key) ⟨numbers, []⟩

theorem number_of_some {n : Numbered α β} {x : β} {i : ℕ} (h : n.numbers (key x) = some i) :
    number key n x = n := by
  rw [number, h]

theorem number_of_none {n : Numbered α β} {x : β} (h : n.numbers (key x) = none) :
    number key n x =
      ⟨Function.update n.numbers (key x) (some n.listed.length), n.listed ++ [x]⟩ := by
  rw [number, h]

theorem numbers_number_new {n : Numbered α β} {x : β} (h : n.numbers (key x) = none) :
    (number key n x).numbers (key x) = some n.listed.length := by
  rw [number_of_none h]
  exact Function.update_self ..

theorem numbers_number_of_ne (n : Numbered α β) {x : β} {a : α} (ha : a ≠ key x) :
    (number key n x).numbers a = n.numbers a := by
  cases hx : n.numbers (key x) with
  | some i => rw [number_of_some hx]
  | none =>
    rw [number_of_none hx]
    exact Function.update_of_ne ha ..

theorem positions_number {n : Numbered α β} (h : Positions key n) (x : β) :
    Positions key (number key n x) := by
  cases hx : n.numbers (key x) with
  | some i =>
    rw [number_of_some hx]
    exact h
  | none =>
    intro a i
    have hlisted : (number key n x).listed = n.listed ++ [x] := by rw [number_of_none hx]
    rw [hlisted, map_getElem?_concat, ← h a i]
    by_cases ha : a = key x
    · subst ha
      rw [numbers_number_new hx, hx]
      constructor
      · intro hi
        exact Or.inr ⟨(Option.some.inj hi).symm, rfl⟩
      · rintro (hi | ⟨hi, -⟩)
        · exact absurd hi (by simp)
        · rw [hi]
    · rw [numbers_number_of_ne n ha]
      constructor
      · intro hi
        exact Or.inl hi
      · rintro (hi | ⟨-, hi⟩)
        · exact hi
        · exact absurd hi.symm ha

theorem positions_foldl (xs : List β) :
    ∀ n : Numbered α β, Positions key n → Positions key (xs.foldl (number key) n) := by
  induction xs with
  | nil =>
    intro n h
    exact h
  | cons x xs ih =>
    intro n h
    rw [List.foldl_cons]
    exact ih _ (positions_number h x)

theorem positions_numberAll (xs : List β) : Positions key (numberAll key unnumbered xs) :=
  positions_foldl xs _ positions_unnumbered

theorem numbers_number_self {n : Numbered α β} (x : β) :
    ((number key n x).numbers (key x)).isSome := by
  cases hx : n.numbers (key x) with
  | some i =>
    rw [number_of_some hx, hx]
    rfl
  | none =>
    rw [numbers_number_new hx]
    rfl

theorem numbers_number_isSome {n : Numbered α β} {a : α} (x : β) (h : (n.numbers a).isSome) :
    ((number key n x).numbers a).isSome := by
  by_cases ha : a = key x
  · subst ha
    exact numbers_number_self x
  · rw [numbers_number_of_ne n ha]
    exact h

theorem numbers_foldl_isSome (xs : List β) :
    ∀ n : Numbered α β, ∀ a, ((n.numbers a).isSome ∨ ∃ x ∈ xs, key x = a) →
      ((xs.foldl (number key) n).numbers a).isSome := by
  induction xs with
  | nil =>
    rintro n a (h | ⟨x, hx, -⟩)
    · exact h
    · exact absurd hx List.not_mem_nil
  | cons x xs ih =>
    intro n a h
    rw [List.foldl_cons]
    apply ih
    rcases h with h | ⟨y, hy, rfl⟩
    · exact Or.inl (numbers_number_isSome x h)
    · rcases List.mem_cons.1 hy with rfl | hy
      · exact Or.inl (numbers_number_self y)
      · exact Or.inr ⟨y, hy, rfl⟩

/-- After a pass every item of it has a number. -/
theorem numbered_of_mem (key : β → α) (numbers : α → Option ℕ) {xs : List β} {x : β}
    (hx : x ∈ xs) : ((numberAll key numbers xs).numbers (key x)).isSome :=
  numbers_foldl_isSome xs _ _ (Or.inr ⟨x, hx, rfl⟩)

theorem listed_number {n : Numbered α β} {x y : β} (h : y ∈ (number key n x).listed) :
    y ∈ n.listed ∨ y = x := by
  cases hx : n.numbers (key x) with
  | some i =>
    rw [number_of_some hx] at h
    exact Or.inl h
  | none =>
    rw [number_of_none hx] at h
    simpa using h

theorem listed_foldl (xs : List β) :
    ∀ n : Numbered α β, ∀ y ∈ (xs.foldl (number key) n).listed, y ∈ n.listed ∨ y ∈ xs := by
  induction xs with
  | nil =>
    intro n y h
    exact Or.inl h
  | cons x xs ih =>
    intro n y h
    rw [List.foldl_cons] at h
    rcases ih _ y h with h | h
    · rcases listed_number h with h | rfl
      · exact Or.inl h
      · exact Or.inr List.mem_cons_self
    · exact Or.inr (List.mem_cons_of_mem x h)

theorem mem_of_listed {numbers : α → Option ℕ} {xs : List β} {y : β}
    (h : y ∈ (numberAll key numbers xs).listed) : y ∈ xs := by
  rcases listed_foldl xs _ y h with h | h
  · exact absurd h List.not_mem_nil
  · exact h

/-- A pass over items that all have a number lists nothing and changes nothing. -/
theorem numberAll_numbered {numbers : α → Option ℕ} :
    ∀ {xs : List β}, (∀ x ∈ xs, (numbers (key x)).isSome) →
      numberAll key numbers xs = ⟨numbers, []⟩
  | [], _ => rfl
  | x :: xs, h => by
    obtain ⟨i, hi⟩ := Option.isSome_iff_exists.1 (h x List.mem_cons_self)
    have hx : number key (⟨numbers, []⟩ : Numbered α β) x = ⟨numbers, []⟩ := number_of_some hi
    rw [numberAll, List.foldl_cons, hx]
    exact numberAll_numbered (fun y hy => h y (List.mem_cons_of_mem x hy))

/-- The second pass over the same items lists nothing. -/
theorem numberAll_again (numbers : α → Option ℕ) (xs : List β) :
    numberAll key (numberAll key numbers xs).numbers xs =
      ⟨(numberAll key numbers xs).numbers, []⟩ :=
  numberAll_numbered (fun _ hx => numbered_of_mem key numbers hx)

end Passes

end NewClLang.Numbering
