import Mathlib.Data.List.Basic

set_option autoImplicit false

/-!
# Texts with brackets

Texts in which the brackets of several pairs match, what stands before the bracket that closes one,
and the parts between the separators outside all brackets.
-/
namespace NewClLang.NestedTexts

section Texts
variable {α : Type}

/-- The brackets match. The flag tells whether a separator may stand outside of them. -/
inductive Nested (pairs : List (α × α)) (sep : α) : Bool → List α → Prop where
  | nil {outside : Bool} : Nested pairs sep outside []
  | plain {outside : Bool} {c : α} {t : List α} (hc : ∀ p ∈ pairs, c ≠ p.1 ∧ c ≠ p.2)
      (hsep : c = sep → outside = true) (ht : Nested pairs sep outside t) :
      Nested pairs sep outside (c :: t)
  | enclosed {outside : Bool} {o c : α} {s t : List α} (hp : (o, c) ∈ pairs)
      (hs : Nested pairs sep true s) (ht : Nested pairs sep outside t) :
      Nested pairs sep outside (o :: (s ++ c :: t))

variable {pairs : List (α × α)} {sep : α} {outside : Bool} {s t : List α}

theorem Nested.append (hs : Nested pairs sep outside s) (ht : Nested pairs sep outside t) :
    Nested pairs sep outside (s ++ t) := by
  induction hs with
  | nil => exact ht
  | plain hc hsep _ ih => exact .plain hc hsep (ih ht)
  | @enclosed outside o c s t' hp hs _ _ ih =>
    have happend : o :: (s ++ c :: t') ++ t = o :: (s ++ c :: (t' ++ t)) := by simp
    rw [happend]
    exact .enclosed hp hs (ih ht)

/-- Where separators may stand outside the brackets, a text without them is in order too. -/
theorem Nested.weaken (hs : Nested pairs sep outside s) : Nested pairs sep true s := by
  induction hs with
  | nil => exact .nil
  | plain hc _ _ ih => exact .plain hc (fun _ => rfl) ih
  | enclosed hp hs _ _ ih => exact .enclosed hp hs ih

theorem nested_plain (h : ∀ c ∈ s, c ≠ sep ∧ ∀ p ∈ pairs, c ≠ p.1 ∧ c ≠ p.2) :
    Nested pairs sep outside s := by
  induction s with
  | nil => exact .nil
  | cons c s ih =>
    have hc := h c List.mem_cons_self
    exact .plain hc.2 (fun heq => absurd heq hc.1) (ih (fun x hx => h x (List.mem_cons_of_mem c hx)))

theorem nested_join (hsep : ∀ p ∈ pairs, sep ≠ p.1 ∧ sep ≠ p.2) {ts : List (List α)}
    (h : ∀ t ∈ ts, Nested pairs sep true t) : Nested pairs sep true ([sep].intercalate ts) := by
  induction ts with
  | nil => exact .nil
  | cons t ts ih =>
    have ht := h t List.mem_cons_self
    have hts := ih (fun u hu => h u (List.mem_cons_of_mem t hu))
    cases ts with
    | nil => simpa using ht
    | cons u ts =>
      rw [List.intercalate_cons_cons]
      exact (ht.append (.plain hsep (fun _ => rfl) .nil)).append hts

end Texts

section Matching
variable {α : Type} [DecidableEq α]

/-- What stands before the bracket that closes the `depth + 1` open ones, and what stands behind
    it. -/
def closing (o c : α) : ℕ → List α → Option (List α × List α)
  | _, [] => none
  | depth, x :: rest =>
    if x = o then (closing o c (depth + 1) rest).map (Prod.map (x :: ·) id)
    else if x = c then
      if depth = 0 then some ([], rest)
      else (closing o c (depth - 1) rest).map (Prod.map (x :: ·) id)
    else (closing o c depth rest).map (Prod.map (x :: ·) id)

/-- The brackets of a pair are two, and no other pair has one of them. -/
def Apart (pairs : List (α × α)) (o c : α) : Prop :=
  o ≠ c ∧ ∀ p ∈ pairs, p = (o, c) ∨ p.1 ≠ o ∧ p.1 ≠ c ∧ p.2 ≠ o ∧ p.2 ≠ c

variable {pairs : List (α × α)} {sep o c : α} {outside : Bool} {s : List α}

theorem closing_other {x : α} (ho : x ≠ o) (hc : x ≠ c) (depth : ℕ) (rest : List α) :
    closing o c depth (x :: rest) = (closing o c depth rest).map (Prod.map (x :: ·) id) := by
  rw [closing, if_neg ho, if_neg hc]

omit [DecidableEq α] in
theorem map_nothing (found : Option (List α × List α)) :
    found.map (Prod.map ([] ++ ·) id) = found := by
  cases found <;> rfl

omit [DecidableEq α] in
theorem map_prepend (found : Option (List α × List α)) (s t : List α) :
    (found.map (Prod.map (t ++ ·) id)).map (Prod.map (s ++ ·) id) =
      found.map (Prod.map (s ++ t ++ ·) id) := by
  cases found with
  | none => rfl
  | some found => simp [Prod.map]

/-- A nested text is passed over at every depth. -/
theorem Nested.closing_append (hs : Nested pairs sep outside s) (hpair : (o, c) ∈ pairs)
    (hapart : Apart pairs o c) (depth : ℕ) (rest : List α) :
    closing o c depth (s ++ rest) = (closing o c depth rest).map (Prod.map (s ++ ·) id) := by
  induction hs generalizing depth rest with
  | nil => exact (map_nothing _).symm
  | @plain outside x t hx _ _ ih =>
    obtain ⟨ho, hc⟩ := hx (o, c) hpair
    rw [List.cons_append, closing_other ho hc, ih]
    exact map_prepend _ [x] t
  | @enclosed outside o' c' s t hp _ _ ihs iht =>
    have happend : o' :: (s ++ c' :: t) ++ rest = o' :: (s ++ c' :: (t ++ rest)) := by simp
    rw [happend]
    rcases hapart.2 (o', c') hp with heq | ⟨hoo, hoc, hco, hcc⟩
    · cases heq
      rw [closing, if_pos rfl, ihs, closing, if_neg hapart.1.symm, if_pos rfl, if_neg (Nat.succ_ne_zero depth)]
      change (((closing o c depth (t ++ rest)).map (Prod.map ([c] ++ ·) id)).map
        (Prod.map (s ++ ·) id)).map (Prod.map ([o] ++ ·) id) = _
      rw [iht, map_prepend, map_prepend, map_prepend]
      simp
    · rw [closing_other hoo hoc, ihs, closing_other hco hcc, iht]
      change ((((closing o c depth rest).map (Prod.map (t ++ ·) id)).map
        (Prod.map ([c'] ++ ·) id)).map (Prod.map (s ++ ·) id)).map (Prod.map ([o'] ++ ·) id) = _
      rw [map_prepend, map_prepend, map_prepend]
      simp

/-- The bracket that closes a nested text is found behind it. -/
theorem Nested.closing_eq (hs : Nested pairs sep outside s) (hpair : (o, c) ∈ pairs)
    (hapart : Apart pairs o c) (rest : List α) :
    closing o c 0 (s ++ c :: rest) = some (s, rest) := by
  rw [hs.closing_append hpair hapart, closing, if_neg hapart.1.symm, if_pos rfl, if_pos rfl]
  simp

end Matching

end NewClLang.NestedTexts
