import NewClLang.Reachability
import Mathlib.Data.Finset.Card
import Mathlib.Logic.Function.Basic

set_option autoImplicit false

/-!
# Depth-first marking

Marking a graph whose edges are words: a word may be the name of a node, and a node holds a list of
words. A node is marked before the words in it are followed, so the depth of the recursion is
bounded by the number of unmarked nodes, whatever the cycles.
-/
namespace NewClLang.DepthFirstMarking
open Reachability

section Marking
variable {α β : Type*} [DecidableEq α] (find : β → Option α) (scan : α → List β)

/-- Marks from a word, up to a depth of nested calls. -/
def markFrom : ℕ → (α → Bool) → β → Option (α → Bool)
  | 0, _, _ => none
  | n + 1, marked, w =>
      match find w with
      | none => some marked
      | some a =>
          if marked a then some marked
          else (scan a).foldlM (markFrom n) (Function.update marked a true)

def markAll (n : ℕ) (marked : α → Bool) (ws : List β) : Option (α → Bool) :=
  ws.foldlM (markFrom find scan n) marked

def pointsTo (a b : α) : Prop := ∃ w ∈ scan a, find w = some b

/-- The nodes that some words name. -/
def named (ws : List β) : Set α := {a | ∃ w ∈ ws, find w = some a}

/-- What marking from some words comes to. -/
structure Marks (ws : List β) (before after : α → Bool) : Prop where
  grows : ∀ a, before a = true → after a = true
  found : ∀ a ∈ named find ws, after a = true
  closed : ∀ a, after a = true → before a = false → ∀ b, pointsTo find scan a b → after b = true
  reached : ∀ a, after a = true → before a = false →
    Reachable (pointsTo find scan) (named find ws) a

variable {find scan} {marked marked' before after last : α → Bool} {w : β} {ws : List β} {a : α}

theorem markAll_nil (n : ℕ) : markAll find scan n marked [] = some marked := rfl

theorem markAll_cons (n : ℕ) :
    markAll find scan n marked (w :: ws) =
      (markFrom find scan n marked w).bind (fun mid => markAll find scan n mid ws) := rfl

theorem markFrom_none (n : ℕ) (hw : find w = none) :
    markFrom find scan (n + 1) marked w = some marked := by
  rw [markFrom, hw]

theorem markFrom_marked (n : ℕ) (hw : find w = some a) (ha : marked a = true) :
    markFrom find scan (n + 1) marked w = some marked := by
  rw [markFrom, hw]
  exact if_pos ha

theorem markFrom_fresh (n : ℕ) (hw : find w = some a) (ha : marked a = false) :
    markFrom find scan (n + 1) marked w =
      markAll find scan n (Function.update marked a true) (scan a) := by
  rw [markFrom, hw]
  exact if_neg (by rw [ha]; exact Bool.false_ne_true)

omit [DecidableEq α] in
theorem marks_nil : Marks find scan [] marked marked where
  grows _ h := h
  found a ha := by
    obtain ⟨w, hw, -⟩ := ha
    exact absurd hw List.not_mem_nil
  closed a ha hno := by
    rw [hno] at ha
    cases ha
  reached a ha hno := by
    rw [hno] at ha
    cases ha

omit [DecidableEq α] in
theorem Marks.append (hfirst : Marks find scan [w] before after)
    (hrest : Marks find scan ws after last) : Marks find scan (w :: ws) before last where
  grows a ha := hrest.grows a (hfirst.grows a ha)
  found a ha := by
    obtain ⟨v, hv, hfind⟩ := ha
    rcases List.mem_cons.1 hv with rfl | hv
    · exact hrest.grows a (hfirst.found a ⟨v, List.mem_singleton_self v, hfind⟩)
    · exact hrest.found a ⟨v, hv, hfind⟩
  closed a ha hno b hedge := by
    cases hmid : after a with
    | true => exact hrest.grows b (hfirst.closed a hmid hno b hedge)
    | false => exact hrest.closed a ha hmid b hedge
  reached a ha hno := by
    cases hmid : after a with
    | true =>
      refine (hfirst.reached a hmid hno).of_roots (fun r hr => reachable_root ?_)
      obtain ⟨v, hv, hfind⟩ := hr
      exact ⟨v, List.mem_cons.2 (Or.inl (List.mem_singleton.1 hv)), hfind⟩
    | false =>
      refine (hrest.reached a ha hmid).of_roots (fun r hr => reachable_root ?_)
      obtain ⟨v, hv, hfind⟩ := hr
      exact ⟨v, List.mem_cons_of_mem w hv, hfind⟩

/-- A node is marked, and then all that its words name. -/
theorem Marks.enter (hw : find w = some a)
    (h : Marks find scan (scan a) (Function.update before a true) after) :
    Marks find scan [w] before after := by
  have hentered : after a = true := h.grows a (Function.update_self ..)
  have hroot : Reachable (pointsTo find scan) (named find [w]) a :=
    reachable_root ⟨w, List.mem_singleton_self w, hw⟩
  constructor
  case grows =>
    intro b hb
    apply h.grows b
    by_cases hba : b = a
    · rw [hba, Function.update_self]
    · rwa [Function.update_of_ne hba]
  case found =>
    rintro b ⟨v, hv, hfind⟩
    rw [List.mem_singleton.1 hv, hw] at hfind
    rwa [← Option.some.inj hfind]
  case closed =>
    intro b hb hno c hedge
    by_cases hba : b = a
    · rw [hba] at hedge
      exact h.found c hedge
    · exact h.closed b hb (by rwa [Function.update_of_ne hba]) c hedge
  case reached =>
    intro b hb hno
    by_cases hba : b = a
    · rwa [hba]
    · refine (h.reached b hb (by rwa [Function.update_of_ne hba])).of_roots (fun r hr => ?_)
      exact hroot.step hr

theorem markAll_marks {n : ℕ}
    (hfrom : ∀ marked w marked', markFrom find scan n marked w = some marked' →
      Marks find scan [w] marked marked')
    (h : markAll find scan n before ws = some after) : Marks find scan ws before after := by
  induction ws generalizing before with
  | nil =>
    cases h
    exact marks_nil
  | cons w ws ih =>
    rw [markAll_cons] at h
    obtain ⟨mid, hfirst, hrest⟩ := Option.bind_eq_some_iff.1 h
    exact (hfrom before w mid hfirst).append (ih hrest)

theorem markFrom_marks (n : ℕ) (marked : α → Bool) (w : β) (marked' : α → Bool)
    (h : markFrom find scan n marked w = some marked') : Marks find scan [w] marked marked' := by
  induction n generalizing marked w marked' with
  | zero => cases h
  | succ n ih =>
    cases hw : find w with
    | none =>
      rw [markFrom_none n hw] at h
      cases h
      refine ⟨fun a ha => ha, ?_, marks_nil.closed, fun a ha hno => ?_⟩
      · rintro a ⟨v, hv, hfind⟩
        rw [List.mem_singleton.1 hv, hw] at hfind
        cases hfind
      · rw [hno] at ha
        cases ha
    | some a =>
      cases ha : marked a with
      | true =>
        rw [markFrom_marked n hw ha] at h
        cases h
        refine ⟨fun b hb => hb, ?_, marks_nil.closed, fun b hb hno => ?_⟩
        · rintro b ⟨v, hv, hfind⟩
          rw [List.mem_singleton.1 hv, hw] at hfind
          rwa [← Option.some.inj hfind]
        · rw [hno] at hb
          cases hb
      | false =>
        rw [markFrom_fresh n hw ha] at h
        exact Marks.enter hw (markAll_marks ih h)

theorem markAll_more {n m : ℕ}
    (hfrom : ∀ marked w marked', markFrom find scan n marked w = some marked' →
      markFrom find scan m marked w = some marked')
    (h : markAll find scan n before ws = some after) :
    markAll find scan m before ws = some after := by
  induction ws generalizing before with
  | nil => exact h
  | cons w ws ih =>
    rw [markAll_cons] at h ⊢
    obtain ⟨mid, hfirst, hrest⟩ := Option.bind_eq_some_iff.1 h
    rw [hfrom before w mid hfirst]
    exact ih hrest

/-- A greater depth changes nothing. -/
theorem markFrom_more {n m : ℕ} (hnm : n ≤ m) (marked : α → Bool) (w : β) (marked' : α → Bool)
    (h : markFrom find scan n marked w = some marked') :
    markFrom find scan m marked w = some marked' := by
  induction n generalizing m marked w marked' with
  | zero => cases h
  | succ n ih =>
    obtain ⟨m, rfl⟩ := Nat.exists_eq_add_of_le' (Nat.lt_of_lt_of_le (Nat.succ_pos n) hnm)
    cases hw : find w with
    | none =>
      rw [markFrom_none n hw] at h
      rw [markFrom_none m hw, h]
    | some a =>
      cases ha : marked a with
      | true =>
        rw [markFrom_marked n hw ha] at h
        rw [markFrom_marked m hw ha, h]
      | false =>
        rw [markFrom_fresh n hw ha] at h
        rw [markFrom_fresh m hw ha]
        exact markAll_more (ih (Nat.le_of_succ_le_succ hnm)) h

end Marking

section Termination
variable {α β : Type*} [DecidableEq α] {find : β → Option α} {scan : α → List β}
  {nodes : Finset α} {before after : α → Bool}

def unmarked (nodes : Finset α) (marked : α → Bool) : Finset α :=
  nodes.filter (fun a => marked a = false)

omit [DecidableEq α] in
theorem unmarked_mono (h : ∀ a, before a = true → after a = true) :
    unmarked nodes after ⊆ unmarked nodes before := by
  intro a ha
  obtain ⟨hmem, hno⟩ := Finset.mem_filter.1 ha
  refine Finset.mem_filter.2 ⟨hmem, ?_⟩
  cases hbefore : before a with
  | false => rfl
  | true =>
    rw [h a hbefore] at hno
    cases hno

theorem unmarked_enter {a : α} (hmem : a ∈ nodes) (ha : before a = false) :
    (unmarked nodes (Function.update before a true)).card < (unmarked nodes before).card := by
  apply Finset.card_lt_card
  refine ⟨unmarked_mono (fun b hb => ?_), fun hsub => ?_⟩
  · by_cases hba : b = a
    · rw [hba, Function.update_self]
    · rwa [Function.update_of_ne hba]
  · have hin : a ∈ unmarked nodes before := Finset.mem_filter.2 ⟨hmem, ha⟩
    have hout := (Finset.mem_filter.1 (hsub hin)).2
    rw [Function.update_self] at hout
    cases hout

/-- A list of words needs no greater depth than each of them. -/
theorem markAll_of_markFrom {n : ℕ}
    (hfrom : ∀ (marked : α → Bool) (w : β), (unmarked nodes marked).card < n →
      ∃ marked', markFrom find scan n marked w = some marked')
    (ws : List β) {marked : α → Bool} (hmarked : (unmarked nodes marked).card < n) :
    ∃ marked', markAll find scan n marked ws = some marked' := by
  induction ws generalizing marked with
  | nil => exact ⟨marked, rfl⟩
  | cons v ws ih =>
    obtain ⟨mid, hfirst⟩ := hfrom marked v hmarked
    have hgrows := (markFrom_marks n marked v mid hfirst).grows
    have hle : (unmarked nodes mid).card ≤ (unmarked nodes marked).card :=
      Finset.card_le_card (unmarked_mono hgrows)
    obtain ⟨marked', hrest⟩ := ih (Nat.lt_of_le_of_lt hle hmarked)
    refine ⟨marked', ?_⟩
    rw [markAll_cons, hfirst]
    exact hrest

/-- The depth that is needed is bounded by the number of unmarked nodes. -/
theorem markFrom_terminates (hfind : ∀ w a, find w = some a → a ∈ nodes) (n : ℕ)
    (marked : α → Bool) (w : β) (hn : (unmarked nodes marked).card < n) :
    ∃ marked', markFrom find scan n marked w = some marked' := by
  induction n generalizing marked w with
  | zero => exact absurd hn (Nat.not_lt_zero _)
  | succ n ih =>
    cases hw : find w with
    | none => exact ⟨marked, markFrom_none n hw⟩
    | some a =>
      cases ha : marked a with
      | true => exact ⟨marked, markFrom_marked n hw ha⟩
      | false =>
        have hless := unmarked_enter (hfind w a hw) ha
        obtain ⟨marked', h⟩ := markAll_of_markFrom ih (scan a)
          (Nat.lt_of_lt_of_le hless (Nat.lt_succ_iff.1 hn))
        exact ⟨marked', (markFrom_fresh n hw ha).trans h⟩

theorem markAll_terminates (hfind : ∀ w a, find w = some a → a ∈ nodes) {n : ℕ}
    {marked : α → Bool} (ws : List β) (hn : (unmarked nodes marked).card < n) :
    ∃ marked', markAll find scan n marked ws = some marked' :=
  markAll_of_markFrom (markFrom_terminates hfind n) ws hn

/-- If no node is marked, exactly those are marked that are reachable from the words. -/
theorem markAll_reachable (hfind : ∀ w a, find w = some a → a ∈ nodes) {n : ℕ}
    (hn : nodes.card < n) {marked : α → Bool} (hclear : ∀ a ∈ nodes, marked a = false)
    (ws : List β) :
    ∃ marked', markAll find scan n marked ws = some marked' ∧
      ∀ a ∈ nodes, marked' a = true ↔ Reachable (pointsTo find scan) (named find ws) a := by
  have hstart : (unmarked nodes marked).card < n :=
    Nat.lt_of_le_of_lt (Finset.card_filter_le _ _) hn
  obtain ⟨marked', h⟩ := markAll_terminates hfind ws hstart
  have hmarks := markAll_marks (markFrom_marks n) h
  refine ⟨marked', h, fun a ha => ⟨fun hmarked => ?_, fun hreach => ?_⟩⟩
  · exact hmarks.reached a hmarked (hclear a ha)
  · have hnode : ∀ b, b ∈ named find ws → b ∈ nodes := fun b ⟨w, _, hw⟩ => hfind w b hw
    have hall := Reachable.mem_of_closed (S := {b | b ∈ nodes ∧ marked' b = true}) hreach
      (fun b hb => ⟨hnode b hb, hmarks.found b hb⟩)
      (fun b hb c hedge => ⟨hfind _ c hedge.choose_spec.2,
        hmarks.closed b hb.2 (hclear b hb.1) c hedge⟩)
    exact hall.2

end Termination

end NewClLang.DepthFirstMarking
