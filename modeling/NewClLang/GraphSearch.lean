import Mathlib.Logic.Relation
import Mathlib.Data.List.Basic
import Mathlib.Tactic.Common

set_option autoImplicit false

/-!
# Depth-first search with marks

A search through a graph for a bad node. Each node is marked with its key when it is reached, and a
node whose key is marked is passed over.
-/
namespace NewClLang.GraphSearch

section Definitions
variable {α κ : Type*} [DecidableEq κ]

/-- What the search makes of a node. -/
inductive Verdict (α : Type*) where
  | good
  | bad
  | parts (items : List α)

/-- The bad node that ends the search, if there is one, and the marks. -/
abbrev Found (α κ : Type*) := Option α × List κ

/-- The nodes one after the other. -/
def searchAll (search : α → List κ → Option (Found α κ)) : List α → List κ → Option (Found α κ)
  | [], seen => some (none, seen)
  | x :: xs, seen =>
    match search x seen with
    | some (none, seen) => searchAll search xs seen
    | found => found

/-- The fuel bounds the nesting of the calls. There is no result where it runs out, or where `look`
    has none. -/
def search (look : α → Option (κ × Verdict α)) : ℕ → α → List κ → Option (Found α κ)
  | 0, _, _ => none
  | fuel + 1, x, seen =>
    match look x with
    | none => none
    | some (key, verdict) =>
      if key ∈ seen then some (none, seen)
      else
        match verdict with
        | .good => some (none, key :: seen)
        | .bad => some (some x, key :: seen)
        | .parts items => searchAll (search look fuel) items (key :: seen)

end Definitions

section Paths
variable {α κ : Type*} (look : α → Option (κ × Verdict α))

def Part (x y : α) : Prop := ∃ key items, look x = some (key, .parts items) ∧ y ∈ items

def Bad (x : α) : Prop := ∃ key, look x = some (key, .bad)

abbrev Reaches : α → α → Prop := Relation.ReflTransGen (Part look)

/-- The search looks at nodes of a domain only, and nodes with one key are alike. -/
structure Lawful (domain : α → Prop) : Prop where
  defined : ∀ x, domain x → ∃ found, look x = some found
  closed : ∀ x y, domain x → Part look x y → domain y
  alike_bad : ∀ x y key v, domain x → domain y → look x = some (key, .bad) →
    look y = some (key, v) → v = .bad
  alike_parts : ∀ x y key items v, domain x → domain y → look x = some (key, .parts items) →
    look y = some (key, v) → ∃ items', v = .parts items' ∧
      ∀ z ∈ items, ∃ z' ∈ items', (look z').map Prod.fst = (look z).map Prod.fst

end Paths

section Results
variable {α κ : Type*} [DecidableEq κ] {look : α → Option (κ × Verdict α)}

omit [DecidableEq κ] in
theorem searchAll_cons {search : α → List κ → Option (Found α κ)} {x : α} {xs : List α}
    {seen : List κ} {out : Found α κ} (h : searchAll search (x :: xs) seen = some out) :
    (∃ e, out.1 = some e ∧ search x seen = some out) ∨
      ∃ seen', search x seen = some (none, seen') ∧ searchAll search xs seen' = some out := by
  rw [searchAll] at h
  cases hx : search x seen with
  | none =>
    rw [hx] at h
    cases h
  | some found =>
    obtain ⟨error, seen'⟩ := found
    rw [hx] at h
    cases error with
    | none => exact Or.inr ⟨seen', rfl, h⟩
    | some e =>
      cases h
      exact Or.inl ⟨e, rfl, rfl⟩

/-- What ends the search is bad and can be reached. -/
theorem search_bad {fuel : ℕ} {x e : α} {seen seen' : List κ}
    (h : search look fuel x seen = some (some e, seen')) : Reaches look x e ∧ Bad look e := by
  induction fuel generalizing x seen with
  | zero => cases h
  | succ fuel ih =>
    rw [search] at h
    cases hlook : look x with
    | none =>
      rw [hlook] at h
      cases h
    | some found =>
      obtain ⟨key, verdict⟩ := found
      rw [hlook] at h
      dsimp only at h
      by_cases hseen : key ∈ seen
      · rw [if_pos hseen] at h
        cases h
      · rw [if_neg hseen] at h
        cases verdict with
        | good => cases h
        | bad =>
          cases h
          exact ⟨.refl, key, hlook⟩
        | parts items =>
          have hall : ∀ (rest : List α) (marks : List κ), (∀ y ∈ rest, Part look x y) →
              searchAll (search look fuel) rest marks = some (some e, seen') →
                Reaches look x e ∧ Bad look e := by
            intro rest
            induction rest with
            | nil =>
              intro marks _ hrest
              cases hrest
            | cons y rest ihrest =>
              intro marks hparts hrest
              rcases searchAll_cons hrest with ⟨_, _, hy⟩ | ⟨marks', _, hrest'⟩
              · obtain ⟨hreach, hbad⟩ := ih hy
                exact ⟨.head (hparts y List.mem_cons_self) hreach, hbad⟩
              · exact ihrest marks' (fun z hz => hparts z (List.mem_cons_of_mem y hz)) hrest'
          exact hall items _ (fun y hy => ⟨key, items, hlook, hy⟩) h

/-- The nodes that have been marked meanwhile are not bad, and their parts are marked. -/
def Cleared (look : α → Option (κ × Verdict α)) (domain : α → Prop) (seen seen' : List κ) : Prop :=
  ∀ x key v, domain x → look x = some (key, v) → key ∈ seen' → key ∉ seen →
    v ≠ .bad ∧ ∀ y, Part look x y → ∀ k w, look y = some (k, w) → k ∈ seen'

variable {domain : α → Prop}

theorem Cleared.trans {s₁ s₂ s₃ : List κ} (h : Cleared look domain s₁ s₂)
    (h' : Cleared look domain s₂ s₃) (hsub : s₂ ⊆ s₃) : Cleared look domain s₁ s₃ := by
  intro x key v hx hlook hmem hnot
  by_cases hmiddle : key ∈ s₂
  · obtain ⟨hbad, hparts⟩ := h x key v hx hlook hmiddle hnot
    exact ⟨hbad, fun y hy k w hk => hsub (hparts y hy k w hk)⟩
  · exact h' x key v hx hlook hmem hmiddle

/-- A search without result has marked the node and cleared what it has marked. -/
structure Passed (look : α → Option (κ × Verdict α)) (domain : α → Prop) (seen : List κ) (x : α)
    (seen' : List κ) : Prop where
  grows : seen ⊆ seen'
  marked : ∀ key v, look x = some (key, v) → key ∈ seen'
  cleared : Cleared look domain seen seen'

theorem searchAll_passed {search : α → List κ → Option (Found α κ)}
    (hsearch : ∀ y seen seen', domain y → search y seen = some (none, seen') →
      Passed look domain seen y seen')
    {xs : List α} {seen seen' : List κ} (hxs : ∀ y ∈ xs, domain y)
    (h : searchAll search xs seen = some (none, seen')) :
    seen ⊆ seen' ∧ (∀ y ∈ xs, ∀ key v, look y = some (key, v) → key ∈ seen') ∧
      Cleared look domain seen seen' := by
  induction xs generalizing seen with
  | nil =>
    cases h
    exact ⟨List.Subset.refl _, fun y hy => absurd hy List.not_mem_nil,
      fun x key v _ _ hmem hnot => absurd hmem hnot⟩
  | cons x xs ih =>
    rcases searchAll_cons h with ⟨e, he, _⟩ | ⟨middle, hx, hrest⟩
    · cases he
    · have hpassed := hsearch x seen middle (hxs x List.mem_cons_self) hx
      obtain ⟨hgrows, hmarked, hcleared⟩ := ih (fun y hy => hxs y (List.mem_cons_of_mem x hy)) hrest
      refine ⟨List.Subset.trans hpassed.grows hgrows, ?_, hpassed.cleared.trans hcleared hgrows⟩
      intro y hy key v hlook
      rcases List.mem_cons.mp hy with rfl | hy
      · exact hgrows (hpassed.marked key v hlook)
      · exact hmarked y hy key v hlook

theorem search_passed (hl : Lawful look domain) {fuel : ℕ} {x : α} {seen seen' : List κ}
    (hx : domain x) (h : search look fuel x seen = some (none, seen')) :
    Passed look domain seen x seen' := by
  induction fuel generalizing x seen seen' with
  | zero => cases h
  | succ fuel ih =>
    rw [search] at h
    cases hlook : look x with
    | none =>
      rw [hlook] at h
      cases h
    | some found =>
      obtain ⟨key, verdict⟩ := found
      rw [hlook] at h
      dsimp only at h
      by_cases hseen : key ∈ seen
      · rw [if_pos hseen] at h
        cases h
        refine ⟨List.Subset.refl _, ?_, fun y k v _ _ hmem hnot => absurd hmem hnot⟩
        intro k v hk
        rw [hlook] at hk
        cases hk
        exact hseen
      · rw [if_neg hseen] at h
        cases verdict with
        | bad => cases h
        | good =>
          cases h
          refine ⟨List.subset_cons_self key seen, ?_, ?_⟩
          · intro k v hk
            rw [hlook] at hk
            cases hk
            exact List.mem_cons_self
          · intro y k v hy hk hmem hnot
            have heq : k = key := (List.mem_cons.mp hmem).resolve_right hnot
            subst heq
            refine ⟨?_, ?_⟩
            · rintro rfl
              have hgood := hl.alike_bad y x k .good hy hx hk hlook
              cases hgood
            · rintro z ⟨k', items, hitems, hz⟩
              obtain ⟨items', hgood, _⟩ := hl.alike_parts y x k' items .good hy hx hitems (by
                rw [hk] at hitems
                cases hitems
                exact hlook)
              cases hgood
        | parts items =>
          have hparts : ∀ y ∈ items, domain y := fun y hy =>
            hl.closed x y hx ⟨key, items, hlook, hy⟩
          obtain ⟨hgrows, hmarked, hcleared⟩ :=
            searchAll_passed (fun y s s' hy hs => ih hy hs) hparts h
          refine ⟨List.Subset.trans (List.subset_cons_self key seen) hgrows, ?_, ?_⟩
          · intro k v hk
            rw [hlook] at hk
            cases hk
            exact hgrows List.mem_cons_self
          · intro y k v hy hk hmem hnot
            by_cases heq : k = key
            · subst heq
              refine ⟨?_, ?_⟩
              · rintro rfl
                have hbad := hl.alike_bad y x k _ hy hx hk hlook
                cases hbad
              · rintro z ⟨k', items', hitems', hz⟩ kz w hz'
                rw [hk] at hitems'
                cases hitems'
                obtain ⟨same, hsame, hkeys⟩ :=
                  hl.alike_parts y x k items' (.parts items) hy hx hk hlook
                cases hsame
                obtain ⟨z', hz'mem, hkey⟩ := hkeys z hz
                obtain ⟨found, hfound⟩ := hl.defined z' (hparts z' hz'mem)
                rw [hfound, hz'] at hkey
                cases hkey
                exact hmarked z' hz'mem _ _ hfound
            · exact hcleared y k v hy hk hmem (fun hin => (List.mem_cons.mp hin).elim heq hnot)

omit [DecidableEq κ] in
/-- Nothing bad can be reached from a node that the search from it has passed. -/
theorem Passed.reaches (hl : Lawful look domain) {x y : α} {seen' : List κ} (hx : domain x)
    (h : Passed look domain [] x seen') (hy : Reaches look x y) : ¬ Bad look y := by
  have hinside : domain y ∧ ∀ key v, look y = some (key, v) → key ∈ seen' := by
    induction hy with
    | refl => exact ⟨hx, h.marked⟩
    | @tail y z _ hpart ih =>
      obtain ⟨hdomain, hmarked⟩ := ih
      obtain ⟨found, hfound⟩ := hl.defined y hdomain
      obtain ⟨_, hparts⟩ := h.cleared y found.1 found.2 hdomain hfound (hmarked _ _ hfound)
        List.not_mem_nil
      exact ⟨hl.closed y z hdomain hpart, fun k w hk => hparts z hpart k w hk⟩
  rintro ⟨key, hbad⟩
  exact (h.cleared y key .bad hinside.1 hbad (hinside.2 key .bad hbad) List.not_mem_nil).1 rfl

/-- The keys that are not marked yet. -/
def missing (keys seen : List κ) : ℕ := (keys.filter (fun k => k ∉ seen)).length

theorem missing_cons {keys seen : List κ} {key : κ} (hkey : key ∈ keys) (hnot : key ∉ seen) :
    missing keys (key :: seen) < missing keys seen := by
  have hsub : (keys.filter (fun k => k ∉ key :: seen)).Sublist
      (keys.filter (fun k => k ∉ seen)) := by
    refine List.monotone_filter_right keys ?_
    intro k hk
    simp only [List.mem_cons, not_or, decide_eq_true_eq] at hk ⊢
    exact hk.2
  refine Nat.lt_of_le_of_ne hsub.length_le ?_
  intro hsame
  have heq := hsub.eq_of_length hsame
  have hmem : key ∈ keys.filter (fun k => k ∉ seen) :=
    List.mem_filter.mpr ⟨hkey, decide_eq_true hnot⟩
  rw [← heq, List.mem_filter] at hmem
  simp at hmem

theorem missing_le {keys seen seen' : List κ} (h : seen ⊆ seen') :
    missing keys seen' ≤ missing keys seen := by
  refine (List.monotone_filter_right keys ?_).length_le
  intro k hk
  rw [decide_eq_true_eq] at hk ⊢
  exact fun hin => hk (h hin)

theorem searchAll_total {search : α → List κ → Option (Found α κ)} {keys : List κ} {n : ℕ}
    (hsearch : ∀ y seen, domain y → missing keys seen < n → ∃ out, search y seen = some out)
    (hgrows : ∀ y seen seen', domain y → search y seen = some (none, seen') → seen ⊆ seen')
    {xs : List α} {seen : List κ} (hxs : ∀ y ∈ xs, domain y) (hn : missing keys seen < n) :
    ∃ out, searchAll search xs seen = some out := by
  induction xs generalizing seen with
  | nil => exact ⟨_, rfl⟩
  | cons x xs ih =>
    have hx := hxs x List.mem_cons_self
    obtain ⟨⟨error, seen'⟩, hfound⟩ := hsearch x seen hx hn
    rw [searchAll, hfound]
    cases error with
    | some e => exact ⟨_, rfl⟩
    | none =>
      have hle : missing keys seen' ≤ missing keys seen :=
        missing_le (hgrows x seen seen' hx hfound)
      exact ih (fun y hy => hxs y (List.mem_cons_of_mem x hy)) (by omega)

/-- Where the keys of the domain are among finitely many, each call marks one of them. -/
theorem search_total (hl : Lawful look domain) {keys : List κ}
    (hkeys : ∀ x key v, domain x → look x = some (key, v) → key ∈ keys) {fuel : ℕ} {x : α}
    {seen : List κ} (hx : domain x) (hfuel : missing keys seen < fuel) :
    ∃ out, search look fuel x seen = some out := by
  induction fuel generalizing x seen with
  | zero => omega
  | succ fuel ih =>
    obtain ⟨⟨key, verdict⟩, hlook⟩ := hl.defined x hx
    rw [search, hlook]
    dsimp only
    by_cases hseen : key ∈ seen
    · rw [if_pos hseen]
      exact ⟨_, rfl⟩
    · rw [if_neg hseen]
      cases verdict with
      | good => exact ⟨_, rfl⟩
      | bad => exact ⟨_, rfl⟩
      | parts items =>
        have hless := missing_cons (hkeys x key _ hx hlook) hseen
        have hroom : missing keys (key :: seen) < fuel := by omega
        have hparts : ∀ y ∈ items, domain y := fun y hy =>
          hl.closed x y hx ⟨key, items, hlook, hy⟩
        have hcalls : ∀ y s, domain y → missing keys s < fuel →
            ∃ out, search look fuel y s = some out := fun y s hy hs => ih hy hs
        exact searchAll_total hcalls (fun y s s' hy hs => (search_passed hl hy hs).grows) hparts
          hroom

/-- The search comes to its end, and finds nothing if and only if there is nothing bad. -/
theorem search_exact (hl : Lawful look domain) {keys : List κ}
    (hkeys : ∀ x key v, domain x → look x = some (key, v) → key ∈ keys) {fuel : ℕ} {x : α}
    (hx : domain x) (hfuel : keys.length < fuel) :
    ∃ error seen, search look fuel x [] = some (error, seen) ∧
      (error = none ↔ ∀ y, Reaches look x y → ¬ Bad look y) := by
  have hmissing : missing keys [] < fuel :=
    Nat.lt_of_le_of_lt (List.length_filter_le _ keys) hfuel
  obtain ⟨⟨error, seen⟩, hout⟩ := search_total hl hkeys hx hmissing
  refine ⟨error, seen, hout, ?_⟩
  cases error with
  | none => exact ⟨fun _ y hy => (search_passed hl hx hout).reaches hl hx hy, fun _ => rfl⟩
  | some e =>
    obtain ⟨hreach, hbad⟩ := search_bad hout
    constructor
    · intro hnone
      cases hnone
    · intro h
      exact absurd hbad (h e hreach)

end Results

end NewClLang.GraphSearch
