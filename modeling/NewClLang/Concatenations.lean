import Mathlib.Data.List.Forall2
import Mathlib.Data.List.Nodup

set_option autoImplicit false

/-!
# Equal concatenations

When lists that are put together from parts are equal, the parts are equal, and stand in the same
order.
-/
namespace NewClLang.Concatenations

section Parts
variable {α : Type}

theorem flatten_eq_iff {xs ys : List (List α)}
    (h : List.Forall₂ (fun x y => x.length = y.length) xs ys) :
    xs.flatten = ys.flatten ↔ xs = ys := by
  induction h with
  | nil => simp
  | cons hlength _ ih =>
    simp only [List.flatten_cons, List.cons.injEq]
    constructor
    · intro heq
      obtain ⟨hfirst, hrest⟩ := List.append_inj heq hlength
      exact ⟨hfirst, ih.mp hrest⟩
    · rintro ⟨hfirst, hrest⟩
      rw [hfirst, ih.mpr hrest]

theorem append_eq_iff {xs ys xs' ys' : List α} (h : xs.length = ys.length) :
    xs ++ xs' = ys ++ ys' ↔ xs = ys ∧ xs' = ys' :=
  ⟨fun heq => List.append_inj heq h, fun ⟨hfirst, hrest⟩ => by rw [hfirst, hrest]⟩

/-- Two parts without a common element change places only if one is empty. -/
theorem append_swap_iff {xs ys xs' ys' : List α} (hx : xs.Perm xs') (hy : ys.Perm ys')
    (hnodup : (ys' ++ xs').Nodup) :
    xs ++ ys = ys' ++ xs' ↔ (xs = xs' ∧ ys = ys') ∧ (xs' = [] ∨ ys' = []) := by
  constructor
  · intro heq
    cases xs' with
    | nil =>
      rw [hx.eq_nil, List.nil_append, List.append_nil] at heq
      exact ⟨⟨hx.eq_nil, heq⟩, Or.inl rfl⟩
    | cons x' xs' =>
      cases ys' with
      | nil =>
        rw [hy.eq_nil, List.nil_append, List.append_nil] at heq
        exact ⟨⟨heq, hy.eq_nil⟩, Or.inr rfl⟩
      | cons y ys' =>
        have hne : xs ≠ [] := fun h => absurd (h ▸ hx).length_eq (by simp)
        obtain ⟨x, rest, rfl⟩ := List.exists_cons_of_ne_nil hne
        have hhead : x = y := (List.cons.inj heq).1
        have hmem : y ∈ x' :: xs' := hx.subset (by rw [hhead]; exact List.mem_cons_self)
        exact absurd hmem ((List.disjoint_of_nodup_append hnodup) List.mem_cons_self)
  · rintro ⟨⟨rfl, rfl⟩, rfl | rfl⟩ <;> simp

end Parts

section Families
variable {ι α : Type} {f g : ι → List α}

theorem flatMap_filter (l : List ι) (p : ι → Bool) (h : ∀ n ∈ l, p n = false → f n = []) :
    (l.filter p).flatMap f = l.flatMap f := by
  induction l with
  | nil => rfl
  | cons n l ih =>
    have hrest := ih fun m hm => h m (List.mem_cons_of_mem _ hm)
    cases hp : p n with
    | true => simp [hp, hrest]
    | false => simp [hp, hrest, h n List.mem_cons_self hp]

/-- Parts that are not empty and have nothing in common are put together in one order only. -/
theorem flatMap_eq_of_busy {m₁ m₂ : List ι} (hparts : ∀ n ∈ m₁, (f n).Perm (g n))
    (hm : m₁.Perm m₂) (hbusy : ∀ n ∈ m₂, g n ≠ []) (hnodup : (m₂.flatMap g).Nodup)
    (heq : m₁.flatMap f = m₂.flatMap g) : m₁ = m₂ ∧ ∀ n ∈ m₁, f n = g n := by
  induction m₁ generalizing m₂ with
  | nil => exact ⟨(List.nil_perm.mp hm).symm, fun n hn => (nomatch hn)⟩
  | cons a m₁ ih =>
    cases m₂ with
    | nil => exact absurd hm.length_eq (by simp)
    | cons b m₂ =>
      have hpart := hparts a List.mem_cons_self
      have hfa : f a ≠ [] := fun h => hbusy a (hm.subset List.mem_cons_self)
        (List.nil_perm.mp (h ▸ hpart))
      obtain ⟨x, xs, hx⟩ := List.exists_cons_of_ne_nil hfa
      obtain ⟨y, ys, hy⟩ := List.exists_cons_of_ne_nil (hbusy b List.mem_cons_self)
      simp only [List.flatMap_cons] at heq hnodup
      have hhead : x = y := by
        rw [hx, hy] at heq
        exact (List.cons.inj heq).1
      have hab : a = b := by
        by_contra hne
        have hmem : a ∈ m₂ := (List.mem_cons.mp (hm.subset List.mem_cons_self)).resolve_left hne
        have hxa : x ∈ g a := hpart.subset (by rw [hx]; exact List.mem_cons_self)
        have hxb : x ∈ g b := by rw [hy, hhead]; exact List.mem_cons_self
        exact (List.disjoint_of_nodup_append hnodup) hxb (List.mem_flatMap.mpr ⟨a, hmem, hxa⟩)
      subst hab
      obtain ⟨hfirst, hrest⟩ := List.append_inj heq hpart.length_eq
      obtain ⟨hlists, hall⟩ := ih (fun n hn => hparts n (List.mem_cons_of_mem _ hn))
        (List.perm_cons a |>.mp hm) (fun n hn => hbusy n (List.mem_cons_of_mem _ hn))
        (List.nodup_append.mp hnodup).2.1 hrest
      refine ⟨by rw [hlists], fun n hn => ?_⟩
      rcases List.mem_cons.mp hn with rfl | hn
      · exact hfirst
      · exact hall n hn

/-- Parts that have nothing in common come to the same list in two orders if and only if they are
equal, and the ones that are not empty stand in the same order. -/
theorem flatMap_eq_iff {l₁ l₂ : List ι} {p : ι → Bool} (hp : ∀ n, p n = true ↔ g n ≠ [])
    (hparts : ∀ n ∈ l₁, (f n).Perm (g n)) (hl : l₁.Perm l₂) (hnodup : (l₂.flatMap g).Nodup) :
    l₁.flatMap f = l₂.flatMap g ↔ l₁.filter p = l₂.filter p ∧ ∀ n ∈ l₁, f n = g n := by
  have hidle : ∀ n, p n = false → g n = [] := by
    intro n hn
    by_contra hne
    rw [(hp n).mpr hne] at hn
    cases hn
  have hidleFirst : ∀ n ∈ l₁, p n = false → f n = [] := fun n hmem hn =>
    ((hidle n hn) ▸ hparts n hmem).eq_nil
  have hf := flatMap_filter l₁ p hidleFirst
  have hg := flatMap_filter l₂ p fun n _ hn => hidle n hn
  constructor
  · intro heq
    rw [← hf, ← hg] at heq
    rw [← hg] at hnodup
    obtain ⟨hlists, hall⟩ := flatMap_eq_of_busy
      (fun n hn => hparts n (List.mem_of_mem_filter hn)) (hl.filter p)
      (fun n hn => (hp n).mp (List.mem_filter.mp hn).2) hnodup heq
    refine ⟨hlists, fun n hn => ?_⟩
    cases hpn : p n with
    | true => exact hall n (List.mem_filter.mpr ⟨hn, hpn⟩)
    | false => rw [hidleFirst n hn hpn, hidle n hpn]
  · rintro ⟨hlists, hall⟩
    rw [← hf, ← hg, ← hlists]
    exact List.flatMap_congr fun n hn => hall n (List.mem_of_mem_filter hn)

end Families

end NewClLang.Concatenations
