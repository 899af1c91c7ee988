import Mathlib.Data.Set.Basic
import Mathlib.Tactic.Common

set_option autoImplicit false

/-!
# Linear probing in a ring of slots

A probe starts at a home slot of a ring of `c` slots and visits the slots one after the other,
wrapping around, until a test stops it. Nothing here says what a slot holds.
-/
namespace NewClLang.LinearProbing

/-- The slot visited after `i` steps from home `h`. -/
def slotAt (c h i : ℕ) : ℕ := (h + i) % c

theorem slotAt_lt {c : ℕ} (hc : 0 < c) (h i : ℕ) : slotAt c h i < c := Nat.mod_lt _ hc

theorem slotAt_zero (c h : ℕ) : slotAt c (h % c) 0 = h % c := by
  simp [slotAt]

theorem slotAt_succ (c h i : ℕ) : (slotAt c h i + 1) % c = slotAt c h (i + 1) := by
  simp only [slotAt, Nat.mod_add_mod, Nat.add_assoc]

theorem exists_slotAt {c h j : ℕ} (hh : h < c) (hj : j < c) : ∃ i < c, slotAt c h i = j := by
  by_cases hle : h ≤ j
  · refine ⟨j - h, by omega, ?_⟩
    rw [slotAt, Nat.add_sub_cancel' hle, Nat.mod_eq_of_lt hj]
  · refine ⟨j + c - h, by omega, ?_⟩
    rw [slotAt, show h + (j + c - h) = j + c by omega, Nat.add_mod_right, Nat.mod_eq_of_lt hj]

/-- Follow the ring for at most the given number of slots, to the first one that stops. -/
def probe (stop : ℕ → Bool) (c : ℕ) : ℕ → ℕ → Option ℕ
  | _, 0 => none
  | idx, n + 1 => if stop idx then some idx else probe stop c ((idx + 1) % c) n

theorem probe_some {stop : ℕ → Bool} {c h i n j : ℕ}
    (hp : probe stop c (slotAt c h i) n = some j) :
    ∃ t, i ≤ t ∧ t < i + n ∧ slotAt c h t = j ∧ stop j = true ∧
      ∀ s, i ≤ s → s < t → stop (slotAt c h s) = false := by
  induction n generalizing i with
  | zero => cases hp
  | succ n ih =>
    rw [probe] at hp
    split at hp
    · rename_i hstop
      cases hp
      exact ⟨i, le_refl i, by omega, rfl, hstop, fun s h1 h2 => absurd h2 (by omega)⟩
    · rename_i hstop
      rw [slotAt_succ] at hp
      obtain ⟨t, hit, htn, hslot, hj, hbefore⟩ := ih hp
      refine ⟨t, by omega, by omega, hslot, hj, fun s h1 h2 => ?_⟩
      by_cases hs : s = i
      · subst hs
        exact Bool.eq_false_iff.mpr hstop
      · exact hbefore s (by omega) h2

theorem probe_none {stop : ℕ → Bool} {c h i n : ℕ}
    (hp : probe stop c (slotAt c h i) n = none) :
    ∀ s, i ≤ s → s < i + n → stop (slotAt c h s) = false := by
  induction n generalizing i with
  | zero =>
    intro s h1 h2
    omega
  | succ n ih =>
    rw [probe] at hp
    split at hp
    · cases hp
    · rename_i hstop
      rw [slotAt_succ] at hp
      intro s h1 h2
      by_cases hs : s = i
      · subst hs
        exact Bool.eq_false_iff.mpr hstop
      · exact ih hp s (by omega) (by omega)

theorem probe_isSome {stop : ℕ → Bool} {c h j : ℕ} (hj : j < c) (hs : stop j = true) :
    (probe stop c (h % c) c).isSome := by
  by_contra hnone
  rw [Option.not_isSome_iff_eq_none] at hnone
  have hh : h % c < c := Nat.mod_lt _ (by omega)
  obtain ⟨i, hic, hi⟩ := exists_slotAt hh hj
  rw [← Nat.mod_mod h c, ← slotAt_zero c (h % c), Nat.mod_mod] at hnone
  have hfalse := probe_none hnone i (Nat.zero_le i) (by omega)
  rw [hi, hs] at hfalse
  cases hfalse

/-- A stricter test that holds where a probe stops stops its own probe there. -/
theorem probe_of_stricter {stop stop' : ℕ → Bool} {c h n j : ℕ}
    (hstricter : ∀ s, stop s = true → stop' s = true) (hp : probe stop' c h n = some j)
    (hj : stop j = true) : probe stop c h n = some j := by
  induction n generalizing h with
  | zero => cases hp
  | succ n ih =>
    rw [probe] at hp ⊢
    by_cases hstop' : stop' h = true
    · rw [if_pos hstop'] at hp
      cases hp
      rw [if_pos hj]
    · rw [if_neg hstop'] at hp
      rw [if_neg (fun hstop => hstop' (hstricter h hstop))]
      exact ih hp

/-- `j` is met by the probe from `h`, before any slot that is not `full`. -/
def Reached (full : ℕ → Prop) (c h j : ℕ) : Prop :=
  ∃ i < c, slotAt c h i = j ∧ ∀ s < i, full (slotAt c h s)

theorem Reached.mono {full full' : ℕ → Prop} {c h j : ℕ}
    (hr : Reached full c h j) (hsub : ∀ s, full s → full' s) : Reached full' c h j := by
  obtain ⟨i, hic, hij, hfull⟩ := hr
  exact ⟨i, hic, hij, fun s hs => hsub _ (hfull s hs)⟩

theorem Reached.lt {full : ℕ → Prop} {c h j : ℕ} (hr : Reached full c h j) : j < c := by
  obtain ⟨i, hic, hij, -⟩ := hr
  rw [← hij]
  exact slotAt_lt (by omega) h i

theorem probe_reached {stop : ℕ → Bool} {full : ℕ → Prop} {c h j : ℕ}
    (hstop : ∀ i, stop i = false → full i) (hp : probe stop c (slotAt c h 0) c = some j) :
    Reached full c h j := by
  obtain ⟨t, -, htc, htj, -, hbefore⟩ := probe_some hp
  exact ⟨t, by omega, htj, fun s hs => hstop _ (hbefore s (by omega) hs)⟩

end NewClLang.LinearProbing
