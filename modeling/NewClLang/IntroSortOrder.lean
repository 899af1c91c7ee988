import Mathlib.Algebra.Ring.Nat
import Mathlib.Order.Defs.Unbundled
import NewClLang.IntroSortOverflow

set_option autoImplicit false

/-!
# sort.sort sorts

The insertion sort at the end puts the elements in order whatever the partitions and heaps before it
have left, so the result is right whenever no operation on the way overflows.
-/
namespace NewClLang.IntroSortOrder
open WrappedIntegers IntroSort IntroSortRuns IntroSortOverflow

section Insertion
variable {α W : Type} {less : α → α → Bool} {e : Setting α W} {n : ℕ}

theorem negative_trans [IsStrictWeakOrder α (fun a b => less a b = true)] {x y z : α}
    (hyx : less y x = false) (hzy : less z y = false) : less z x = false := by
  have htrans : IsTrans α (fun a b => less a b = true) := inferInstance
  have htrans := htrans.trans
  have hincomp := @IsStrictWeakOrder.incomp_trans _ (fun a b => less a b = true) _
  cases hzx : less z x with
  | false => rfl
  | true =>
    have hxy : ¬ less x y = true := by
      intro hxy
      rw [htrans z x y hzx hxy] at hzy
      cases hzy
    have hyz : ¬ less y z = true := by
      intro hyz
      rw [htrans y z x hyz hzx] at hyx
      cases hyx
    have hyx : ¬ less y x = true := by
      rw [hyx]
      exact Bool.false_ne_true
    have hzy : ¬ less z y = true := by
      rw [hzy]
      exact Bool.false_ne_true
    exact absurd hzx (hincomp z y x ⟨hzy, hyz⟩ ⟨hyx, hxy⟩).1

theorem asymmetric [IsStrictWeakOrder α (fun a b => less a b = true)] {x y : α}
    (h : less x y = true) : less y x = false := by
  have htrans : IsTrans α (fun a b => less a b = true) := inferInstance
  have hirrefl : Std.Irrefl (fun a b : α => less a b = true) := inferInstance
  have htrans := htrans.trans
  have hirrefl := hirrefl.irrefl
  cases hyx : less y x with
  | false => rfl
  | true => exact absurd (htrans x y x h hyx) (hirrefl x)

/-- No element of `[lo, hi)` is less than one before it. -/
def SortedOn (less : α → α → Bool) (l : List α) (lo hi : ℕ) : Prop :=
  ∀ (a b : ℕ) (x y : α), lo ≤ a → a < b → b < hi → l[a]? = some x → l[b]? = some y →
    less y x = false

/-- The state of the inner loop: `[lo, i]` is sorted but for the place `j`, which waits for
    `value`, and the elements after that place belong behind `value`. -/
structure Opened (less : α → α → Bool) (l : List α) (lo i j : ℕ) (value : α) : Prop where
  sorted : ∀ (a b : ℕ) (x y : α), lo ≤ a → a < b → b ≤ i → a ≠ j → b ≠ j → l[a]? = some x →
    l[b]? = some y → less y x = false
  after : ∀ (b : ℕ) (y : α), j < b → b ≤ i → l[b]? = some y → less y value = false

/-- Where no element before the place is greater, `value` belongs there. -/
theorem Opened.close {l : List α} {lo i j : ℕ} {value : α} (h : Opened less l lo i j value)
    (hj : j < l.length)
    (hbefore : ∀ (a : ℕ) (x : α), lo ≤ a → a < j → l[a]? = some x → less value x = false)
    (hji : j ≤ i) : SortedOn less (l.set j value) lo (i + 1) := by
  intro a b x y hlo hab hb hx hy
  by_cases haj : a = j
  · subst haj
    rw [List.getElem?_set_self hj] at hx
    rw [List.getElem?_set_ne (by omega)] at hy
    cases hx
    exact h.after b y hab (by omega) hy
  · rw [List.getElem?_set_ne (by omega)] at hx
    by_cases hbj : b = j
    · subst hbj
      rw [List.getElem?_set_self hj] at hy
      cases hy
      exact hbefore a x hlo hab hx
    · rw [List.getElem?_set_ne (by omega)] at hy
      exact h.sorted a b x y hlo hab (by omega) haj hbj hx hy

/-- The element before the place is greater than `value` and moves up. -/
theorem Opened.shift [IsStrictWeakOrder α (fun a b => less a b = true)] {l : List α}
    {lo i j : ℕ} {value item : α} (h : Opened less l lo i (j + 1) value) (hlo : lo ≤ j)
    (hji : j + 1 ≤ i) (hitem : l[j]? = some item) (hless : less value item = true) :
    Opened less (l.set (j + 1) item) lo i j value where
  sorted := by
    intro a b x y ha hab hb haj hbj hx hy
    by_cases haplace : a = j + 1
    · subst haplace
      have hlt : j + 1 < l.length := by
        by_contra hge
        rw [List.getElem?_eq_none (by rw [List.length_set]; omega)] at hx
        cases hx
      rw [List.getElem?_set_self hlt] at hx
      rw [List.getElem?_set_ne (by omega)] at hy
      cases hx
      exact h.sorted j b item y hlo (by omega) hb (by omega) (by omega) hitem hy
    · rw [List.getElem?_set_ne (by omega)] at hx
      by_cases hbplace : b = j + 1
      · subst hbplace
        have hlt : j + 1 < l.length := by
          by_contra hge
          rw [List.getElem?_eq_none (by rw [List.length_set]; omega)] at hy
          cases hy
        rw [List.getElem?_set_self hlt] at hy
        cases hy
        exact h.sorted a j x item ha (by omega) (by omega) (by omega) (by omega) hx hitem
      · rw [List.getElem?_set_ne (by omega)] at hy
        exact h.sorted a b x y ha hab hb haplace hbplace hx hy
  after := by
    intro b y hjb hb hy
    by_cases hbplace : b = j + 1
    · subst hbplace
      have hlt : j + 1 < l.length := by
        by_contra hge
        rw [List.getElem?_eq_none (by rw [List.length_set]; omega)] at hy
        cases hy
      rw [List.getElem?_set_self hlt] at hy
      cases hy
      exact asymmetric hless
    · rw [List.getElem?_set_ne (by omega)] at hy
      exact h.after b y (by omega) hb hy

theorem insertionShift_sorts [IsStrictWeakOrder α (fun a b => less a b = true)]
    (he : Modular e.arith) (hpure : ∀ a b w, (e.less a b w).1 = less a b) (hn : n < 2147483648)
    {value : α} {lo turns i : ℕ} {j' : ℤ} {s s' : Sorting α W}
    (h : insertionShift e value turns ((lo + turns : ℕ) : ℤ) s = some (j', s'))
    (hj : lo + turns ≤ i) (hi : i < n) (hlen : n ≤ s.items.length)
    (hopen : Opened less s.items lo i (lo + turns) value) :
    SortedOn less (s'.items.set j'.toNat value) lo (i + 1) := by
  induction turns generalizing s with
  | zero =>
    cases h
    rw [Int.toNat_natCast]
    refine hopen.close (by omega) ?_ hj
    intro a x hlo ha _
    omega
  | succ turns ih =>
    obtain ⟨before, hbefore, h⟩ := Option.bind_eq_some_iff.mp h
    have hbefore := he.eq_of_fits (by unfold Fits; omega) hbefore
    have hindex : before = ((lo + turns : ℕ) : ℤ) := by omega
    subst hindex
    obtain ⟨item, hitem, h⟩ := Option.bind_eq_some_iff.mp h
    obtain ⟨_, hitem⟩ := read_some hitem
    rw [Int.toNat_natCast] at hitem
    change (if (e.less value item s.world).1 = true then _ else _) = some (j', s') at h
    rw [hpure] at h
    by_cases hless : less value item = true
    · rw [if_pos hless] at h
      obtain ⟨s₁, hwrite, h⟩ := Option.bind_eq_some_iff.mp h
      obtain ⟨_, rfl⟩ := write_some hwrite
      refine ih h (by omega) ?_ ?_
      · change n ≤ (s.items.set _ item).length
        rw [List.length_set]
        exact hlen
      · have hshift := hopen.shift (Nat.le_add_right lo turns) hj hitem hless
        exact hshift
    · rw [if_neg hless] at h
      cases h
      rw [Int.toNat_natCast]
      refine hopen.close (by omega) ?_ hj
      intro a x hlo ha hx
      have hvalue : less value item = false := by
        rw [← Bool.not_eq_true]
        exact hless
      by_cases hlast : a = lo + turns
      · subst hlast
        cases hitem.symm.trans hx
        exact hvalue
      · have hsorted := hopen.sorted a (lo + turns) x item hlo (by omega) (by omega) (by omega)
          (by omega) hx hitem
        exact negative_trans hsorted hvalue

theorem insertionTurn_sorts [IsStrictWeakOrder α (fun a b => less a b = true)]
    (he : Modular e.arith) (hpure : ∀ a b w, (e.less a b w).1 = less a b) {lo i : ℕ}
    {s s' : Sorting α W} (h : insertionTurn e lo i s = some s') (hlo : lo ≤ i) (hi : i < n)
    (hroom : Room n s) (hsorted : SortedOn less s.items lo i) :
    SortedOn less s'.items lo (i + 1) := by
  obtain ⟨value, hvalue, h⟩ := Option.bind_eq_some_iff.mp h
  obtain ⟨⟨j, s₁⟩, hshift, h⟩ := Option.bind_eq_some_iff.mp h
  have hturns : ((i : ℤ) - lo).toNat = i - lo := by omega
  have hstart : (i : ℤ) = ((lo + (i - lo) : ℕ) : ℤ) := by omega
  have hback : lo + (i - lo) = i := by omega
  rw [hturns, hstart] at hshift
  obtain ⟨_, rfl⟩ := write_some h
  refine insertionShift_sorts he hpure hroom.small hshift (by omega) hi hroom.inside ?_
  rw [hback]
  exact {
    sorted := by
      intro a b x y ha hab hb _ hbi hx hy
      exact hsorted a b x y ha hab (by omega) hx hy
    after := by
      intro b y hib hbi _
      omega }

theorem insertionLoop_sorts [IsStrictWeakOrder α (fun a b => less a b = true)]
    (he : Modular e.arith) (hpure : ∀ a b w, (e.less a b w).1 = less a b) {lo turns i : ℕ}
    {s s' : Sorting α W} (h : insertionLoop e lo turns i s = some s') (hlo : lo ≤ i)
    (hi : i + turns ≤ n) (hroom : Room n s) (hsorted : SortedOn less s.items lo i) :
    SortedOn less s'.items lo (i + turns) := by
  induction turns generalizing i s with
  | zero =>
    cases h
    exact hsorted
  | succ turns ih =>
    obtain ⟨s₁, hturn, h⟩ := Option.bind_eq_some_iff.mp h
    have hs₁ := insertionTurn_some (n := n) he hturn hlo (by omega) hroom
    have hsorted₁ := insertionTurn_sorts he hpure hturn hlo (by omega) hroom hsorted
    have hrest := ih (i := i + 1) h (by omega) (by omega) (hroom.shuffled hs₁) hsorted₁
    have hindex : i + 1 + turns = i + (turns + 1) := by omega
    rw [← hindex]
    exact hrest

/-- `_sort_insertion_by` sorts `[lo, hi)`. -/
theorem sortInsertionBy_sorts [IsStrictWeakOrder α (fun a b => less a b = true)]
    (he : Modular e.arith) (hpure : ∀ a b w, (e.less a b w).1 = less a b) (lo : ℕ) {hi : ℕ}
    {s s' : Sorting α W} (h : sortInsertionBy e s lo hi = some s') (hlo : lo < hi) (hhi : hi ≤ n)
    (hroom : Room n s) : SortedOn less s'.items lo hi := by
  obtain ⟨first, hfirst, h⟩ := Option.bind_eq_some_iff.mp h
  have hsmall := hroom.small
  have hfirst := he.eq_of_fits (by unfold Fits; omega) hfirst
  have hindex : first = ((lo + 1 : ℕ) : ℤ) := by omega
  subst hindex
  have hstart : SortedOn less s.items lo (lo + 1) := by
    intro a b x y ha hab hb
    omega
  have hsorted := insertionLoop_sorts he hpure h (by omega) (by omega) hroom hstart
  have hend : lo + 1 + ((hi : ℤ) - ((lo + 1 : ℕ) : ℤ)).toNat = hi := by omega
  rw [hend] at hsorted
  exact hsorted

/-- Below the length that `len` reads, the elements are in order after the run. -/
theorem sort_sorts [IsStrictWeakOrder α (fun a b => less a b = true)] (he : Modular e.arith)
    (hpure : ∀ a b w, (e.less a b w).1 = less a b) {s s' : Sorting α W} (h : sort e s = some s') :
    SortedOn less s'.items 0 s.len.toNat := by
  unfold sort at h
  by_cases hshort : s.len < 2
  · rw [if_pos hshort] at h
    cases h
    intro a b x y _ hab hb
    omega
  · rw [if_neg hshort] at h
    obtain ⟨rough, hintro, h⟩ := Option.bind_eq_some_iff.mp h
    have hroom := len_room hshort
    have hn : s.len = (s.len.toNat : ℤ) := by omega
    have hs₁ := sortIntroBy_some he hroom.small hintro (Int.le_refl 0) (by omega) (by omega)
    rw [hn] at h
    exact sortInsertionBy_sorts he hpure 0 h (by omega) (le_refl _) (hroom.shuffled hs₁)

end Insertion

section Sorted
variable {α : Type}

/-- A comparator that is a function of its arguments. -/
def pureLess (less : α → α → Bool) : α → α → Unit → Bool × Unit := fun a b _ => (less a b, ())

/-- The run of `sort.sort(items, less)`; `bothOperands` says whether `&&` evaluates its right
    operand always. -/
def sortRun (arith : Arithmetic) (bothOperands : Bool) (less : α → α → Bool) (items : List α) :
    Option (List α) :=
  (sort ⟨arith, bothOperands, pureLess less⟩ ⟨items, ()⟩).map Sorting.items

/-- What is expected of `sort.sort(items, less)`. -/
def Sorts (bothOperands : Bool) (less : α → α → Bool) (items : List α) : Prop :=
  ∃ sorted, sortRun wrapping bothOperands less items = some sorted ∧ sorted.Perm items ∧
    sorted.Pairwise (fun a b => less b a = false)

/-- The run finishes without an operation on `i32` whose result does not fit and without an access
    outside the slice, and the elements that `len` does not count are in order as they are. -/
def Undisturbed (bothOperands : Bool) (less : α → α → Bool) (items : List α) : Prop :=
  (∃ sorted, sortRun checked bothOperands less items = some sorted) ∧
    ∀ (i j : ℕ) (a b : α), i < j → wrap32 items.length ≤ j → items[i]? = some a →
      items[j]? = some b → less b a = false

theorem sortRun_agree (bothOperands : Bool) (less : α → α → Bool) (items : List α) :
    sortRun wrapping bothOperands less items = sortRun checked bothOperands less items := by
  have hagree := sort_agree (e := ⟨checked, bothOperands, pureLess less⟩) (a := wrapping)
    checked_modular wrapping_modular ⟨items, ()⟩
  unfold sortRun
  rw [← hagree]

theorem sortRun_some {arith : Arithmetic} {bothOperands : Bool} {less : α → α → Bool}
    {items sorted : List α} (h : sortRun arith bothOperands less items = some sorted) :
    ∃ s, sort ⟨arith, bothOperands, pureLess less⟩ ⟨items, ()⟩ = some s ∧ s.items = sorted := by
  unfold sortRun at h
  obtain ⟨s, hs, hitems⟩ := Option.map_eq_some_iff.mp h
  exact ⟨s, hs, hitems⟩

/-- Elements from index `n` on stay where they are, the others stay below. -/
theorem getElem?_source {n : ℕ} {items sorted : List α} (hperm : (sorted.take n).Perm (items.take n))
    (hframe : sorted.drop n = items.drop n) {i j : ℕ} {a b : α} (hij : i < j) (hj : n ≤ j)
    (ha : sorted[i]? = some a) (hb : sorted[j]? = some b) :
    items[j]? = some b ∧ ∃ k, k < j ∧ items[k]? = some a := by
  have htail : ∀ k, n ≤ k → sorted[k]? = items[k]? := by
    intro k hk
    have hget := congrArg (fun l : List α => l[k - n]?) hframe
    have hindex : n + (k - n) = k := by omega
    simp only [List.getElem?_drop, hindex] at hget
    exact hget
  rw [htail j hj] at hb
  refine ⟨hb, ?_⟩
  by_cases hi : n ≤ i
  · rw [htail i hi] at ha
    exact ⟨i, hij, ha⟩
  · have hmem : a ∈ sorted.take n := by
      rw [List.mem_iff_getElem?]
      exact ⟨i, by
        rw [List.getElem?_take_of_lt (by omega)]
        exact ha⟩
    obtain ⟨k, hk⟩ := List.mem_iff_getElem?.mp (hperm.mem_iff.mp hmem)
    by_cases hkn : k < n
    · rw [List.getElem?_take_of_lt hkn] at hk
      exact ⟨k, by omega, hk⟩
    · rw [List.getElem?_take_eq_none (by omega)] at hk
      cases hk

theorem sorts_iff_undisturbed (bothOperands : Bool) (less : α → α → Bool)
    [IsStrictWeakOrder α (fun a b => less a b = true)] (items : List α) :
    Sorts bothOperands less items ↔ Undisturbed bothOperands less items := by
  have hwrapping := wrapping_modular
  constructor
  · rintro ⟨sorted, hrun, _, hpairwise⟩
    refine ⟨⟨sorted, sortRun_agree bothOperands less items ▸ hrun⟩, ?_⟩
    intro i j a b hij hj ha hb
    obtain ⟨s, hs, rfl⟩ := sortRun_some hrun
    have hshuffled := sort_some hwrapping hs
    have hlast : (wrap32 items.length).toNat ≤ j := by omega
    obtain ⟨hb', k, hk, ha'⟩ :=
      getElem?_source (n := (wrap32 items.length).toNat) hshuffled.take.symm hshuffled.frame.symm hij
        hlast ha hb
    obtain ⟨hklt, rfl⟩ := List.getElem?_eq_some_iff.mp ha'
    obtain ⟨hjlt, rfl⟩ := List.getElem?_eq_some_iff.mp hb'
    exact List.pairwise_iff_getElem.mp hpairwise k j hklt hjlt hk
  · rintro ⟨⟨sorted, hrun⟩, htail⟩
    rw [← sortRun_agree] at hrun
    obtain ⟨s, hs, rfl⟩ := sortRun_some hrun
    have hshuffled := sort_some hwrapping hs
    have hpure (a b : α) (w : Unit) : (less a b, w).1 = less a b := rfl
    have hsorted := sort_sorts hwrapping hpure hs
    refine ⟨s.items, hrun, hshuffled.perm, ?_⟩
    rw [List.pairwise_iff_getElem]
    intro i j hi hj hij
    have ha := List.getElem?_eq_getElem hi
    have hb := List.getElem?_eq_getElem hj
    by_cases hcounted : j < (wrap32 items.length).toNat
    · exact hsorted i j _ _ (Nat.zero_le i) hij hcounted ha hb
    · have hlast : (wrap32 items.length).toNat ≤ j := Nat.le_of_not_lt hcounted
      obtain ⟨hb', k, hk, ha'⟩ :=
        getElem?_source (n := (wrap32 items.length).toNat) hshuffled.take hshuffled.frame hij hlast
          ha hb
      exact htail k j _ _ hk (by omega) ha' hb'

instance natLess : IsStrictWeakOrder ℕ (fun a b => decide (a < b) = true) where
  irrefl := by
    intro a
    rw [decide_eq_true_eq]
    omega
  trans := by
    intro a b c
    rw [decide_eq_true_eq, decide_eq_true_eq, decide_eq_true_eq]
    omega
  incomp_trans := by
    intro a b c
    rw [decide_eq_true_eq, decide_eq_true_eq, decide_eq_true_eq, decide_eq_true_eq,
      decide_eq_true_eq, decide_eq_true_eq]
    omega

theorem sorted_numbers : Sorts true (fun a b : ℕ => decide (a < b)) [3, 1, 2] :=
  (sorts_iff_undisturbed true (fun a b : ℕ => decide (a < b)) [3, 1, 2]).mpr (by
    refine ⟨⟨[1, 2, 3], ?_⟩, ?_⟩
    · have hdepth : sortDepthLimit 3 = 2 := by
        simp [sortDepthLimit, halvings]
      have hlen : (⟨[3, 1, 2], ()⟩ : Sorting ℕ Unit).len = 3 := by rfl
      rw [sortRun, sort, hlen, hdepth]
      rfl
    · intro i j a b _ hj _ hb
      obtain ⟨hjlt, _⟩ := List.getElem?_eq_some_iff.mp hb
      rw [wrap32_of_fits ⟨by decide, by decide⟩] at hj
      simp only [List.length_cons, List.length_nil] at hj hjlt
      omega)

/-- With `&&` as in the source, no slice of at most `2 ^ 30` elements is disturbed. -/
theorem undisturbed_of_length (less : α → α → Bool) {items : List α}
    (hlen : items.length ≤ 1073741824) : Undisturbed false less items := by
  refine ⟨?_, ?_⟩
  · obtain ⟨s, hs⟩ := sort_total (e := ⟨checked, false, pureLess less⟩) (s := ⟨items, ()⟩)
      checked_modular rfl hlen
    exact ⟨s.items, by rw [sortRun, hs]; rfl⟩
  · intro i j a b _ hj _ hb
    obtain ⟨hjlt, _⟩ := List.getElem?_eq_some_iff.mp hb
    rw [wrap32_of_fits ⟨by omega, by omega⟩] at hj
    omega

end Sorted

section Crossed
variable {arith : Arithmetic} {bothOperands : Bool} {n p : ℕ}

def falseBelowTrue (a b : Bool) : Bool := !a && b

/-- `n` elements of which at most one is true, the one at index `p`. -/
def crossed (n p : ℕ) : List Bool := (List.range n).map (fun i => decide (i = p))

abbrev crossedSetting (arith : Arithmetic) (bothOperands : Bool) : Setting Bool Unit :=
  ⟨arith, bothOperands, pureLess falseBelowTrue⟩

abbrev crossedState (n p : ℕ) : Sorting Bool Unit := ⟨crossed n p, ()⟩

theorem bind_step {β γ : Type} {x : Option γ} {y : γ} {f : γ → Option β} {out : Option β}
    (hx : x = some y) (h : f y = out) : x.bind f = out := by
  rw [hx]
  exact h

theorem branch_step {β : Type} {c : Prop} [Decidable c] {x y out : Option β} (hc : c)
    (h : x = out) : (if c then x else y) = out := by
  rw [if_pos hc]
  exact h

theorem other_step {β : Type} {c : Prop} [Decidable c] {x y out : Option β} (hc : ¬ c)
    (h : y = out) : (if c then x else y) = out := by
  rw [if_neg hc]
  exact h

theorem crossed_getElem? {i : ℕ} (hi : i < n) : (crossed n p)[i]? = some (decide (i = p)) := by
  rw [crossed, List.getElem?_map, List.getElem?_range hi]
  rfl

theorem crossed_read {i : ℤ} (h : 0 ≤ i) (hi : i < n) :
    (crossedState n p).read i = some (decide (i.toNat = p)) := by
  rw [Sorting.read, if_pos h, crossed_getElem? (by omega)]

theorem crossed_lessAt {i j : ℤ} (hi : 0 ≤ i ∧ i < n) (hj : 0 ≤ j ∧ j < n) :
    (crossedSetting arith bothOperands).lessAt i j (crossedState n p) =
      some (falseBelowTrue (decide (i.toNat = p)) (decide (j.toNat = p)), crossedState n p) := by
  rw [Setting.lessAt, crossed_read hi.1 hi.2, crossed_read hj.1 hj.2]
  rfl

theorem crossed_set {i : ℕ} (hi : i < n) (hip : i ≠ p) : (crossed n p).set i false = crossed n p := by
  have hget := crossed_getElem? (n := n) (p := p) hi
  rw [decide_eq_false hip] at hget
  obtain ⟨hlt, hfalse⟩ := List.getElem?_eq_some_iff.mp hget
  rw [← hfalse, List.set_getElem_self]

theorem crossed_length : (crossed n p).length = n := by
  rw [crossed, List.length_map, List.length_range]

theorem crossed_write {i : ℤ} (h : 0 ≤ i) (hi : i < n) (hip : i ≠ p) :
    (crossedState n p).write i false = some (crossedState n p) := by
  rw [write_total h (by
    rw [crossed_length]
    exact hi)]
  change some (⟨(crossed n p).set i.toNat false, ()⟩ : Sorting Bool Unit) = _
  rw [crossed_set (by omega) (by omega)]

/-- Two elements that are both false change places. -/
theorem crossed_swap {i j : ℤ} (hi : 0 ≤ i ∧ i < n) (hj : 0 ≤ j ∧ j < n) (hip : i ≠ p)
    (hjp : j ≠ p) : sortSwap (crossedState n p) i j = some (crossedState n p) := by
  unfold sortSwap
  by_cases hij : i = j
  · rw [if_pos hij]
  · have hi_false : decide (i.toNat = p) = false := decide_eq_false (by omega)
    have hj_false : decide (j.toNat = p) = false := decide_eq_false (by omega)
    rw [if_neg hij, crossed_read hi.1 hi.2, crossed_read hj.1 hj.2, hi_false, hj_false]
    change ((crossedState n p).write i false).bind (fun s => s.write j false) = _
    rw [crossed_write hi.1 hi.2 hip]
    exact crossed_write hj.1 hj.2 hjp

theorem crossed_swapIfLess {i j a b : ℤ} (hi : 0 ≤ i ∧ i < n) (hj : 0 ≤ j ∧ j < n) (hjp : j ≠ p) :
    swapIfLess (crossedSetting arith bothOperands) i j a b (crossedState n p) =
      some (crossedState n p) := by
  have hj_false : decide (j.toNat = p) = false := decide_eq_false (by omega)
  unfold swapIfLess
  rw [crossed_lessAt hi hj, hj_false, falseBelowTrue, Bool.and_false]
  rfl

theorem crossed_partitionLoop {turns : ℕ} {i store : ℤ} (hi : 0 ≤ i) (hlast : i + turns ≤ n) :
    partitionLoop (crossedSetting arith bothOperands) false turns i store (crossedState n p) =
      some (store, crossedState n p) := by
  induction turns generalizing i with
  | zero => rfl
  | succ turns ih =>
    unfold partitionLoop
    rw [crossed_read hi (by omega)]
    change (if falseBelowTrue (decide (i.toNat = p)) false = true then _ else
      partitionLoop (crossedSetting arith bothOperands) false turns (i + 1) store (crossedState n p)) = _
    rw [falseBelowTrue, Bool.and_false, if_neg Bool.false_ne_true]
    exact ih (by omega) (by omega)

/-- A partition whose samples are false splits off one element and changes nothing. -/
theorem crossed_partition (he : Modular arith) {lo : ℤ} (hn : n < 2147483648) (hlo : 0 ≤ lo) (hlt : lo + 1 < n)
    (hmid : (lo + n) / 2 < p) (hlast : (n : ℤ) - 1 ≠ p) :
    sortPartitionBy (crossedSetting arith bothOperands) (crossedState n p) lo n =
      some (lo, crossedState n p) := by
  have hfits := he.fits
  have hhalf : ((n : ℤ) - lo).tdiv 2 = (n - lo) / 2 := Int.tdiv_eq_ediv_of_nonneg (by omega)
  refine bind_step (hfits _ ⟨by omega, by omega⟩) ?_
  refine bind_step (hfits _ ⟨by omega, by omega⟩) ?_
  refine bind_step (hfits _ ⟨by omega, by omega⟩) ?_
  rw [hhalf]
  generalize hindex : lo + ((n : ℤ) - lo) / 2 = mid
  have hlo_in : 0 ≤ lo ∧ lo < n := ⟨hlo, by omega⟩
  have hmid_in : 0 ≤ mid ∧ mid < n := ⟨by omega, by omega⟩
  have hlast_in : 0 ≤ (n : ℤ) - 1 ∧ (n : ℤ) - 1 < n := ⟨by omega, by omega⟩
  have hmid_false : decide (mid.toNat = p) = false := decide_eq_false (by omega)
  refine bind_step (crossed_swapIfLess hmid_in hlo_in (by omega)) ?_
  refine bind_step (crossed_swapIfLess hlast_in hmid_in (by omega)) ?_
  refine bind_step (crossed_swapIfLess hmid_in hlo_in (by omega)) ?_
  refine bind_step (crossed_read hmid_in.1 hmid_in.2) ?_
  refine bind_step (crossed_swap hmid_in hlast_in (by omega) hlast) ?_
  rw [hmid_false]
  refine bind_step (crossed_partitionLoop hlo (by omega)) ?_
  exact bind_step (crossed_swap hlo_in hlast_in (by omega) hlast) rfl

theorem crossed_intro_empty (he : Modular arith) {depth : ℕ} {s : Sorting Bool Unit} (lo : ℤ) :
    sortIntroBy (crossedSetting arith bothOperands) depth s lo lo = some s := by
  have hfits := he.fits
  cases depth with
  | zero =>
    refine bind_step (hfits _ ⟨by omega, by omega⟩) ?_
    exact other_step (by omega) rfl
  | succ depth =>
    refine bind_step (hfits _ ⟨by omega, by omega⟩) ?_
    exact other_step (by omega) rfl

/-- Every turn splits off one element, until the depth is used up. -/
theorem crossed_intro (he : Modular arith) {depth : ℕ} {lo : ℤ} (hn : n < 2147483648) (hlo : 0 ≤ lo)
    (hwide : lo + depth + 16 < n) (hmid : (lo + depth + n) / 2 < p) (hlast : (n : ℤ) - 1 ≠ p) :
    sortIntroBy (crossedSetting arith bothOperands) depth (crossedState n p) lo n =
      sortHeapBy (crossedSetting arith bothOperands) (crossedState n p) (lo + depth) n := by
  have hfits := he.fits
  induction depth generalizing lo with
  | zero =>
    have hzero : lo + ((0 : ℕ) : ℤ) = lo := by omega
    rw [hzero]
    refine bind_step (hfits _ ⟨by omega, by omega⟩) ?_
    exact branch_step (by omega) rfl
  | succ depth ih =>
    have hrest : lo + 1 + (depth : ℤ) = lo + ((depth + 1 : ℕ) : ℤ) := by omega
    refine bind_step (hfits _ ⟨by omega, by omega⟩) ?_
    refine branch_step (by omega) ?_
    refine bind_step (crossed_partition he hn hlo (by omega) (by omega) hlast) ?_
    refine bind_step (hfits _ ⟨by omega, by omega⟩) ?_
    refine bind_step (hfits _ ⟨by omega, by omega⟩) ?_
    refine bind_step (hfits _ ⟨by omega, by omega⟩) ?_
    refine branch_step (by omega) ?_
    refine bind_step (crossed_intro_empty he lo) ?_
    rw [ih (by omega) (by omega) (by omega), hrest]

/-- Where the children of `root` are false, `root` stays where it is. -/
theorem crossed_siftTurn (he : Modular arith) {lo root : ℤ} (hn : n < 2147483648) (hlo : 0 ≤ lo) (hroot : 0 ≤ root)
    (hsmall : root < 1073741824) (hchild : lo + root * 2 + 1 < n) (hleft : lo + root * 2 + 1 > p) :
    siftTurn (crossedSetting arith false) lo root (n - lo) (crossedState n p) =
      some (none, crossedState n p) := by
  have hfits := he.fits
  have hchild_false : decide ((lo + (root * 2 + 1)).toNat = p) = false := decide_eq_false (by omega)
  have hright : rightIsLarger (crossedSetting arith false) lo root (root * 2 + 1 + 1) (n - lo)
      (crossedState n p) = some (false, crossedState n p) := by
    by_cases hlt : root * 2 + 1 + 1 < (n : ℤ) - lo
    · have hright_false : decide ((lo + (root * 2 + 1 + 1)).toNat = p) = false :=
        decide_eq_false (by omega)
      refine branch_step (Or.inl hlt) ?_
      refine bind_step (hfits _ ⟨by omega, by omega⟩) ?_
      refine bind_step (hfits _ ⟨by omega, by omega⟩) ?_
      refine bind_step (crossed_lessAt ⟨by omega, by omega⟩ ⟨by omega, by omega⟩) ?_
      rw [hright_false, falseBelowTrue, Bool.and_false]
      change some (decide (root * 2 + 1 + 1 < (n : ℤ) - lo) && false, crossedState n p) = _
      rw [Bool.and_false]
    · refine other_step ?_ rfl
      rintro (hlt' | hboth)
      · exact hlt hlt'
      · cases hboth
  refine bind_step (hfits _ ⟨by omega, by omega⟩) ?_
  refine bind_step (hfits _ ⟨by omega, by omega⟩) ?_
  refine other_step (by omega) ?_
  refine bind_step (hfits _ ⟨by omega, by omega⟩) ?_
  refine bind_step (hfits _ ⟨by omega, by omega⟩) ?_
  refine bind_step (crossed_lessAt ⟨by omega, by omega⟩ ⟨by omega, by omega⟩) ?_
  rw [hchild_false, falseBelowTrue, Bool.and_false]
  refine bind_step (hfits _ ⟨by omega, by omega⟩) ?_
  refine bind_step hright ?_
  exact branch_step rfl rfl

theorem crossed_heapBuild (he : Modular arith) {lo : ℤ} {start rest : ℕ} (hn : n < 2147483648) (hlo : 0 ≤ lo)
    (hstart : (start + rest : ℕ) ≤ 1073741824) (hcount : lo + (start + rest : ℕ) * 2 ≤ n)
    (hp : lo + start * 2 + 1 > p) :
    heapBuild (crossedSetting arith false) lo (n - lo) (start + rest) (crossedState n p) =
      heapBuild (crossedSetting arith false) lo (n - lo) start (crossedState n p) := by
  induction rest with
  | zero => rfl
  | succ rest ih =>
    have hturns : ((n : ℤ) - lo).toNat = ((n : ℤ) - lo).toNat - 1 + 1 := by omega
    have hsift : sortSiftDownBy (crossedSetting arith false) (crossedState n p) lo ((start + rest : ℕ) : ℤ)
        (n - lo) = some (crossedState n p) := by
      unfold sortSiftDownBy
      rw [hturns, siftLoop, crossed_siftTurn he hn hlo (by omega) (by omega) (by omega) (by omega)]
      rfl
    change (sortSiftDownBy (crossedSetting arith false) (crossedState n p) lo ((start + rest : ℕ) : ℤ)
      (n - lo)).bind _ = _
    rw [hsift]
    exact ih (by omega) (by omega)

/-- The element at `p` is the left child of `root`, so `root` changes places with it. -/
theorem crossed_siftTurn_child (he : Modular arith) {lo root : ℤ} (hn : n < 2147483648) (hlo : 0 ≤ lo)
    (hroot : 0 ≤ root) (hsmall : root < 1073741824) (hchild : lo + root * 2 + 2 < n)
    (hleft : lo + root * 2 + 1 = p) :
    ∃ s, siftTurn (crossedSetting arith false) lo root (n - lo) (crossedState n p) =
      some (some (root * 2 + 1), s) := by
  have hfits := he.fits
  have hroot_false : decide ((lo + root).toNat = p) = false := decide_eq_false (by omega)
  have hchild_true : decide ((lo + (root * 2 + 1)).toNat = p) = true := decide_eq_true (by omega)
  have hright : rightIsLarger (crossedSetting arith false) lo (root * 2 + 1) (root * 2 + 1 + 1) (n - lo)
      (crossedState n p) = some (false, crossedState n p) := by
    refine branch_step (Or.inl (by omega)) ?_
    refine bind_step (hfits _ ⟨by omega, by omega⟩) ?_
    refine bind_step (hfits _ ⟨by omega, by omega⟩) ?_
    refine bind_step (crossed_lessAt ⟨by omega, by omega⟩ ⟨by omega, by omega⟩) ?_
    rw [hchild_true]
    change some (decide (root * 2 + 1 + 1 < (n : ℤ) - lo) && false, crossedState n p) = _
    rw [Bool.and_false]
  have hitems : (crossedState n p).items.length = n := crossed_length
  obtain ⟨s, hswap⟩ := sortSwap_total (s := crossedState n p) (a := lo + root)
    (b := lo + (root * 2 + 1)) ⟨by omega, by omega⟩ ⟨by omega, by omega⟩
  refine ⟨s, ?_⟩
  refine bind_step (hfits _ ⟨by omega, by omega⟩) ?_
  refine bind_step (hfits _ ⟨by omega, by omega⟩) ?_
  refine other_step (by omega) ?_
  refine bind_step (hfits _ ⟨by omega, by omega⟩) ?_
  refine bind_step (hfits _ ⟨by omega, by omega⟩) ?_
  refine bind_step (crossed_lessAt ⟨by omega, by omega⟩ ⟨by omega, by omega⟩) ?_
  rw [hroot_false, hchild_true]
  refine bind_step (hfits _ ⟨by omega, by omega⟩) ?_
  refine bind_step hright ?_
  refine other_step ?_ ?_
  · change root * 2 + 1 ≠ root
    omega
  · refine bind_step (hfits _ ⟨by omega, by omega⟩) ?_
    refine bind_step (hfits _ ⟨by omega, by omega⟩) ?_
    exact bind_step hswap rfl

/-- The turn after that looks for the children of a leaf beyond `2 ^ 30`. -/
theorem crossed_siftLoop (he : Modular arith) {lo root : ℤ} {turns : ℕ} (hn : n < 2147483648) (hlo : 0 ≤ lo)
    (hroot : 536870912 ≤ root) (hsmall : root < 1073741824) (hchild : lo + root * 2 + 2 < n)
    (hleft : lo + root * 2 + 1 = p) :
    siftLoop (crossedSetting arith false) lo (n - lo) (turns + 1) root (crossedState n p) = none := by
  obtain ⟨s, hturn⟩ := crossed_siftTurn_child he hn hlo (by omega) hsmall hchild hleft
  refine bind_step hturn ?_
  cases turns with
  | zero => rfl
  | succ turns =>
    change (siftTurn (crossedSetting arith false) lo (root * 2 + 1) (n - lo) s).bind _ = none
    rw [siftTurn_overflow (n := n) he hn hlo (by omega) (by omega) (by omega)]
    rfl

theorem halvings_eq {k m : ℕ} (hlow : 2 ^ k ≤ m) (hhigh : m < 2 ^ (k + 1)) : halvings m = k := by
  induction k generalizing m with
  | zero =>
    rw [halvings, if_pos (by omega)]
  | succ k ih =>
    have hpow : 2 ^ (k + 1) = 2 ^ k * 2 := Nat.pow_succ 2 k
    have hpow' : 2 ^ (k + 1 + 1) = 2 ^ (k + 1) * 2 := Nat.pow_succ 2 (k + 1)
    have hpos : 0 < 2 ^ k := Nat.pow_pos (by omega)
    rw [halvings, if_neg (by omega), ih (m := m / 2) (by omega) (by omega)]

/-- A slice of a little more than `2 ^ 30` elements, all equal but for one greater element among
    the leaves of the heap. -/
theorem crossed_sort (he : Modular arith) (hn : n = 1073742024) (hp : p = 1073741885) :
    sort (crossedSetting arith false) (crossedState n p) = none := by
  have hfits := he.fits
  have hlen : (crossedState n p).len = (n : ℤ) := by
    rw [Sorting.len, crossed_length]
    exact wrap32_of_fits ⟨by omega, by omega⟩
  have hdepth : sortDepthLimit (n : ℤ) = 60 := by
    have h30 : halvings n = 30 := halvings_eq (by omega) (by omega)
    rw [sortDepthLimit, Int.toNat_natCast, h30]
  have hlo : (0 : ℤ) + ((60 : ℕ) : ℤ) = 60 := by omega
  have hhalf : ((n : ℤ) - 60).tdiv 2 = (n - 60) / 2 := Int.tdiv_eq_ediv_of_nonneg (by omega)
  obtain ⟨root, hroot⟩ : ∃ root : ℕ, root = 536870912 := ⟨_, rfl⟩
  have hstart : (((n : ℤ) - 60) / 2).toNat = root + 1 + 69 := by omega
  have hturns : ((n : ℤ) - 60).toNat = 1073741963 + 1 := by omega
  refine other_step ?_ ?_
  · rw [hlen]
    omega
  · rw [hlen, hdepth, crossed_intro he (by omega) (by omega) (by omega) (by omega) (by omega), hlo]
    have hheap : sortHeapBy (crossedSetting arith false) (crossedState n p) 60 n = none := by
      refine bind_step (hfits _ ⟨by omega, by omega⟩) ?_
      rw [hhalf, hstart, crossed_heapBuild he (by omega) (by omega) (by omega) (by omega) (by omega)]
      unfold heapBuild sortSiftDownBy
      rw [hturns, crossed_siftLoop he (by omega) (by omega) (by omega) (by omega) (by omega) (by omega)]
      rfl
    rw [hheap]
    rfl

/-- Where both operands of `&&` are evaluated, the last parent of a heap with an even number of
    elements looks at the element after it. -/
theorem crossed_sort_both (he : Modular arith) (hn : n = 26) (hp : p = 26) :
    sort (crossedSetting arith true) (crossedState n p) = none := by
  have hfits := he.fits
  have hlen : (crossedState n p).len = (n : ℤ) := by
    rw [Sorting.len, crossed_length]
    exact wrap32_of_fits ⟨by omega, by omega⟩
  have hdepth : sortDepthLimit (n : ℤ) = 8 := by
    have h4 : halvings n = 4 := halvings_eq (by omega) (by omega)
    rw [sortDepthLimit, Int.toNat_natCast, h4]
  have hlo : (0 : ℤ) + ((8 : ℕ) : ℤ) = 8 := by omega
  have hhalf : ((n : ℤ) - 8).tdiv 2 = (n - 8) / 2 := Int.tdiv_eq_ediv_of_nonneg (by omega)
  obtain ⟨root, hroot⟩ : ∃ root : ℕ, root = 8 := ⟨_, rfl⟩
  have hstart : (((n : ℤ) - 8) / 2).toNat = root + 1 := by omega
  have hturns : ((n : ℤ) - 8).toNat = 17 + 1 := by omega
  have hchild_false : decide (((8 : ℤ) + (root * 2 + 1)).toNat = p) = false :=
    decide_eq_false (by omega)
  have hright : rightIsLarger (crossedSetting arith true) 8 root (root * 2 + 1 + 1) (n - 8)
      (crossedState n p) = none := by
    refine branch_step (Or.inr rfl) ?_
    refine bind_step (hfits _ ⟨by omega, by omega⟩) ?_
    refine bind_step (hfits _ ⟨by omega, by omega⟩) ?_
    have hpast : (crossedState n p).read (8 + (root * 2 + 1 + 1)) = none := by
      rw [Sorting.read, if_pos (by omega), List.getElem?_eq_none (by rw [crossed_length]; omega)]
    rw [Setting.lessAt, crossed_read (by omega) (by omega), hpast]
    rfl
  have hturn : siftTurn (crossedSetting arith true) 8 root (n - 8) (crossedState n p) = none := by
    refine bind_step (hfits _ ⟨by omega, by omega⟩) ?_
    refine bind_step (hfits _ ⟨by omega, by omega⟩) ?_
    refine other_step (by omega) ?_
    refine bind_step (hfits _ ⟨by omega, by omega⟩) ?_
    refine bind_step (hfits _ ⟨by omega, by omega⟩) ?_
    refine bind_step (crossed_lessAt ⟨by omega, by omega⟩ ⟨by omega, by omega⟩) ?_
    rw [hchild_false, falseBelowTrue, Bool.and_false]
    refine bind_step (hfits _ ⟨by omega, by omega⟩) ?_
    change (rightIsLarger (crossedSetting arith true) 8 root (root * 2 + 1 + 1) (n - 8)
      (crossedState n p)).bind _ = none
    rw [hright]
    rfl
  refine other_step ?_ ?_
  · rw [hlen]
    omega
  · rw [hlen, hdepth, crossed_intro he (by omega) (by omega) (by omega) (by omega) (by omega), hlo]
    have hheap : sortHeapBy (crossedSetting arith true) (crossedState n p) 8 n = none := by
      refine bind_step (hfits _ ⟨by omega, by omega⟩) ?_
      rw [hhalf, hstart, heapBuild, sortSiftDownBy, hturns, siftLoop, hturn]
      rfl
    rw [hheap]
    rfl

/-- `sort.sort` on `2 ^ 30 + 200` elements, all equal but the one at `2 ^ 30 + 61`, and as it is
    emitted, where both operands of `&&` are evaluated, on 26 equal elements. -/
theorem leaf_beyond_half_unsorted :
    ¬ Sorts false falseBelowTrue (crossed 1073742024 1073741885) ∧
      ¬ Sorts true falseBelowTrue (crossed 26 26) := by
  constructor
  · rintro ⟨sorted, hrun, _⟩
    obtain ⟨s, hs, _⟩ := sortRun_some hrun
    have hnone := crossed_sort (n := 1073742024) (p := 1073741885) wrapping_modular rfl rfl
    cases hs.symm.trans hnone
  · rintro ⟨sorted, hrun, _⟩
    obtain ⟨s, hs, _⟩ := sortRun_some hrun
    have hnone := crossed_sort_both (n := 26) (p := 26) wrapping_modular rfl rfl
    cases hs.symm.trans hnone

end Crossed

end NewClLang.IntroSortOrder
