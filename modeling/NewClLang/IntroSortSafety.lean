import NewClLang.IntroSortOrder

set_option autoImplicit false

/-!
# sort.sort with any comparator

Nothing is asked of the comparator, which may answer by the count of its calls. A run that leaves the
slice does so in a heap: at the element after it, which the right operand of `&&` reads, or where the
index of a child overflows.
-/
namespace NewClLang.IntroSortSafety
open WrappedIntegers IntroSort IntroSortRuns IntroSortOverflow IntroSortOrder

section Safety

/-- As it is emitted, the run on any `n` elements comes to its end without an access outside the
    slice and rearranges them. -/
def Safe (n : ℕ) : Prop :=
  ∀ (α W : Type) (less : α → α → W → Bool × W) (s : Sorting α W), s.items.length = n →
    ∃ s', sort ⟨wrapping, true, less⟩ s = some s' ∧ s'.items.Perm s.items

/-- No heap has more than 17 elements, or it has at most `2 ^ 30` and `len` reads less than the
    length. -/
def Shallow (n : ℕ) : Prop :=
  wrap32 n ≤ 25 ∨ (wrap32 n < n ∧ wrap32 n ≤ 1073741884)

instance (n : ℕ) : Decidable (Shallow n) := inferInstanceAs (Decidable (_ ∨ _))

theorem depth_eq {z : ℤ} {k : ℕ} (hlow : 2 ^ k ≤ z.toNat) (hhigh : z.toNat < 2 ^ (k + 1)) :
    sortDepthLimit z = k * 2 := by rw [sortDepthLimit, halvings_eq hlow hhigh]

theorem safe_of_shallow {n : ℕ} (h : Shallow n) : Safe n := by
  intro α W less s hlength
  have hlen : s.len = wrap32 n := by rw [Sorting.len, hlength]
  have hruns : ∃ s', sort ⟨wrapping, true, less⟩ s = some s' := by
    have hfits := wrap32_fits n
    unfold Fits at hfits
    rcases h with hshort | ⟨hbeyond, hlong⟩
    · refine sort_total_within (c := 17) wrapping_modular (by omega) (fun _ => Or.inr (le_refl _)) ?_
      by_cases hfew : s.len ≤ 17
      · omega
      · have hdepth : sortDepthLimit s.len = 4 * 2 := depth_eq (by omega) (by omega)
        omega
    · refine sort_total_within (c := 1073741824) wrapping_modular (le_refl _)
        (fun _ => Or.inl (by omega)) ?_
      by_cases hfew : s.len ≤ 1073741824
      · omega
      · have hdepth : sortDepthLimit s.len = 30 * 2 := depth_eq (by omega) (by omega)
        omega
  obtain ⟨s', hs'⟩ := hruns
  exact ⟨s', hs', (sort_some wrapping_modular hs').perm⟩

end Safety

section Counting
variable {arith : Arithmetic} {t : ℕ → Bool} {n w : ℕ}

/-- The comparator answers `t` of the count of the calls before. -/
abbrev countingSetting (arith : Arithmetic) (t : ℕ → Bool) : Setting Unit ℕ :=
  ⟨arith, true, fun _ _ w => (t w, w + 1)⟩

abbrev units (n w : ℕ) : Sorting Unit ℕ := ⟨List.replicate n (), w⟩

/-- How many of the calls from `w` on are answered with true. -/
def trues (t : ℕ → Bool) : ℕ → ℕ → ℕ
  | 0, _ => 0
  | turns + 1, w => (if t w then 1 else 0) + trues t turns (w + 1)

theorem trues_none (turns : ℕ) (h : ∀ v, w ≤ v → t v = false) : trues t turns w = 0 := by
  induction turns generalizing w with
  | zero => rfl
  | succ turns ih =>
    rw [trues, h w (le_refl w), ih (fun v hv => h v (by omega))]
    rfl

theorem trues_all (turns : ℕ) (h : ∀ v, t v = true) : trues t turns w = turns := by
  induction turns generalizing w with
  | zero => rfl
  | succ turns ih =>
    rw [trues, h w, if_pos rfl, ih]
    omega

theorem units_read {i : ℤ} (h : 0 ≤ i ∧ i < n) : (units n w).read i = some () := by
  rw [Sorting.read, if_pos h.1, List.getElem?_replicate, if_pos (by omega)]

theorem units_write {i : ℤ} (h : 0 ≤ i ∧ i < n) : (units n w).write i () = some (units n w) := by
  have hlt : i < (List.replicate n ()).length := by
    rw [List.length_replicate]
    exact h.2
  rw [write_total h.1 hlt]
  simp

theorem units_swap {i j : ℤ} (hi : 0 ≤ i ∧ i < n) (hj : 0 ≤ j ∧ j < n) :
    sortSwap (units n w) i j = some (units n w) := by
  unfold sortSwap
  by_cases hij : i = j
  · rw [if_pos hij]
  · rw [if_neg hij]
    refine bind_step (units_read hi) ?_
    refine bind_step (units_read hj) ?_
    exact bind_step (units_write hi) (units_write hj)

theorem units_lessAt {i j : ℤ} (hi : 0 ≤ i ∧ i < n) (hj : 0 ≤ j ∧ j < n) :
    (countingSetting arith t).lessAt i j (units n w) = some (t w, units n (w + 1)) :=
  bind_step (units_read hi) (bind_step (units_read hj) rfl)

theorem units_lessAt_past {i j : ℤ} (hj : n ≤ j) :
    (countingSetting arith t).lessAt i j (units n w) = none := by
  have hpast : (units n w).read j = none := by
    rw [Sorting.read, if_pos (by omega), List.getElem?_replicate, if_neg (by omega)]
  unfold Setting.lessAt
  rw [hpast]
  cases (units n w).read i <;> rfl

theorem units_swapIfLess {i j a b : ℤ} (hi : 0 ≤ i ∧ i < n) (hj : 0 ≤ j ∧ j < n)
    (ha : 0 ≤ a ∧ a < n) (hb : 0 ≤ b ∧ b < n) :
    swapIfLess (countingSetting arith t) i j a b (units n w) = some (units n (w + 1)) := by
  refine bind_step (units_lessAt hi hj) ?_
  by_cases ht : t w = true
  · exact branch_step ht (units_swap ha hb)
  · exact other_step ht rfl

theorem units_partitionLoop (he : Modular arith) {turns : ℕ} {i store : ℤ} (hstore : 0 ≤ store)
    (hle : store ≤ i) (hlast : i + turns < n) (hsmall : i + turns < 2147483648) :
    partitionLoop (countingSetting arith t) () turns i store (units n w) =
      some (store + trues t turns w, units n (w + turns)) := by
  induction turns generalizing i store w with
  | zero =>
    rw [partitionLoop, trues]
    simp
  | succ turns ih =>
    have hcalls : w + (turns + 1) = w + 1 + turns := by omega
    rw [hcalls, trues]
    refine bind_step (units_read ⟨by omega, by omega⟩) ?_
    change (if t w = true then _ else _) = _
    by_cases ht : t w = true
    · have hcount : store + (((if t w = true then 1 else 0) + trues t turns (w + 1) : ℕ) : ℤ) =
          store + 1 + trues t turns (w + 1) := by
        rw [if_pos ht]
        omega
      rw [hcount]
      refine branch_step ht ?_
      refine bind_step (units_swap ⟨by omega, by omega⟩ ⟨by omega, by omega⟩) ?_
      refine bind_step (he.fits _ ⟨by omega, by omega⟩) ?_
      exact ih (by omega) (by omega) (by omega) (by omega)
    · have hcount : store + (((if t w = true then 1 else 0) + trues t turns (w + 1) : ℕ) : ℤ) =
          store + trues t turns (w + 1) := by
        rw [if_neg ht]
        omega
      rw [hcount]
      refine other_step ht ?_
      exact ih hstore (by omega) (by omega) (by omega)

/-- After the three calls for the median, the pivot comes to stand behind as many elements as there
    are calls answered with true. -/
theorem units_partition (he : Modular arith) {lo hi : ℤ} (hlo : 0 ≤ lo) (hlt : lo < hi)
    (hhi : hi ≤ n) (hsmall : hi < 2147483648) {pivot : ℤ} (hpivot : pivot = lo + trues t (hi - 1 - lo).toNat (w + 3))
    (hin : pivot < hi) :
    sortPartitionBy (countingSetting arith t) (units n w) lo hi =
      some (pivot, units n (w + 3 + (hi - 1 - lo).toNat)) := by
  have hfits := he.fits
  have hhalf : (hi - lo).tdiv 2 = (hi - lo) / 2 := Int.tdiv_eq_ediv_of_nonneg (by omega)
  refine bind_step (hfits _ ⟨by omega, by omega⟩) ?_
  refine bind_step (hfits _ ⟨by omega, by omega⟩) ?_
  refine bind_step (hfits _ ⟨by omega, by omega⟩) ?_
  rw [hhalf]
  generalize hindex : lo + (hi - lo) / 2 = mid
  have hlo_in : 0 ≤ lo ∧ lo < n := ⟨hlo, by omega⟩
  have hmid_in : 0 ≤ mid ∧ mid < n := ⟨by omega, by omega⟩
  have hlast_in : 0 ≤ hi - 1 ∧ hi - 1 < n := ⟨by omega, by omega⟩
  have hpivot_in : 0 ≤ pivot ∧ pivot < n := ⟨by omega, by omega⟩
  refine bind_step (units_swapIfLess hmid_in hlo_in hlo_in hmid_in) ?_
  refine bind_step (units_swapIfLess hlast_in hmid_in hmid_in hlast_in) ?_
  refine bind_step (units_swapIfLess hmid_in hlo_in hlo_in hmid_in) ?_
  refine bind_step (units_read hmid_in) ?_
  refine bind_step (units_swap hmid_in hlast_in) ?_
  refine bind_step (units_partitionLoop he hlo (Int.le_refl lo) (by omega) (by omega)) ?_
  change (sortSwap (units n (w + 3 + (hi - 1 - lo).toNat))
    (lo + trues t (hi - 1 - lo).toNat (w + 3)) (hi - 1)).bind _ = _
  rw [← hpivot]
  exact bind_step (units_swap hpivot_in hlast_in) rfl

/-- A part of at most 16 elements is left to the insertion sort. -/
theorem units_intro_few (he : Modular arith) (depth : ℕ) {lo hi : ℤ} (hle : lo ≤ hi) (hfew : hi - lo ≤ 16) :
    sortIntroBy (countingSetting arith t) depth (units n w) lo hi = some (units n w) := by
  cases depth with
  | zero =>
    refine bind_step (he.fits _ ⟨by omega, by omega⟩) ?_
    exact other_step (by omega) rfl
  | succ depth =>
    refine bind_step (he.fits _ ⟨by omega, by omega⟩) ?_
    exact other_step (by omega) rfl

end Counting

section Overruns
variable {arith : Arithmetic} {t : ℕ → Bool} {n w : ℕ}

theorem bind_undefined {β γ : Type} {x : Option γ} {f : γ → Option β} (hx : x = none) :
    x.bind f = none := by
  rw [hx]
  rfl

/-- The last parent of a heap with an even number of elements has no right child. -/
theorem units_heap_past (he : Modular arith) (hn : n < 2147483648) {lo : ℤ} (hlo : 0 ≤ lo)
    (hwide : lo + 1 < n) (heven : (n - lo) % 2 = 0) :
    sortHeapBy (countingSetting arith t) (units n w) lo n = none := by
  have hfits := he.fits
  have hhalf : ((n : ℤ) - lo).tdiv 2 = (n - lo) / 2 := Int.tdiv_eq_ediv_of_nonneg (by omega)
  obtain ⟨root, hroot⟩ : ∃ root : ℕ, (root : ℤ) * 2 + 2 = n - lo :=
    ⟨(((n : ℤ) - lo) / 2 - 1).toNat, by omega⟩
  have hstart : (((n : ℤ) - lo) / 2).toNat = root + 1 := by omega
  have hturns : ((n : ℤ) - lo).toNat = (root * 2 + 1) + 1 := by omega
  have hturn : siftTurn (countingSetting arith t) lo root (n - lo) (units n w) = none := by
    refine bind_step (hfits _ ⟨by omega, by omega⟩) ?_
    refine bind_step (hfits _ ⟨by omega, by omega⟩) ?_
    refine other_step (by omega) ?_
    refine bind_step (hfits _ ⟨by omega, by omega⟩) ?_
    refine bind_step (hfits _ ⟨by omega, by omega⟩) ?_
    refine bind_step (units_lessAt ⟨by omega, by omega⟩ ⟨by omega, by omega⟩) ?_
    refine bind_step (hfits _ ⟨by omega, by omega⟩) ?_
    dsimp only
    generalize hlargest : (if t w = true then (root : ℤ) * 2 + 1 else root) = largest
    have hbounds : Fits (lo + largest) := by
      unfold Fits
      by_cases ht : t w = true
      · rw [if_pos ht] at hlargest
        omega
      · rw [if_neg ht] at hlargest
        omega
    refine bind_undefined ?_
    refine branch_step (Or.inr rfl) ?_
    refine bind_step (hfits _ hbounds) ?_
    refine bind_step (hfits _ ⟨by omega, by omega⟩) ?_
    exact bind_undefined (units_lessAt_past (by omega))
  refine bind_step (hfits _ ⟨by omega, by omega⟩) ?_
  rw [hhalf, hstart, heapBuild, sortSiftDownBy, hturns, siftLoop, hturn]
  rfl

/-- Where every answer is true, the last parent sinks to the last leaf. -/
theorem units_heap_overflow (he : Modular arith) (ht : ∀ v, t v = true)
    {lo hi : ℤ} (hlo : 0 ≤ lo) (hhi : hi < n) (hsmall : hi < 2147483648)
    (hbig : 1073741824 < hi - lo) :
    sortHeapBy (countingSetting arith t) (units n w) lo hi = none := by
  have hfits := he.fits
  have hhalf : (hi - lo).tdiv 2 = (hi - lo) / 2 := Int.tdiv_eq_ediv_of_nonneg (by omega)
  obtain ⟨root, hroot⟩ : ∃ root : ℕ, (root : ℤ) + 1 = (hi - lo) / 2 :=
    ⟨((hi - lo) / 2 - 1).toNat, by omega⟩
  have hstart : ((hi - lo) / 2).toNat = root + 1 := by omega
  obtain ⟨turns, hturns⟩ : ∃ turns : ℕ, (hi - lo).toNat = turns + 1 + 1 :=
    ⟨(hi - lo).toNat - 2, by omega⟩
  have hturn : siftTurn (countingSetting arith t) lo root (hi - lo) (units n w) =
      some (some (hi - lo - 1), units n (w + 1 + 1)) := by
    refine bind_step (hfits _ ⟨by omega, by omega⟩) ?_
    refine bind_step (hfits _ ⟨by omega, by omega⟩) ?_
    refine other_step (by omega) ?_
    refine bind_step (hfits _ ⟨by omega, by omega⟩) ?_
    refine bind_step (hfits _ ⟨by omega, by omega⟩) ?_
    refine bind_step (units_lessAt ⟨by omega, by omega⟩ ⟨by omega, by omega⟩) ?_
    refine bind_step (hfits _ ⟨by omega, by omega⟩) ?_
    have hlarger : rightIsLarger (countingSetting arith t) lo
        (if t w = true then (root : ℤ) * 2 + 1 else root) (root * 2 + 1 + 1) (hi - lo)
        (units n (w + 1)) =
          some (decide ((root : ℤ) * 2 + 1 + 1 < hi - lo), units n (w + 1 + 1)) := by
      rw [ht w, if_pos rfl]
      refine branch_step (Or.inr rfl) ?_
      refine bind_step (hfits _ ⟨by omega, by omega⟩) ?_
      refine bind_step (hfits _ ⟨by omega, by omega⟩) ?_
      refine bind_step (units_lessAt ⟨by omega, by omega⟩ ⟨by omega, by omega⟩) ?_
      rw [ht (w + 1)]
      dsimp only
      rw [Bool.and_true]
    refine bind_step hlarger ?_
    dsimp only
    have hleaf : (if decide ((root : ℤ) * 2 + 1 + 1 < hi - lo) = true then (root : ℤ) * 2 + 1 + 1
        else if t w = true then (root : ℤ) * 2 + 1 else root) = hi - lo - 1 := by
      rw [ht w, if_pos rfl]
      by_cases hright : (root : ℤ) * 2 + 1 + 1 < hi - lo
      · rw [decide_eq_true hright, if_pos rfl]
        omega
      · rw [decide_eq_false hright, if_neg Bool.false_ne_true]
        omega
    rw [hleaf]
    refine other_step (by omega) ?_
    refine bind_step (hfits _ ⟨by omega, by omega⟩) ?_
    refine bind_step (hfits _ ⟨by omega, by omega⟩) ?_
    exact bind_step (units_swap ⟨by omega, by omega⟩ ⟨by omega, by omega⟩) rfl
  have hover : siftTurn (countingSetting arith t) lo (hi - lo - 1) (hi - lo)
      (units n (w + 1 + 1)) = none :=
    siftTurn_overflow (n := hi.toNat) he (by omega) hlo (by omega) (by omega) (by omega)
  refine bind_step (hfits _ ⟨by omega, by omega⟩) ?_
  rw [hhalf, hstart]
  refine bind_undefined ?_
  refine bind_undefined ?_
  rw [sortSiftDownBy, hturns]
  refine bind_step hturn ?_
  exact bind_undefined hover

/-- Where every answer is false, each level leaves its first element behind. -/
theorem units_intro_past (he : Modular arith) (hn : n < 2147483648) {depth : ℕ} {lo : ℤ}
    (hlo : 0 ≤ lo) (ht : ∀ v, w ≤ v → t v = false) (hwide : lo + depth + 16 < n)
    (heven : (n - lo - depth) % 2 = 0) :
    sortIntroBy (countingSetting arith t) depth (units n w) lo n = none := by
  have hfits := he.fits
  induction depth generalizing lo w with
  | zero =>
    refine bind_step (hfits _ ⟨by omega, by omega⟩) ?_
    refine branch_step (by omega) ?_
    exact units_heap_past he hn hlo (by omega) (by omega)
  | succ depth ih =>
    have hnone : ∀ v, w + 3 ≤ v → t v = false := fun v hv => ht v (by omega)
    have hpivot : lo = lo + trues t ((n : ℤ) - 1 - lo).toNat (w + 3) := by
      rw [trues_none _ hnone]
      omega
    refine bind_step (hfits _ ⟨by omega, by omega⟩) ?_
    refine branch_step (by omega) ?_
    refine bind_step (units_partition he hlo (by omega) (Int.le_refl _) (by omega) hpivot (by omega)) ?_
    refine bind_step (hfits _ ⟨by omega, by omega⟩) ?_
    refine bind_step (hfits _ ⟨by omega, by omega⟩) ?_
    refine bind_step (hfits _ ⟨by omega, by omega⟩) ?_
    refine branch_step (by omega) ?_
    refine bind_step (units_intro_few he depth (Int.le_refl lo) (by omega)) ?_
    exact ih (by omega) (fun v hv => ht v (by omega)) (by omega) (by omega)

/-- Where every answer is true, each level leaves its last element behind. -/
theorem units_intro_overflow (he : Modular arith) (ht : ∀ v, t v = true)
    {depth : ℕ} {hi : ℤ} (hhi : hi < n) (hsmall : hi < 2147483648)
    (hbig : 1073741824 + depth < hi) :
    sortIntroBy (countingSetting arith t) depth (units n w) 0 hi = none := by
  have hfits := he.fits
  induction depth generalizing hi w with
  | zero =>
    refine bind_step (hfits _ ⟨by omega, by omega⟩) ?_
    refine branch_step (by omega) ?_
    exact units_heap_overflow he ht (Int.le_refl 0) hhi hsmall (by omega)
  | succ depth ih =>
    have hpivot : hi - 1 = 0 + trues t (hi - 1 - 0).toNat (w + 3) := by
      rw [trues_all _ ht]
      omega
    have hnext : hi - 1 + 1 = hi := by omega
    refine bind_step (hfits _ ⟨by omega, by omega⟩) ?_
    refine branch_step (by omega) ?_
    refine bind_step (units_partition he (Int.le_refl 0) (by omega) (by omega) hsmall hpivot
      (by omega)) ?_
    refine bind_step (hfits _ ⟨by omega, by omega⟩) ?_
    refine bind_step (hfits _ ⟨by omega, by omega⟩) ?_
    refine bind_step (hfits _ ⟨by omega, by omega⟩) ?_
    refine other_step (by omega) ?_
    rw [hnext]
    refine bind_step (units_intro_few he depth (Int.le_refl hi) (by omega)) ?_
    exact ih (by omega) (by omega) (by omega)

end Overruns

section Lengths
variable {arith : Arithmetic} {n w : ℕ}

/-- From 26 elements on the depth leaves more than 17. -/
theorem depth_le {n : ℕ} (hn : 26 ≤ n) : halvings n * 2 + 18 ≤ n := by
  induction n using Nat.strongRecOn with
  | ind n ih =>
    by_cases hfew : n < 32
    · have hfour : halvings n = 4 := halvings_eq (by omega) (by omega)
      omega
    by_cases hmore : n < 52
    · have hfive : halvings n = 5 := halvings_eq (by omega) (by omega)
      omega
    · have hhalf := ih (n / 2) (by omega) (by omega)
      rw [halvings, if_neg (by omega)]
      omega

theorem units_len {k : ℤ} (hk : wrap32 n = k) : (units n w).len = k := by
  rw [Sorting.len, List.length_replicate, hk]

theorem units_sort {t : ℕ → Bool} {k : ℤ} (hk : wrap32 n = k) (hwide : 2 ≤ k)
    (h : sortIntroBy (countingSetting arith t) (sortDepthLimit k) (units n w) 0 k = none) :
    sort (countingSetting arith t) (units n w) = none := by
  unfold sort
  rw [units_len hk]
  exact other_step (by omega) (bind_undefined h)

/-- The fourth call is for the first element of a partition. -/
def fourth (v : ℕ) : Bool := v == 3

theorem fourth_later {v : ℕ} (h : 4 ≤ v) : fourth v = false := beq_false_of_ne (by omega)

/-- An even number of elements that are all equal. -/
theorem sort_even (he : Modular arith) (hn : n < 2147483648) (hmany : 26 ≤ n)
    (heven : n % 2 = 0) : sort (countingSetting arith fourth) (units n 4) = none := by
  have hdepth := depth_le hmany
  refine units_sort (wrap32_of_fits ⟨by omega, by omega⟩) (by omega) ?_
  rw [sortDepthLimit, Int.toNat_natCast]
  exact units_intro_past he hn (Int.le_refl 0) (fun v hv => fourth_later hv) (by omega) (by omega)

/-- With an odd number of elements the first partition has to leave two behind. -/
theorem sort_odd (he : Modular arith) (hn : n < 2147483648) (hmany : 26 ≤ n)
    (hodd : n % 2 = 1) : sort (countingSetting arith fourth) (units n 0) = none := by
  have hfits := he.fits
  have hdepth := depth_le hmany
  have hpivot : (1 : ℤ) = 0 + trues fourth ((n : ℤ) - 1 - 0).toNat (0 + 3) := by
    have hturns : ((n : ℤ) - 1 - 0).toNat = (n - 2) + 1 := by omega
    rw [hturns, trues, trues_none _ (fun v hv => fourth_later (by omega))]
    rfl
  obtain ⟨half, hhalf⟩ : ∃ half, halvings n = half + 1 := by
    rw [halvings, if_neg (by omega)]
    exact ⟨_, rfl⟩
  have hlimit : sortDepthLimit n = (half * 2 + 1) + 1 := by
    rw [sortDepthLimit, Int.toNat_natCast, hhalf]
    omega
  refine units_sort (wrap32_of_fits ⟨by omega, by omega⟩) (by omega) ?_
  rw [hlimit]
  refine bind_step (hfits _ ⟨by omega, by omega⟩) ?_
  refine branch_step (by omega) ?_
  refine bind_step (units_partition he (Int.le_refl 0) (by omega) (Int.le_refl _) (by omega) hpivot
    (by omega)) ?_
  refine bind_step (hfits _ ⟨by omega, by omega⟩) ?_
  refine bind_step (hfits _ ⟨by omega, by omega⟩) ?_
  refine bind_step (hfits _ ⟨by omega, by omega⟩) ?_
  refine branch_step (by omega) ?_
  refine bind_step (units_intro_few he _ (by omega) (by omega)) ?_
  exact units_intro_past he hn (by omega) (fun v hv => fourth_later (by omega)) (by omega) (by omega)

/-- More than `2 ^ 30 + 60` elements of a slice that has more than `len` reads. -/
theorem sort_beyond (he : Modular arith) {k : ℤ} (hk : wrap32 n = k) (hbeyond : k < n)
    (hmany : 1073741884 < k) : sort (countingSetting arith (fun _ => true)) (units n 0) = none := by
  have hfits := wrap32_fits n
  rw [hk] at hfits
  obtain ⟨_, hsmall⟩ := hfits
  have hdepth : sortDepthLimit k = 30 * 2 := depth_eq (by omega) (by omega)
  refine units_sort hk (by omega) ?_
  rw [hdepth]
  exact units_intro_overflow he (fun _ => rfl) hbeyond hsmall (by omega)

theorem safe_units {t : ℕ → Bool} (h : Safe n) : sort (countingSetting wrapping t) (units n w) ≠ none := by
  obtain ⟨s', hs', _⟩ := h Unit ℕ (fun _ _ w => (t w, w + 1)) (units n w) List.length_replicate
  intro hnone
  rw [hs'] at hnone
  cases hnone

/-- The sort of `n` elements is safe with every comparator if and only if none of its heaps reaches
    beyond the slice. -/
theorem safe_iff (n : ℕ) : Safe n ↔ Shallow n := by
  constructor
  · intro h
    by_contra hdeep
    have hread : wrap32 n ≤ n := wrap32_le (Int.natCast_nonneg n)
    have hfits := wrap32_fits n
    unfold Fits at hfits
    unfold Shallow at hdeep
    by_cases hbeyond : wrap32 n < n
    · exact safe_units h (sort_beyond wrapping_modular rfl hbeyond (by omega))
    · rcases Nat.mod_two_eq_zero_or_one n with heven | hodd
      · exact safe_units h (sort_even wrapping_modular (by omega) (by omega) heven)
      · exact safe_units h (sort_odd wrapping_modular (by omega) (by omega) hodd)
  · exact safe_of_shallow

/-- 26 elements that are all equal. -/
theorem equal_elements_unsafe : ¬ Safe 26 := fun h =>
  safe_units h (sort_even wrapping_modular (by decide) (by decide) (by decide))

end Lengths

end NewClLang.IntroSortSafety
