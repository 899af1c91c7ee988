import NewClLang.IntroSortRuns

set_option autoImplicit false

/-!
# Where the index arithmetic of sort.sort overflows

The run with wrapping operations is the run in which an operation whose result does not fit is
undefined: the one operation that can overflow is `root * 2 + 1`, and then the element it leads to is
outside the slice. A slice of at most `2 ^ 30` elements is always sorted without that.
-/
namespace NewClLang.IntroSortOverflow
open WrappedIntegers IntroSort IntroSortRuns

section Agreement
variable {α W β : Type} {e : Setting α W} {a : Arithmetic} {n : ℕ}

/-- The same setting with other operations on `i32`. -/
abbrev withArith (e : Setting α W) (a : Arithmetic) : Setting α W := { e with arith := a }

theorem bind_agree (he : Modular e.arith) (ha : Modular a) {z : ℤ} {f g : ℤ → Option β}
    (hz : Fits z) (h : f z = g z) : ((withArith e a).arith z).bind f = (e.arith z).bind g := by
  change (a z).bind f = (e.arith z).bind g
  rw [ha.fits z hz, he.fits z hz]
  exact h

theorem branch_agree {c : Prop} [Decidable c] {x x' y y' : β} (hthen : c → x = x')
    (helse : ¬ c → y = y') : (if c then x else y) = (if c then x' else y') := by
  by_cases hc : c
  · rw [if_pos hc, if_pos hc, hthen hc]
  · rw [if_neg hc, if_neg hc, helse hc]

theorem partitionLoop_agree (he : Modular e.arith) (ha : Modular a) (hn : n < 2147483648)
    {pivotValue : α} {turns : ℕ} {i store : ℤ} {s : Sorting α W} (hstore : 0 ≤ store)
    (hle : store ≤ i) (hlast : i + turns < n) :
    partitionLoop (withArith e a) pivotValue turns i store s =
      partitionLoop e pivotValue turns i store s := by
  induction turns generalizing i store s with
  | zero => rfl
  | succ turns ih =>
    refine Option.bind_congr ?_
    intro item _
    refine branch_agree ?_ ?_
    · intro _
      refine Option.bind_congr ?_
      intro s₂ _
      refine bind_agree he ha ⟨by omega, by omega⟩ ?_
      exact ih (by omega) (by omega) (by omega)
    · intro _
      exact ih hstore (by omega) (by omega)

theorem sortPartitionBy_agree (he : Modular e.arith) (ha : Modular a) (hn : n < 2147483648)
    {lo hi : ℤ} {s : Sorting α W} (hlo : 0 ≤ lo) (hlt : lo < hi) (hhi : hi ≤ n) :
    sortPartitionBy (withArith e a) s lo hi = sortPartitionBy e s lo hi := by
  have hhalf : (hi - lo).tdiv 2 = (hi - lo) / 2 := Int.tdiv_eq_ediv_of_nonneg (by omega)
  refine bind_agree he ha ⟨by omega, by omega⟩ ?_
  refine bind_agree he ha ⟨by omega, by omega⟩ ?_
  refine bind_agree he ha ⟨by omega, by omega⟩ ?_
  refine Option.bind_congr ?_
  intro s₁ _
  refine Option.bind_congr ?_
  intro s₂ _
  refine Option.bind_congr ?_
  intro s₃ _
  refine Option.bind_congr ?_
  intro pivotValue _
  refine Option.bind_congr ?_
  intro s₄ _
  rw [partitionLoop_agree he ha hn hlo (Int.le_refl lo) (by omega)]

theorem insertionShift_agree (he : Modular e.arith) (ha : Modular a) (hn : n < 2147483648)
    {value : α} {lo turns : ℕ} {s : Sorting α W} (hj : lo + turns < n) :
    insertionShift (withArith e a) value turns ((lo + turns : ℕ) : ℤ) s =
      insertionShift e value turns ((lo + turns : ℕ) : ℤ) s := by
  induction turns generalizing s with
  | zero => rfl
  | succ turns ih =>
    have hindex : ((lo + (turns + 1) : ℕ) : ℤ) - 1 = ((lo + turns : ℕ) : ℤ) := by omega
    refine bind_agree he ha ⟨by omega, by omega⟩ ?_
    rw [hindex]
    refine Option.bind_congr ?_
    intro item _
    refine branch_agree ?_ ?_
    · intro _
      refine Option.bind_congr ?_
      intro s₂ _
      exact ih (by omega)
    · intro _
      rfl

theorem insertionLoop_agree (he : Modular e.arith) (ha : Modular a) (hn : n < 2147483648)
    {lo turns i : ℕ} {s : Sorting α W} (hlo : lo ≤ i) (hi : i + turns ≤ n) :
    insertionLoop (withArith e a) lo turns i s = insertionLoop e lo turns i s := by
  induction turns generalizing i s with
  | zero => rfl
  | succ turns ih =>
    have hturn : insertionTurn (withArith e a) lo i s = insertionTurn e lo i s := by
      have hturns : ((i : ℤ) - lo).toNat = i - lo := by omega
      have hstart : (i : ℤ) = ((lo + (i - lo) : ℕ) : ℤ) := by omega
      refine Option.bind_congr ?_
      intro value _
      rw [hturns, hstart, insertionShift_agree he ha hn (by omega)]
    unfold insertionLoop
    rw [hturn]
    refine Option.bind_congr ?_
    intro s₁ _
    exact ih (i := i + 1) (by omega) (by omega)

theorem sortInsertionBy_agree (he : Modular e.arith) (ha : Modular a) (hn : n < 2147483648)
    (lo : ℕ) {hi : ℕ} {s : Sorting α W} (hlo : lo < hi) (hhi : hi ≤ n) :
    sortInsertionBy (withArith e a) s lo hi = sortInsertionBy e s lo hi := by
  refine bind_agree he ha ⟨by omega, by omega⟩ ?_
  exact insertionLoop_agree (i := lo + 1) he ha hn (by omega) (by omega)

/-- Where `root * 2 + 1` overflows, the turn reads outside the slice. -/
theorem siftTurn_overflow (he : Modular e.arith) (hn : n < 2147483648) {lo root count : ℤ}
    {s : Sorting α W} (hlo : 0 ≤ lo) (hroot : 1073741824 ≤ root) (hlt : root < count)
    (hcount : lo + count ≤ n) : siftTurn e lo root count s = none := by
  cases hturn : siftTurn e lo root count s with
  | none => rfl
  | some out =>
    obtain ⟨twice, htwice, h⟩ := Option.bind_eq_some_iff.mp hturn
    obtain ⟨child, hchild, h⟩ := Option.bind_eq_some_iff.mp h
    have hcases := child_cases he (by omega) (by omega) htwice hchild
    have hend : ¬ child ≥ count := by omega
    rw [if_neg hend] at h
    obtain ⟨i, _, h⟩ := Option.bind_eq_some_iff.mp h
    obtain ⟨j, hj, h⟩ := Option.bind_eq_some_iff.mp h
    have hj := he.eq_of_fits (by unfold Fits; omega) hj
    obtain ⟨answer, hless, _⟩ := Option.bind_eq_some_iff.mp h
    have hnegative : j < 0 := by omega
    rw [lessAt_negative hnegative] at hless
    cases hless

theorem rightIsLarger_agree (he : Modular e.arith) (ha : Modular a) {lo largest right count : ℤ}
    {s : Sorting α W} (hlargest : Fits (lo + largest)) (hright : Fits (lo + right)) :
    rightIsLarger (withArith e a) lo largest right count s =
      rightIsLarger e lo largest right count s := by
  refine branch_agree ?_ ?_
  · intro _
    refine bind_agree he ha hlargest ?_
    refine bind_agree he ha hright ?_
    rfl
  · intro _
    rfl

theorem siftTurn_agree (he : Modular e.arith) (ha : Modular a) (hn : n < 2147483648)
    {lo root count : ℤ} {s : Sorting α W} (hlo : 0 ≤ lo) (hroot : 0 ≤ root) (hlt : root < count)
    (hcount : lo + count ≤ n) :
    siftTurn (withArith e a) lo root count s = siftTurn e lo root count s := by
  by_cases hbig : 1073741824 ≤ root
  · rw [siftTurn_overflow he hn hlo hbig hlt hcount, siftTurn_overflow ha hn hlo hbig hlt hcount]
  refine bind_agree he ha ⟨by omega, by omega⟩ ?_
  refine bind_agree he ha ⟨by omega, by omega⟩ ?_
  refine branch_agree ?_ ?_
  · intro _
    rfl
  · intro hend
    have hi : Fits (lo + root) := ⟨by omega, by omega⟩
    have hj : Fits (lo + (root * 2 + 1)) := ⟨by omega, by omega⟩
    have hk : Fits (lo + (root * 2 + 1 + 1)) := ⟨by omega, by omega⟩
    refine bind_agree he ha hi ?_
    refine bind_agree he ha hj ?_
    refine Option.bind_congr ?_
    intro answer _
    obtain ⟨smaller, s₁⟩ := answer
    have hlargest : Fits (lo + if smaller = true then root * 2 + 1 else root) := by
      cases smaller with
      | false => exact hi
      | true => exact hj
    refine bind_agree he ha ⟨by omega, by omega⟩ ?_
    rw [rightIsLarger_agree he ha hlargest hk]
    refine Option.bind_congr ?_
    intro answer _
    obtain ⟨larger, s₂⟩ := answer
    have hnext : Fits (lo + if larger = true then root * 2 + 1 + 1
        else if smaller = true then root * 2 + 1 else root) := by
      cases larger with
      | false => exact hlargest
      | true => exact hk
    refine branch_agree ?_ ?_
    · intro _
      rfl
    · intro _
      refine bind_agree he ha hi ?_
      refine bind_agree he ha hnext ?_
      rfl

theorem siftLoop_agree (he : Modular e.arith) (ha : Modular a) (hn : n < 2147483648)
    {lo root count : ℤ} {turns : ℕ} {s : Sorting α W} (hlo : 0 ≤ lo) (hroot : 0 ≤ root)
    (hlt : root < count) (hcount : lo + count ≤ n) :
    siftLoop (withArith e a) lo count turns root s = siftLoop e lo count turns root s := by
  induction turns generalizing root s with
  | zero => rfl
  | succ turns ih =>
    unfold siftLoop
    rw [siftTurn_agree he ha hn hlo hroot hlt hcount]
    refine Option.bind_congr ?_
    intro out hturn
    obtain ⟨next, s₁⟩ := out
    obtain ⟨_, hnext⟩ := siftTurn_some he hn hturn hlo hroot hlt hcount
    cases next with
    | none => rfl
    | some r =>
      have hr := hnext r rfl
      exact ih (by omega) hr.2

theorem heapBuild_agree (he : Modular e.arith) (ha : Modular a) (hn : n < 2147483648)
    {lo count : ℤ} {start : ℕ} {s : Sorting α W} (hlo : 0 ≤ lo) (hstart : start ≤ count)
    (hcount : lo + count ≤ n) :
    heapBuild (withArith e a) lo count start s = heapBuild e lo count start s := by
  induction start generalizing s with
  | zero => rfl
  | succ start ih =>
    unfold heapBuild sortSiftDownBy
    rw [siftLoop_agree he ha hn hlo (by omega) (by omega) hcount]
    refine Option.bind_congr ?_
    intro s₁ _
    exact ih (by omega)

theorem heapExtract_agree (he : Modular e.arith) (ha : Modular a) (hn : n < 2147483648) {lo : ℤ}
    {turns : ℕ} {s : Sorting α W} (hlo : 0 ≤ lo) (hlast : lo + turns < n) :
    heapExtract (withArith e a) lo turns s = heapExtract e lo turns s := by
  induction turns generalizing s with
  | zero => rfl
  | succ turns ih =>
    refine bind_agree he ha ⟨by omega, by omega⟩ ?_
    refine Option.bind_congr ?_
    intro s₁ _
    unfold sortSiftDownBy
    rw [siftLoop_agree he ha hn hlo (Int.le_refl 0) (by omega) (by omega)]
    refine Option.bind_congr ?_
    intro s₂ _
    exact ih (by omega)

theorem sortHeapBy_agree (he : Modular e.arith) (ha : Modular a) (hn : n < 2147483648) {lo hi : ℤ}
    {s : Sorting α W} (hlo : 0 ≤ lo) (hlt : lo < hi) (hhi : hi ≤ n) :
    sortHeapBy (withArith e a) s lo hi = sortHeapBy e s lo hi := by
  have hhalf : (hi - lo).tdiv 2 = (hi - lo) / 2 := Int.tdiv_eq_ediv_of_nonneg (by omega)
  refine bind_agree he ha ⟨by omega, by omega⟩ ?_
  rw [hhalf, heapBuild_agree he ha hn hlo (by omega) (by omega)]
  refine Option.bind_congr ?_
  intro s₁ _
  exact heapExtract_agree he ha hn hlo (by omega)

theorem sortIntroBy_agree (he : Modular e.arith) (ha : Modular a) (hn : n < 2147483648) {depth : ℕ}
    {lo hi : ℤ} {s : Sorting α W} (hlo : 0 ≤ lo) (hle : lo ≤ hi) (hhi : hi ≤ n) :
    sortIntroBy (withArith e a) depth s lo hi = sortIntroBy e depth s lo hi := by
  induction depth generalizing lo hi s with
  | zero =>
    refine bind_agree he ha ⟨by omega, by omega⟩ ?_
    refine branch_agree ?_ ?_
    · intro hwide
      exact sortHeapBy_agree he ha hn hlo (by omega) hhi
    · intro _
      rfl
  | succ depth ih =>
    refine bind_agree he ha ⟨by omega, by omega⟩ ?_
    refine branch_agree ?_ ?_
    · intro hwide
      rw [sortPartitionBy_agree he ha hn hlo (by omega) hhi]
      refine Option.bind_congr ?_
      intro out hpartition
      obtain ⟨pivot, s₁⟩ := out
      obtain ⟨hlow, hhigh, _⟩ := sortPartitionBy_some he hn hpartition hlo (by omega) hhi
      refine bind_agree he ha ⟨by omega, by omega⟩ ?_
      refine bind_agree he ha ⟨by omega, by omega⟩ ?_
      refine bind_agree he ha ⟨by omega, by omega⟩ ?_
      refine branch_agree ?_ ?_
      · intro _
        rw [ih hlo hlow (by omega)]
        refine Option.bind_congr ?_
        intro s₂ _
        exact ih (by omega) (by omega) hhi
      · intro _
        rw [ih (by omega) (by omega) hhi]
        refine Option.bind_congr ?_
        intro s₂ _
        exact ih hlo hlow (by omega)
    · intro _
      rfl

/-- The run does not depend on what an operation makes of a result that does not fit. -/
theorem sort_agree (he : Modular e.arith) (ha : Modular a) (s : Sorting α W) :
    sort (withArith e a) s = sort e s := by
  refine branch_agree ?_ ?_
  · intro _
    rfl
  · intro hshort
    have hroom := len_room hshort
    have hn : s.len = (s.len.toNat : ℤ) := by omega
    rw [sortIntroBy_agree he ha hroom.small (Int.le_refl 0) (by omega) (by omega)]
    refine Option.bind_congr ?_
    intro rough _
    rw [hn]
    exact sortInsertionBy_agree he ha hroom.small 0 (by omega) (le_refl _)

end Agreement

section Totality
variable {α W β γ : Type} {e : Setting α W} {n : ℕ}

theorem bind_total {x : Option γ} {y : γ} {f : γ → Option β} (hx : x = some y)
    (h : ∃ out, f y = some out) : ∃ out, x.bind f = some out := by
  rw [hx]
  exact h

theorem branch_total {c : Prop} [Decidable c] {x y : Option β} (hthen : c → ∃ out, x = some out)
    (helse : ¬ c → ∃ out, y = some out) : ∃ out, (if c then x else y) = some out := by
  by_cases hc : c
  · rw [if_pos hc]
    exact hthen hc
  · rw [if_neg hc]
    exact helse hc

theorem partitionLoop_total (he : Modular e.arith) (pivotValue : α) {turns : ℕ} {i store : ℤ}
    {s : Sorting α W} (hroom : Room n s) (hstore : 0 ≤ store) (hle : store ≤ i)
    (hlast : i + turns < n) : ∃ out, partitionLoop e pivotValue turns i store s = some out := by
  induction turns generalizing i store s with
  | zero => exact ⟨_, rfl⟩
  | succ turns ih =>
    have hsmall := hroom.small
    have hinside := hroom.inside
    obtain ⟨item, hitem⟩ := read_total (s := s) (i := i) (by omega) (by omega)
    have hcall : Shuffled n s (e.call item pivotValue s).2 := .of_items rfl
    have hroom₁ := hroom.shuffled hcall
    have hlen := hcall.length
    refine bind_total hitem ?_
    refine branch_total ?_ ?_
    · intro _
      obtain ⟨s₂, hswap⟩ := sortSwap_total (s := (e.call item pivotValue s).2) (a := i) (b := store)
        ⟨by omega, by omega⟩ ⟨by omega, by omega⟩
      have hroom₂ := hroom₁.shuffled (sortSwap_some hswap (by omega) (by omega))
      refine bind_total hswap ?_
      refine bind_total (he.fits _ ⟨by omega, by omega⟩) ?_
      exact ih hroom₂ (by omega) (by omega) (by omega)
    · intro _
      exact ih hroom₁ hstore (by omega) (by omega)

theorem sortPartitionBy_total (he : Modular e.arith) {lo hi : ℤ} {s : Sorting α W}
    (hroom : Room n s) (hlo : 0 ≤ lo) (hlt : lo < hi) (hhi : hi ≤ n) :
    ∃ out, sortPartitionBy e s lo hi = some out := by
  have hsmall := hroom.small
  have hinside := hroom.inside
  have hhalf : (hi - lo).tdiv 2 = (hi - lo) / 2 := Int.tdiv_eq_ediv_of_nonneg (by omega)
  refine bind_total (he.fits _ ⟨by omega, by omega⟩) ?_
  refine bind_total (he.fits _ ⟨by omega, by omega⟩) ?_
  refine bind_total (he.fits _ ⟨by omega, by omega⟩) ?_
  rw [hhalf]
  generalize hmid : lo + (hi - lo) / 2 = mid
  obtain ⟨s₁, hs₁⟩ := swapIfLess_total (e := e) (s := s) (i := mid) (j := lo) (a := lo) (b := mid)
    ⟨by omega, by omega⟩ ⟨by omega, by omega⟩ ⟨by omega, by omega⟩ ⟨by omega, by omega⟩
  have hlen₁ := (swapIfLess_some (n := n) hs₁ (by omega) (by omega)).length
  refine bind_total hs₁ ?_
  obtain ⟨s₂, hs₂⟩ := swapIfLess_total (e := e) (s := s₁) (i := hi - 1) (j := mid) (a := mid)
    (b := hi - 1) ⟨by omega, by omega⟩ ⟨by omega, by omega⟩ ⟨by omega, by omega⟩
    ⟨by omega, by omega⟩
  have hlen₂ := (swapIfLess_some (n := n) hs₂ (by omega) (by omega)).length
  refine bind_total hs₂ ?_
  obtain ⟨s₃, hs₃⟩ := swapIfLess_total (e := e) (s := s₂) (i := mid) (j := lo) (a := lo) (b := mid)
    ⟨by omega, by omega⟩ ⟨by omega, by omega⟩ ⟨by omega, by omega⟩ ⟨by omega, by omega⟩
  have hlen₃ := (swapIfLess_some (n := n) hs₃ (by omega) (by omega)).length
  refine bind_total hs₃ ?_
  obtain ⟨pivotValue, hpivot⟩ := read_total (s := s₃) (i := mid) (by omega) (by omega)
  refine bind_total hpivot ?_
  obtain ⟨s₄, hs₄⟩ := sortSwap_total (s := s₃) (a := mid) (b := hi - 1)
    ⟨by omega, by omega⟩ ⟨by omega, by omega⟩
  have hlen₄ := (sortSwap_some (n := n) hs₄ (by omega) (by omega)).length
  refine bind_total hs₄ ?_
  have hroom₄ : Room n s₄ := ⟨hsmall, by omega⟩
  have hlast : lo + ((hi - 1 - lo).toNat : ℤ) < n := by omega
  obtain ⟨⟨store, s₅⟩, hs₅⟩ := partitionLoop_total he pivotValue hroom₄ hlo
    (Int.le_refl lo) hlast
  obtain ⟨hlow, hhigh, hloop⟩ :=
    partitionLoop_some he hsmall hs₅ hlo (Int.le_refl lo) (by omega)
  have hlen₅ := hloop.length
  refine bind_total hs₅ ?_
  obtain ⟨s₆, hs₆⟩ := sortSwap_total (s := s₅) (a := store) (b := hi - 1)
    ⟨by omega, by omega⟩ ⟨by omega, by omega⟩
  exact bind_total hs₆ ⟨_, rfl⟩

theorem insertionShift_total (he : Modular e.arith) (value : α) {lo turns : ℕ} {s : Sorting α W}
    (hroom : Room n s) (hj : lo + turns < n) :
    ∃ out, insertionShift e value turns ((lo + turns : ℕ) : ℤ) s = some out := by
  induction turns generalizing s with
  | zero => exact ⟨_, rfl⟩
  | succ turns ih =>
    have hsmall := hroom.small
    have hinside := hroom.inside
    have hindex : ((lo + (turns + 1) : ℕ) : ℤ) - 1 = ((lo + turns : ℕ) : ℤ) := by omega
    obtain ⟨item, hitem⟩ := read_total (s := s) (i := ((lo + turns : ℕ) : ℤ)) (by omega) (by omega)
    refine bind_total (he.fits _ ⟨by omega, by omega⟩) ?_
    rw [hindex]
    refine bind_total hitem ?_
    refine branch_total ?_ ?_
    · intro _
      refine bind_total (write_total (by omega) ?_) ?_
      · change ((lo + (turns + 1) : ℕ) : ℤ) < s.items.length
        omega
      · refine ih ⟨hsmall, ?_⟩ (by omega)
        change n ≤ (s.items.set _ item).length
        rw [List.length_set]
        exact hinside
    · intro _
      exact ⟨_, rfl⟩

theorem insertionTurn_total (he : Modular e.arith) {lo i : ℕ} {s : Sorting α W} (hroom : Room n s)
    (hlo : lo ≤ i) (hi : i < n) : ∃ out, insertionTurn e lo i s = some out := by
  have hinside := hroom.inside
  have hturns : ((i : ℤ) - lo).toNat = i - lo := by omega
  have hstart : (i : ℤ) = ((lo + (i - lo) : ℕ) : ℤ) := by omega
  obtain ⟨value, hvalue⟩ := read_total (s := s) (i := (i : ℤ)) (by omega) (by omega)
  have hend : lo + (i - lo) < n := by omega
  obtain ⟨⟨j, s₁⟩, hshift⟩ := insertionShift_total he value hroom hend
  obtain ⟨stop, hstop, _, hhigh, hperm, _⟩ :=
    insertionShift_some he hroom.small hshift (by omega) hinside
  have hlen := hperm.length_eq
  rw [List.length_set, List.length_set] at hlen
  rw [← hstart, ← hturns] at hshift
  refine bind_total hvalue ?_
  refine bind_total hshift ?_
  exact ⟨_, write_total (by omega) (by omega)⟩

theorem insertionLoop_total (he : Modular e.arith) {lo turns i : ℕ} {s : Sorting α W}
    (hroom : Room n s) (hlo : lo ≤ i) (hi : i + turns ≤ n) :
    ∃ out, insertionLoop e lo turns i s = some out := by
  induction turns generalizing i s with
  | zero => exact ⟨_, rfl⟩
  | succ turns ih =>
    obtain ⟨s₁, hturn⟩ := insertionTurn_total he hroom hlo (by omega)
    have hs₁ := insertionTurn_some (n := n) he hturn hlo (by omega) hroom
    refine bind_total hturn ?_
    exact ih (i := i + 1) (hroom.shuffled hs₁) (by omega) (by omega)

theorem sortInsertionBy_total (he : Modular e.arith) (lo : ℕ) {hi : ℕ} {s : Sorting α W}
    (hroom : Room n s) (hlo : lo < hi) (hhi : hi ≤ n) :
    ∃ out, sortInsertionBy e s lo hi = some out := by
  have hsmall := hroom.small
  refine bind_total (he.fits _ ⟨by omega, by omega⟩) ?_
  exact insertionLoop_total (i := lo + 1) he hroom (by omega) (by omega)

/-- The room that a heap on `[lo, lo + count)` needs: its indices do not overflow, and where both
    operands of `&&` are evaluated, there is an element after it, or each parent has two children. -/
structure HeapRoom (e : Setting α W) (n : ℕ) (lo count : ℤ) (s : Sorting α W) : Prop where
  room : Room n s
  low : 0 ≤ lo
  small : count ≤ 1073741824
  inside : lo + count ≤ n
  after : e.bothOperands = true → lo + count < s.items.length ∨ count % 2 = 1

theorem HeapRoom.shuffled {lo count : ℤ} {s s' : Sorting α W} (h : HeapRoom e n lo count s)
    (hs : Shuffled n s s') : HeapRoom e n lo count s' :=
  { h with
    room := h.room.shuffled hs
    after := by
      rw [hs.length]
      exact h.after }

theorem rightIsLarger_total (he : Modular e.arith) {lo largest right count : ℤ} {s : Sorting α W}
    (hroom : HeapRoom e n lo count s) (hlargest : 0 ≤ largest ∧ largest < count)
    (hright : 0 ≤ right ∧ right ≤ count) (heven : right % 2 = 0) :
    ∃ out, rightIsLarger e lo largest right count s = some out := by
  obtain ⟨⟨hsmall, hlen⟩, hlow, _, hinside, hafter⟩ := hroom
  refine branch_total ?_ ?_
  · intro hevaluated
    have hbound : lo + right < s.items.length := by
      rcases hevaluated with hlt | hboth
      · omega
      · have hlast := hafter hboth
        omega
    obtain ⟨r, s₁, hless⟩ := lessAt_total (e := e) (s := s) (i := lo + largest) (j := lo + right)
      ⟨by omega, by omega⟩ ⟨by omega, hbound⟩
    refine bind_total (he.fits _ ⟨by omega, by omega⟩) ?_
    refine bind_total (he.fits _ ⟨by omega, by omega⟩) ?_
    exact bind_total hless ⟨_, rfl⟩
  · intro _
    exact ⟨_, rfl⟩

theorem siftTurn_total (he : Modular e.arith) {lo root count : ℤ} {s : Sorting α W}
    (hroom : HeapRoom e n lo count s) (hroot : 0 ≤ root) (hlt : root < count) :
    ∃ out, siftTurn e lo root count s = some out := by
  have hlow := hroom.low
  have hcount := hroom.small
  have hinside := hroom.inside
  have hsmall := hroom.room.small
  have hlen := hroom.room.inside
  refine bind_total (he.fits _ ⟨by omega, by omega⟩) ?_
  refine bind_total (he.fits _ ⟨by omega, by omega⟩) ?_
  refine branch_total ?_ ?_
  · intro _
    exact ⟨_, rfl⟩
  · intro hend
    obtain ⟨smaller, s₁, hless⟩ := lessAt_total (e := e) (s := s) (i := lo + root)
      (j := lo + (root * 2 + 1)) ⟨by omega, by omega⟩ ⟨by omega, by omega⟩
    have hs₁ : Shuffled n s s₁ := .of_items (lessAt_some hless)
    have hlen₁ := hs₁.length
    refine bind_total (he.fits _ ⟨by omega, by omega⟩) ?_
    refine bind_total (he.fits _ ⟨by omega, by omega⟩) ?_
    refine bind_total hless ?_
    refine bind_total (he.fits _ ⟨by omega, by omega⟩) ?_
    dsimp only
    generalize hlargest : (if smaller = true then root * 2 + 1 else root) = largest
    have hbounds : 0 ≤ largest ∧ largest < count := by
      cases smaller with
      | true =>
        rw [if_pos rfl] at hlargest
        omega
      | false =>
        rw [if_neg Bool.false_ne_true] at hlargest
        omega
    have hright : 0 ≤ root * 2 + 1 + 1 ∧ root * 2 + 1 + 1 ≤ count := ⟨by omega, by omega⟩
    obtain ⟨⟨larger, s₂⟩, hlarger⟩ := rightIsLarger_total he (hroom.shuffled hs₁) hbounds
      hright (by omega)
    obtain ⟨hitems, hcountlt⟩ := rightIsLarger_some hlarger
    have hlen₂ : s₂.items.length = s₁.items.length := congrArg List.length hitems
    refine bind_total hlarger ?_
    dsimp only
    generalize hnext : (if larger = true then root * 2 + 1 + 1 else largest) = next
    have hnext_bounds : 0 ≤ next ∧ next < count := by
      cases larger with
      | true =>
        have hright := hcountlt rfl
        rw [if_pos rfl] at hnext
        omega
      | false =>
        rw [if_neg Bool.false_ne_true] at hnext
        omega
    refine branch_total ?_ ?_
    · intro _
      exact ⟨_, rfl⟩
    · intro _
      obtain ⟨s₃, hswap⟩ := sortSwap_total (s := s₂) (a := lo + root) (b := lo + next)
        ⟨by omega, by omega⟩ ⟨by omega, by omega⟩
      refine bind_total (he.fits _ ⟨by omega, by omega⟩) ?_
      refine bind_total (he.fits _ ⟨by omega, by omega⟩) ?_
      exact bind_total hswap ⟨_, rfl⟩

theorem siftLoop_total (he : Modular e.arith) {lo count root : ℤ} {turns : ℕ} {s : Sorting α W}
    (hroom : HeapRoom e n lo count s) (hroot : 0 ≤ root) (hlt : root < count)
    (hturns : count - root ≤ turns) : ∃ out, siftLoop e lo count turns root s = some out := by
  induction turns generalizing root s with
  | zero => omega
  | succ turns ih =>
    obtain ⟨⟨next, s₁⟩, hturn⟩ := siftTurn_total he hroom hroot hlt
    obtain ⟨hs, hnext⟩ :=
      siftTurn_some he hroom.room.small hturn hroom.low hroot hlt hroom.inside
    refine bind_total hturn ?_
    cases next with
    | none => exact ⟨s₁, rfl⟩
    | some r =>
      have hr := hnext r rfl
      exact ih (hroom.shuffled hs) (by omega) hr.2 (by omega)

theorem heapBuild_total (he : Modular e.arith) {lo count : ℤ} {start : ℕ} {s : Sorting α W}
    (hroom : HeapRoom e n lo count s) (hstart : start ≤ count) :
    ∃ out, heapBuild e lo count start s = some out := by
  induction start generalizing s with
  | zero => exact ⟨s, rfl⟩
  | succ start ih =>
    have henough : count - start ≤ (count.toNat : ℤ) := by omega
    obtain ⟨s₁, hsift⟩ := siftLoop_total he hroom (Int.natCast_nonneg start) (by omega) henough
    have hs := siftLoop_some (n := n) he hroom.room.small hsift hroom.low (by omega) (by omega)
      hroom.inside
    refine bind_total hsift ?_
    exact ih (hroom.shuffled hs) (by omega)

theorem heapExtract_total (he : Modular e.arith) {lo : ℤ} {turns : ℕ} {s : Sorting α W}
    (hroom : Room n s) (hlo : 0 ≤ lo) (hturns : turns < 1073741824) (hlast : lo + turns < n) :
    ∃ out, heapExtract e lo turns s = some out := by
  induction turns generalizing s with
  | zero => exact ⟨s, rfl⟩
  | succ turns ih =>
    have hsmall := hroom.small
    have hinside := hroom.inside
    obtain ⟨s₁, hswap⟩ := sortSwap_total (s := s) (a := lo) (b := lo + ((turns + 1 : ℕ) : ℤ))
      ⟨by omega, by omega⟩ ⟨by omega, by omega⟩
    have hs₁ := sortSwap_some (n := n) hswap (by omega) (by omega)
    have hlen₁ := hs₁.length
    have hheap : HeapRoom e n lo ((turns + 1 : ℕ) : ℤ) s₁ :=
      ⟨hroom.shuffled hs₁, hlo, by omega, by omega, by
        intro _
        exact Or.inl (by omega)⟩
    have henough : ((turns + 1 : ℕ) : ℤ) - 0 ≤ (((turns + 1 : ℕ) : ℤ).toNat : ℤ) := by omega
    obtain ⟨s₂, hsift⟩ := siftLoop_total he hheap (Int.le_refl 0) (by omega) henough
    have hs₂ := siftLoop_some (n := n) he hsmall hsift hlo (Int.le_refl 0) (by omega) (by omega)
    refine bind_total (he.fits _ ⟨by omega, by omega⟩) ?_
    refine bind_total hswap ?_
    refine bind_total hsift ?_
    exact ih ((hroom.shuffled hs₁).shuffled hs₂) (by omega) (by omega)

theorem sortHeapBy_total (he : Modular e.arith) {lo hi : ℤ} {s : Sorting α W}
    (hroom : HeapRoom e n lo (hi - lo) s) (hlt : lo < hi) :
    ∃ out, sortHeapBy e s lo hi = some out := by
  have hlow := hroom.low
  have hcount := hroom.small
  have hinside := hroom.inside
  have hsmall := hroom.room.small
  have hhalf : (hi - lo).tdiv 2 = (hi - lo) / 2 := Int.tdiv_eq_ediv_of_nonneg (by omega)
  have hstart : (((hi - lo) / 2).toNat : ℤ) ≤ hi - lo := by omega
  obtain ⟨s₁, hbuild⟩ := heapBuild_total he hroom hstart
  have hs₁ := heapBuild_some (n := n) he hsmall hbuild hlow (by omega) hinside
  refine bind_total (he.fits _ ⟨by omega, by omega⟩) ?_
  rw [hhalf]
  refine bind_total hbuild ?_
  exact heapExtract_total he (hroom.room.shuffled hs₁) hlow (by omega) (by omega)

/-- Each level of the recursion takes an element away, so that the heaps have at most `c`. -/
theorem sortIntroBy_total (he : Modular e.arith) (depth : ℕ) {c : ℕ} {lo hi : ℤ} {s : Sorting α W}
    (hroom : Room n s) (hbound : c ≤ 1073741824)
    (hafter : e.bothOperands = true → n < s.items.length ∨ c ≤ 17) (hlo : 0 ≤ lo) (hle : lo ≤ hi)
    (hhi : hi ≤ n) (hdepth : hi - lo ≤ c + depth) :
    ∃ out, sortIntroBy e depth s lo hi = some out := by
  have hsmall := hroom.small
  induction depth generalizing lo hi s with
  | zero =>
    refine bind_total (he.fits _ ⟨by omega, by omega⟩) ?_
    refine branch_total ?_ ?_
    · intro hwide
      refine sortHeapBy_total (n := n) he ⟨hroom, hlo, by omega, by omega, ?_⟩ (by omega)
      intro hboth
      rcases hafter hboth with hbeyond | hseventeen
      · exact Or.inl (by omega)
      · exact Or.inr (by omega)
    · intro _
      exact ⟨s, rfl⟩
  | succ depth ih =>
    refine bind_total (he.fits _ ⟨by omega, by omega⟩) ?_
    refine branch_total ?_ ?_
    · intro hwide
      obtain ⟨⟨pivot, s₁⟩, hpartition⟩ := sortPartitionBy_total he hroom hlo (by omega) hhi
      obtain ⟨hlow, hhigh, hs₁⟩ := sortPartitionBy_some he hsmall hpartition hlo (by omega) hhi
      have hroom₁ := hroom.shuffled hs₁
      rw [← hs₁.length] at hafter
      refine bind_total hpartition ?_
      refine bind_total (he.fits _ ⟨by omega, by omega⟩) ?_
      refine bind_total (he.fits _ ⟨by omega, by omega⟩) ?_
      refine bind_total (he.fits _ ⟨by omega, by omega⟩) ?_
      refine branch_total ?_ ?_
      · intro _
        obtain ⟨s₂, hleft⟩ := ih hroom₁ hafter hlo hlow (by omega) (by omega)
        have hs₂ := sortIntroBy_some he hsmall hleft hlo hlow (by omega)
        rw [← hs₂.length] at hafter
        refine bind_total hleft ?_
        exact ih (hroom₁.shuffled hs₂) hafter (by omega) (by omega) hhi (by omega)
      · intro _
        have hnonneg : 0 ≤ pivot + 1 := by omega
        have hnext : pivot + 1 ≤ hi := by omega
        obtain ⟨s₂, hright⟩ := ih hroom₁ hafter hnonneg hnext hhi (by omega)
        have hs₂ := sortIntroBy_some (n := n) he hsmall hright (by omega) (by omega) hhi
        rw [← hs₂.length] at hafter
        refine bind_total hright ?_
        exact ih (hroom₁.shuffled hs₂) hafter hlo hlow (by omega) (by omega)
    · intro _
      exact ⟨s, rfl⟩

/-- Where the depth is enough to bring the heaps down to `c` elements, no access is outside the
    slice. -/
theorem sort_total_within (he : Modular e.arith) {c : ℕ} {s : Sorting α W}
    (hbound : c ≤ 1073741824)
    (hafter : e.bothOperands = true → s.len < s.items.length ∨ c ≤ 17)
    (hdepth : s.len ≤ c + sortDepthLimit s.len) : ∃ s', sort e s = some s' := by
  refine branch_total ?_ ?_
  · intro _
    exact ⟨s, rfl⟩
  · intro hshort
    have hroom := len_room hshort
    have hn : s.len = (s.len.toNat : ℤ) := by omega
    have hafter' : e.bothOperands = true → s.len.toNat < s.items.length ∨ c ≤ 17 := by
      intro hboth
      exact (hafter hboth).imp_left (fun hbeyond => by omega)
    obtain ⟨rough, hintro⟩ := sortIntroBy_total he (sortDepthLimit s.len) hroom hbound hafter'
      (Int.le_refl 0) (by omega) (by omega) (by omega : s.len - 0 ≤ _)
    have hs₁ := sortIntroBy_some he hroom.small hintro (Int.le_refl 0) (by omega) (by omega)
    refine bind_total hintro ?_
    rw [hn]
    exact sortInsertionBy_total he 0 (hroom.shuffled hs₁) (by omega) (le_refl _)

/-- A slice of at most `2 ^ 30` elements is sorted without any access outside it, by any
    comparator, where `&&` evaluates its right operand only when it has to. -/
theorem sort_total (he : Modular e.arith) (hone : e.bothOperands = false) {s : Sorting α W}
    (hlen : s.items.length ≤ 1073741824) : ∃ s', sort e s = some s' := by
  have hn : s.len = s.items.length := wrap32_of_fits ⟨by omega, by omega⟩
  refine sort_total_within he hlen ?_ (by omega)
  intro hboth
  rw [hone] at hboth
  cases hboth

end Totality

end NewClLang.IntroSortOverflow
