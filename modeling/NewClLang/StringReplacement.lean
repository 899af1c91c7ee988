import NewClLang.StringSearch

set_option autoImplicit false

/-!
# Counting and replacing occurrences

`count` and `replace_all` scan their text with two loops of their own. Both go by the occurrences
that a scan from the left meets when it goes on behind each.
-/
namespace NewClLang.StringReplacement
open WrappedIntegers ExceptOutcomes StringRoutines StringBounds StringMatching StringSearch
open JsonModule (Bytes Stop)

section Occurrences

/-- The occurrences from `i` on, none of which begins in the one before. -/
inductive Greedy (t old : Bytes) : ℕ → List ℕ → Prop where
  | done {i : ℕ} (h : ∀ m, i ≤ m → ¬ OccursAt t old m) : Greedy t old i []
  | next {i k : ℕ} {ps : List ℕ} (hle : i ≤ k) (hoccurs : OccursAt t old k)
    (hbefore : ∀ m, i ≤ m → m < k → ¬ OccursAt t old m)
    (hrest : Greedy t old (k + old.length) ps) : Greedy t old i (k :: ps)

/-- Where the last occurrence ends. -/
def endOf (old : Bytes) : ℕ → List ℕ → ℕ
  | i, [] => i
  | _, k :: ps => endOf old (k + old.length) ps

/-- The text from `i` on with `repl` for each of the occurrences. -/
def replaced (t old repl : Bytes) : ℕ → List ℕ → Bytes
  | i, [] => t.drop i
  | i, k :: ps => (t.drop i).take (k - i) ++ repl ++ replaced t old repl (k + old.length) ps

variable {t old repl : Bytes} {i : ℕ} {ps : List ℕ}

theorem Greedy.head (h : Greedy t old i ps) (hoccurs : OccursAt t old i) :
    ∃ rest, ps = i :: rest ∧ Greedy t old (i + old.length) rest := by
  cases h with
  | done hnone => exact absurd hoccurs (hnone i (Nat.le_refl i))
  | @next _ k rest hle hk hbefore hrest =>
    rcases Nat.eq_or_lt_of_le hle with rfl | hlt
    · exact ⟨rest, rfl, hrest⟩
    · exact absurd hoccurs (hbefore i (Nat.le_refl i) hlt)

theorem Greedy.skip (h : Greedy t old i ps) (hnot : ¬ OccursAt t old i) :
    Greedy t old (i + 1) ps := by
  cases h with
  | done hnone => exact .done fun m hm => hnone m (by omega)
  | @next _ k rest hle hk hbefore hrest =>
    rcases Nat.eq_or_lt_of_le hle with rfl | hlt
    · exact absurd hk hnot
    · exact .next hlt hk (fun m hlow hhigh => hbefore m (by omega) hhigh) hrest

theorem Greedy.nil_of_lt (h : Greedy t old i ps) (hend : t.length < i + old.length) : ps = [] := by
  cases h with
  | done _ => rfl
  | next hle hk _ _ => exact absurd hk.le (by omega)

theorem greedy_exists (t : Bytes) (hold : old ≠ []) (i : ℕ) : ∃ ps, Greedy t old i ps := by
  have hpos : 0 < old.length := List.length_pos_iff.mpr hold
  induction hleft : t.length + 1 - i using Nat.strong_induction_on generalizing i with
  | _ left ih =>
    by_cases hend : t.length < i + old.length
    · exact ⟨[], .done fun m hm => not_occursAt_of_lt (by omega)⟩
    · by_cases hoccurs : OccursAt t old i
      · obtain ⟨ps, hps⟩ := ih _ (by omega) (i + old.length) rfl
        exact ⟨i :: ps, .next (Nat.le_refl i) hoccurs
          (fun m hlow hhigh => absurd hhigh (by omega)) hps⟩
      · obtain ⟨ps, hps⟩ := ih _ (by omega) (i + 1) rfl
        cases hps with
        | done hnone =>
          refine ⟨[], .done fun m hm => ?_⟩
          rcases Nat.eq_or_lt_of_le hm with rfl | hlater
          · exact hoccurs
          · exact hnone m hlater
        | @next _ k rest hle hk hbefore hrest =>
          refine ⟨k :: rest, .next (by omega) hk (fun m hlow hhigh => ?_) hrest⟩
          rcases Nat.eq_or_lt_of_le hlow with rfl | hlater
          · exact hoccurs
          · exact hbefore m hlater hhigh

theorem Greedy.length (repl : Bytes) (h : Greedy t old i ps) (hi : i ≤ t.length) :
    ((replaced t old repl i ps).length : ℤ) =
      ((t.length : ℤ) - i) + ps.length * ((repl.length : ℤ) - old.length) := by
  induction h with
  | done _ =>
    simp only [replaced, List.length_drop, List.length_nil, Int.natCast_zero, Int.zero_mul]
    omega
  | @next i k ps hle hk hbefore hrest ih =>
    have hend := hk.le
    have hlater := ih hend
    have hone : ((ps.length + 1 : ℕ) : ℤ) * ((repl.length : ℤ) - old.length) =
        ps.length * ((repl.length : ℤ) - old.length) + ((repl.length : ℤ) - old.length) := by
      rw [Int.natCast_succ, Int.add_mul, Int.one_mul]
    simp only [replaced, List.length_append, List.length_take, List.length_drop, List.length_cons]
    omega

/-- Each occurrence replaced by itself. -/
theorem Greedy.replaced_self (h : Greedy t old i ps) : replaced t old old i ps = t.drop i := by
  induction h with
  | done _ => rfl
  | @next i k ps hle hk hbefore hrest ih =>
    have hsplit := occursAt_split hk
    have hdrop : t.drop k = (t.drop i).drop (k - i) := by
      rw [List.drop_drop]
      congr 1
      omega
    rw [replaced, ih, List.append_assoc, ← hsplit, hdrop, List.take_append_drop]

theorem replaced_here (t old repl : Bytes) (i : ℕ) (ps : List ℕ) :
    replaced t old repl i (i :: ps) = repl ++ replaced t old repl (i + old.length) ps := by
  simp [replaced]

/-- A byte that is in no occurrence is kept. -/
theorem Greedy.replaced_skip (h : Greedy t old i ps) (hnot : ¬ OccursAt t old i)
    (hi : i < t.length) :
    replaced t old repl i ps = t[i] :: replaced t old repl (i + 1) ps := by
  have hdrop : t.drop i = t[i] :: t.drop (i + 1) := List.drop_eq_getElem_cons hi
  cases h with
  | done _ => exact hdrop
  | @next _ k rest hle hk hbefore hrest =>
    rcases Nat.eq_or_lt_of_le hle with rfl | hlt
    · exact absurd hk hnot
    · have hcount : k - i = (k - (i + 1)) + 1 := by omega
      rw [replaced, replaced, hdrop, hcount, List.take_succ_cons]
      rfl

end Occurrences

section Counting
variable {s old : Str} {ps : List ℕ}

theorem countLoop_eq (hs : Short s) (hold : Short old) (hpos : 0 < old.length) {fuel n i : ℕ}
    (h : Greedy s.bytes old.bytes i ps) (hi : i ≤ s.length) (hn : n ≤ i)
    (hfuel : s.length - i + 1 ≤ fuel) :
    countLoop s old fuel n i = .ok ((n + ps.length : ℕ) : ℤ) := by
  have hslen := len_eq hs
  have holen := len_eq hold
  induction fuel generalizing n i ps with
  | zero => omega
  | succ fuel ih =>
    rw [countLoop, wrap32_eq (z := s.len - old.len) (by omega) (by omega)]
    by_cases hin : i + old.length ≤ s.length
    · rw [if_pos (by omega), bind_ok (matchesAt_eq hs hold hin)]
      by_cases hoccurs : OccursAt s.bytes old.bytes i
      · obtain ⟨rest, rfl, hrest⟩ := h.head hoccurs
        have hcount : wrap32 ((n : ℤ) + 1) = ((n + 1 : ℕ) : ℤ) := by
          rw [wrap32_eq (by omega) (by omega), Int.natCast_succ]
        have hnext : wrap32 ((i : ℤ) + old.len) = ((i + old.length : ℕ) : ℤ) := by
          rw [wrap32_eq (by omega) (by omega), holen, Int.natCast_add]
        have hbytes := bytes_length old
        have hlater := ih (n := n + 1) hrest (by omega) (by omega) (by omega)
        have htotal : n + 1 + rest.length = n + (rest.length + 1) := by omega
        rw [hbytes, htotal] at hlater
        simp only [hoccurs, decide_true, if_true, hcount, hnext, List.length_cons]
        exact hlater
      · have hnext : wrap32 ((i : ℤ) + 1) = ((i + 1 : ℕ) : ℤ) := by
          rw [wrap32_eq (by omega) (by omega), Int.natCast_succ]
        have hlater := ih (n := n) (h.skip hoccurs) (by omega) (by omega) (by omega)
        simp only [hoccurs, decide_false, Bool.false_eq_true, if_false, hnext, hlater]
    · have hnil : ps = [] := h.nil_of_lt (by
        rw [bytes_length, bytes_length]
        omega)
      rw [if_neg (by omega), hnil]
      rfl

theorem count_eq (hs : Short s) (hold : Short old) (hpos : 0 < old.length)
    (h : Greedy s.bytes old.bytes 0 ps) : Returns (count s old) (ps.length : ℤ) := by
  have holen := len_eq hold
  refine ⟨s.length + 1, fun fuel hfuel => ?_⟩
  have hloop := countLoop_eq hs hold hpos h (Nat.zero_le _) (Nat.le_refl 0) hfuel
  rw [Nat.zero_add] at hloop
  rw [count, if_neg (by omega)]
  exact hloop

end Counting

section Replacing
variable {s old repl : Str} {ps : List ℕ}

/-- The index of a match, `i + old_len`, does not wrap where it matters: the scan ends with an
occurrence, or the sum fits at every position, or it is out by one at the last position only and the
last byte with its NUL is not `old`. -/
def NoWrap (s old : Str) (stop : ℕ) : Prop :=
  stop = s.length ∨ s.length + old.length ≤ 2147483648 ∨
    (s.length + 1 = 2147483648 ∧ old.length = 2 ∧ s.memory.drop (s.length - 1) ≠ old.bytes)

theorem memory_length_le (s : Str) : s.memory.length ≤ s.length + 1 := by
  cases s with
  | null => exact Nat.zero_le _
  | buffer bytes => simp [Str.length, Str.bytes, Str.memory]

theorem replaceAt_eq (hs : Short s) (hold : Short old) {i : ℕ}
    (hwrap : i + old.length < 2147483648) :
    replaceAt s old i = .ok (decide (OccursAt s.bytes old.bytes i)) := by
  have hslen := len_eq hs
  have holen := len_eq hold
  rw [replaceAt, wrap32_eq (by omega) (by omega)]
  by_cases hin : i + old.length ≤ s.length
  · rw [if_pos (by omega), matchesAt_eq hs hold hin]
  · have hnot : ¬ OccursAt s.bytes old.bytes i := not_occursAt_of_lt (by
      rw [bytes_length, bytes_length]
      omega)
    rw [if_neg (by omega), decide_eq_false hnot]

/-- Where the sum wraps, every byte up to it is read. -/
theorem replaceAt_wrapped (hs : Short s) (hold : Short old) {i : ℕ} (hi : i < s.length)
    (hwrap : 2147483648 ≤ i + old.length) : replaceAt s old i = matchesAt s old i := by
  have hslen := len_eq hs
  have holen := len_eq hold
  have hnegative : wrap32 ((i : ℤ) + old.len) < 0 := by
    unfold wrap32
    split <;> omega
  rw [replaceAt, if_pos (by omega)]

/-- A comparison that goes on behind the NUL. -/
theorem matchLoop_fails (hs : Short s) {i turns j : ℕ} (hlow : i + j ≤ s.length + 1)
    (hhigh : s.length + 1 < i + j + turns) (hturns : j + turns = old.length) (hpos : 0 < s.length)
    (matched : Bool) : matchLoop s old i turns j matched = .error .outOfBounds := by
  induction turns generalizing j matched with
  | zero => omega
  | succ turns ih =>
    by_cases hend : i + j = s.length + 1
    · have hread : byteAt s (wrap32 ((i : ℤ) + j)) = .error .outOfBounds := by
        by_cases hlast : s.length + 1 = 2147483648
        · have hnegative : wrap32 ((i : ℤ) + j) < 0 := by
            unfold wrap32
            split <;> omega
          exact byteAt_negative hnegative
        · have hnone : s.memory[s.length + 1]? = none :=
            List.getElem?_eq_none (memory_length_le s)
          have hindex : wrap32 ((i : ℤ) + j) = ((s.length + 1 : ℕ) : ℤ) := by
            rw [wrap32_eq (by omega) (by omega)]
            omega
          rw [hindex, byteAt, if_pos (Int.natCast_nonneg _), Int.toNat_natCast, hnone]
      rw [matchLoop, bind_error hread]
    · have hin : i + j < s.memory.length := by
        have hmemory := length_lt_memory hpos
        omega
      have hindex : wrap32 ((i : ℤ) + j) = ((i + j : ℕ) : ℤ) := by
        rw [wrap32_eq (by omega) (by omega), Int.natCast_add]
      have hj : j < old.length := by omega
      rw [matchLoop, hindex, bind_ok (byteAt_memory hin), bind_ok (byteAt_nat hj)]
      have hnext := ih (j := j + 1) (by omega) (by omega) (by omega)
        (matched && getElem s.memory (i + j) hin == getElem old.bytes j hj)
      rw [Int.natCast_succ] at hnext
      exact hnext

theorem matchesAt_fails (hs : Short s) (hold : Short old) {i : ℕ} (hi : i < s.length)
    (hfar : s.length + 1 < i + old.length) : matchesAt s old i = .error .outOfBounds := by
  have hturns : old.len.toNat = old.length := by
    rw [len_eq hold]
    exact Int.toNat_natCast _
  rw [matchesAt, hturns]
  exact matchLoop_fails hs (by omega) (by omega) (Nat.zero_add old.length) (by omega) true

theorem matchesAt_negative (hold : Short old) (hpos : 0 < old.length) :
    matchesAt s old (-2147483648) = .error .outOfBounds := by
  obtain ⟨turns, hturns⟩ : ∃ n, old.len.toNat = n + 1 := ⟨old.length - 1, by
    rw [len_eq hold]
    omega⟩
  have hread : byteAt s (wrap32 (-2147483648 + 0)) = .error .outOfBounds :=
    byteAt_negative (by decide)
  rw [matchesAt, hturns, matchLoop, bind_error hread]

/-- A turn of the loop inside of the string. -/
theorem replaceLoop_turn (hs : Short s) {fuel i : ℕ} (hi : i < s.bytes.length) (out : Bytes)
    {matched : Bool} (hat : replaceAt s old i = .ok matched) :
    replaceLoop s old repl (fuel + 1) out i =
      if matched then replaceLoop s old repl fuel (out ++ repl.bytes) (wrap32 ((i : ℤ) + old.len))
      else replaceLoop s old repl fuel (out ++ [s.bytes[i]]) ((i + 1 : ℕ) : ℤ) := by
  have hslen := len_eq hs
  have hlength := bytes_length s
  have hnext : wrap32 ((i : ℤ) + 1) = ((i + 1 : ℕ) : ℤ) := by
    rw [wrap32_eq (by omega) (by omega), Int.natCast_succ]
  have hslice : strSlice s i ((i + 1 : ℕ) : ℤ) = .ok [s.bytes[i]] := by
    have hone : i + 1 - i = 1 := by omega
    rw [strSlice_nat (Nat.le_succ i) (by omega) hs, Nat.succ_eq_add_one, hone,
      List.drop_eq_getElem_cons hi]
    rfl
  rw [replaceLoop, if_pos (by omega), bind_ok hat]
  cases matched with
  | true => rfl
  | false => simp only [Bool.false_eq_true, if_false, hnext, bind_ok hslice]

theorem replaceLoop_failed {fuel : ℕ} {i : ℤ} (hi : i < s.len) (out : Bytes)
    (hat : replaceAt s old i = .error .outOfBounds) :
    replaceLoop s old repl (fuel + 1) out i = .error .outOfBounds := by
  rw [replaceLoop, if_pos hi, bind_error hat]

/-- At the last byte the NUL behind it takes part. -/
theorem replaceAt_last (hs : Short s) (hold : Short old) {i : ℕ} (hi : i < s.length)
    (hlong : s.length + 1 = 2147483648) (hwrap : i + old.length = 2147483648) :
    replaceAt s old i = .ok (decide (s.memory.drop i = old.bytes)) := by
  have hmemory := length_lt_memory (s := s) (by omega)
  have hmemory' := memory_length_le s
  have htake : (s.memory.drop i).take old.length = s.memory.drop i := by
    apply List.take_of_length_le
    rw [List.length_drop]
    omega
  rw [replaceAt_wrapped hs hold hi (by omega), matchesAt_memory hold (by omega) (by omega), htake]

theorem replaceLoop_eq (repl : Str) (hs : Short s) (hold : Short old) (hpos : 0 < old.length)
    {fuel i : ℕ} (h : Greedy s.bytes old.bytes i ps) (hi : i ≤ s.length)
    (hroom : NoWrap s old (endOf old.bytes i ps)) (hfuel : s.length - i + 1 ≤ fuel) (out : Bytes) :
    replaceLoop s old repl fuel out i =
      .ok (out ++ replaced s.bytes old.bytes repl.bytes i ps) := by
  have hslen := len_eq hs
  have holen := len_eq hold
  have hbytes := bytes_length old
  have hbytes' := bytes_length s
  induction fuel generalizing i ps out with
  | zero => omega
  | succ fuel ih =>
    rcases Nat.eq_or_lt_of_le hi with rfl | hlt
    · have hnil : ps = [] := h.nil_of_lt (by omega)
      rw [replaceLoop, if_neg (by omega), hnil, replaced, ← hbytes', List.drop_length,
        List.append_nil]
    · have hbelow : i < s.bytes.length := hlt
      have hat : replaceAt s old i = .ok (decide (OccursAt s.bytes old.bytes i)) := by
        by_cases hwrap : i + old.length < 2147483648
        · exact replaceAt_eq hs hold hwrap
        · have hnil : ps = [] := h.nil_of_lt (by omega)
          have hnot : ¬ OccursAt s.bytes old.bytes i := not_occursAt_of_lt (by omega)
          rw [hnil, endOf] at hroom
          rcases hroom with hend | hsum | ⟨hlong, htwo, hother⟩
          · omega
          · omega
          · obtain rfl : i = s.length - 1 := by omega
            rw [replaceAt_last hs hold hlt hlong (by omega), decide_eq_false hother,
              decide_eq_false hnot]
      rw [replaceLoop_turn hs hbelow out hat]
      by_cases hoccurs : OccursAt s.bytes old.bytes i
      · obtain ⟨rest, rfl, hrest⟩ := h.head hoccurs
        have hin := hoccurs.le
        have hnext : wrap32 ((i : ℤ) + old.len) = ((i + old.bytes.length : ℕ) : ℤ) := by
          rw [wrap32_eq (by omega) (by omega), holen, hbytes, Int.natCast_add]
        rw [if_pos (decide_eq_true hoccurs), hnext,
          ih hrest (by omega) hroom (by omega) (out ++ repl.bytes), replaced_here,
          List.append_assoc]
      · have hroom' : NoWrap s old (endOf old.bytes (i + 1) ps) := by
          cases ps with
          | nil =>
            rcases hroom with hend | hrest
            · rw [endOf] at hend
              omega
            · exact Or.inr hrest
          | cons k rest => exact hroom
        rw [if_neg (by rw [decide_eq_true_eq]; exact hoccurs),
          ih (h.skip hoccurs) hlt hroom' (by omega) (out ++ [s.bytes[i]]),
          h.replaced_skip hoccurs hbelow, List.append_assoc]
        rfl

theorem replaceLoop_fails (repl : Str) (hs : Short s) (hold : Short old) (hpos : 0 < old.length)
    {fuel i : ℕ} (h : Greedy s.bytes old.bytes i ps) (hi : i ≤ s.length)
    (hno : ¬ NoWrap s old (endOf old.bytes i ps)) (hfuel : s.length - i + 1 ≤ fuel) (out : Bytes) :
    replaceLoop s old repl fuel out i = .error .outOfBounds := by
  have hslen := len_eq hs
  have holen := len_eq hold
  have hbytes := bytes_length old
  have hbytes' := bytes_length s
  induction fuel generalizing i ps out with
  | zero => omega
  | succ fuel ih =>
    have hsum : 2147483648 < s.length + old.length := by
      by_contra hfits
      exact hno (Or.inr (Or.inl (by omega)))
    rcases Nat.eq_or_lt_of_le hi with rfl | hlt
    · have hnil : ps = [] := h.nil_of_lt (by omega)
      rw [hnil] at hno
      exact absurd (Or.inl rfl) hno
    · have hbelow : i < s.bytes.length := hlt
      have hstays : endOf old.bytes (i + 1) ps ≠ s.length →
          ¬ NoWrap s old (endOf old.bytes (i + 1) ps) := by
        rintro hne (hend | hrest)
        · exact hne hend
        · exact hno (Or.inr hrest)
      by_cases hwrap : i + old.length < 2147483648
      · rw [replaceLoop_turn hs hbelow out (replaceAt_eq hs hold hwrap)]
        by_cases hoccurs : OccursAt s.bytes old.bytes i
        · obtain ⟨rest, rfl, hrest⟩ := h.head hoccurs
          have hin := hoccurs.le
          have hnext : wrap32 ((i : ℤ) + old.len) = ((i + old.bytes.length : ℕ) : ℤ) := by
            rw [wrap32_eq (by omega) (by omega), holen, hbytes, Int.natCast_add]
          rw [if_pos (decide_eq_true hoccurs), hnext]
          exact ih hrest (by omega) hno (by omega) _
        · rw [if_neg (by rw [decide_eq_true_eq]; exact hoccurs)]
          refine ih (h.skip hoccurs) hlt ?_ (by omega) _
          cases ps with
          | nil =>
            refine hstays ?_
            rw [endOf]
            omega
          | cons k rest => exact hno
      · have hnil : ps = [] := h.nil_of_lt (by omega)
        by_cases hfar : s.length + 1 < i + old.length
        · have hat :=
            (replaceAt_wrapped hs hold hlt (by omega)).trans (matchesAt_fails hs hold hlt hfar)
          exact replaceLoop_failed (by omega) out hat
        · -- `s` has `2 ^ 31 - 1` bytes, and the last byte compared is its NUL.
          have hat := replaceAt_last hs hold hlt (by omega) (by omega)
          rw [replaceLoop_turn hs hbelow out hat]
          by_cases hsame : s.memory.drop i = old.bytes
          · have hback : wrap32 ((i : ℤ) + old.len) = -2147483648 := by
              have hvalue : (i : ℤ) + old.len = 2147483648 := by omega
              rw [hvalue]
              rfl
            obtain ⟨fuel, rfl⟩ : ∃ n, fuel = n + 1 := ⟨fuel - 1, by omega⟩
            rw [if_pos (decide_eq_true hsame), hback]
            refine replaceLoop_failed (by omega) _ ?_
            rw [replaceAt, wrap32_eq (by omega) (by omega), if_pos (by omega)]
            exact matchesAt_negative hold hpos
          · rw [if_neg (by rw [decide_eq_true_eq]; exact hsame)]
            have hnot : ¬ OccursAt s.bytes old.bytes i := not_occursAt_of_lt (by omega)
            refine ih (h.skip hnot) hlt (hstays ?_) (by omega) _
            rw [hnil, endOf]
            intro hend
            have hlast : i = s.length - 1 := by omega
            rw [hlast] at hsame
            exact hno (Or.inr (Or.inr ⟨by omega, by omega, hsame⟩))

end Replacing

section Agreement
variable {s old repl : Str} {ps : List ℕ}

/-- `count` and `replace_all` go by the same occurrences. -/
structure SameMatches (s old repl : Str) (ps : List ℕ) (r : Bytes) : Prop where
  greedy : Greedy s.bytes old.bytes 0 ps
  result : r = replaced s.bytes old.bytes repl.bytes 0 ps
  counted : Returns (count s old) (ps.length : ℤ)
  returned : Returns (replaceAll s old repl) r
  length : (r.length : ℤ) = s.length + ps.length * ((repl.length : ℤ) - old.length)
  self : repl.bytes = old.bytes → r = s.bytes

def Consistent (s old repl : Str) : Prop := ∃ ps r, SameMatches s old repl ps r

/-- The lengths are those of an `i32`, and `i + old_len` does not wrap where it matters. -/
def Fits (s old : Str) : Prop :=
  Short s ∧ Short old ∧
    ∃ ps, Greedy s.bytes old.bytes 0 ps ∧ NoWrap s old (endOf old.bytes 0 ps)

theorem consistent_of_fits (hpos : 0 < old.length) (h : Fits s old) : Consistent s old repl := by
  obtain ⟨hs, hold, ps, hps, hroom⟩ := h
  have holen := len_eq hold
  refine ⟨ps, _, hps, rfl, count_eq hs hold hpos hps, ⟨s.length + 1, fun fuel hfuel => ?_⟩, ?_,
    fun hsame => ?_⟩
  · have hloop := replaceLoop_eq repl hs hold hpos hps (Nat.zero_le _) hroom hfuel []
    rw [List.nil_append] at hloop
    rw [replaceAll, if_neg (by omega)]
    exact hloop
  · have hlength := hps.length repl.bytes (Nat.zero_le _)
    rw [Int.natCast_zero, Int.sub_zero] at hlength
    exact hlength
  · rw [hsame, hps.replaced_self, List.drop_zero]

theorem fits_of_consistent (hpos : 0 < old.length) (hs : Short s) (hold : Short old)
    (h : Consistent s old repl) : Fits s old := by
  obtain ⟨ps, r, hmatches⟩ := h
  refine ⟨hs, hold, ps, hmatches.greedy, ?_⟩
  by_contra hno
  obtain ⟨n, hreturns⟩ := hmatches.returned
  have holen := len_eq hold
  have hloop := replaceLoop_fails repl hs hold hpos hmatches.greedy (Nat.zero_le _) hno
    (Nat.le_add_left (s.length + 1) n) []
  have hresult := hreturns (n + (s.length + 1)) (Nat.le_add_right _ _)
  rw [replaceAll, if_neg (by omega)] at hresult
  cases hresult.symm.trans hloop

/-- `count` and `replace_all` agree if the index of a match does not wrap, and among strings whose
lengths are those of an `i32` only then. -/
theorem consistent_when_fits (s old repl : Str) (hold : old.length ≠ 0) :
    (Fits s old → Consistent s old repl) ∧
      (Consistent s old repl → Short s → Short old → Fits s old) :=
  ⟨consistent_of_fits (Nat.pos_of_ne_zero hold), fun h hs hshort =>
    fits_of_consistent (Nat.pos_of_ne_zero hold) hs hshort h⟩

/-- `replace_all("aaa", "aa", "b")`. -/
theorem consistent_when_fits_aaa :
    Consistent (.buffer [97, 97, 97]) (.buffer [97, 97]) (.buffer [98]) := by
  obtain ⟨ps, hps⟩ := greedy_exists [97, 97, 97] (List.cons_ne_nil 97 [97]) 0
  refine (consistent_when_fits (.buffer [97, 97, 97]) (.buffer [97, 97]) (.buffer [98])
    (by decide)).1 ⟨by decide, by decide, ps, hps, Or.inr (Or.inl ?_)⟩
  decide

/-- `2 ^ 31 - 1` times `a`. -/
def manyLetters : Str := .buffer (List.replicate 2147483647 97)

theorem manyLetters_length : manyLetters.length = 2147483647 := List.length_replicate

theorem manyLetters_without (i : ℕ) : ¬ OccursAt manyLetters.bytes [98, 98, 98] i := by
  intro h
  have hmem : (98 : UInt8) ∈ (manyLetters.bytes.drop i).take 3 := by
    have htake : (manyLetters.bytes.drop i).take 3 = [98, 98, 98] := h.2
    rw [htake]
    simp
  have hletter := List.eq_of_mem_replicate (List.mem_of_mem_drop (List.mem_of_mem_take hmem))
  revert hletter
  decide

/-- In a string of `2 ^ 31 - 1` bytes the index of a match with `"bbb"` wraps. -/
theorem manyLetters_inconsistent :
    ¬ ∀ s old repl : Str, old.length ≠ 0 → Consistent s old repl := by
  intro h
  have hshort : Short manyLetters := by
    rw [Short, manyLetters_length]
    decide
  obtain ⟨-, -, ps, hps, hroom⟩ := fits_of_consistent (by decide) hshort (by decide)
    (h manyLetters (.buffer [98, 98, 98]) .null (by decide))
  have hnil : ps = [] := by
    cases hps with
    | done _ => rfl
    | next _ hoccurs _ _ => exact absurd hoccurs (manyLetters_without _)
  have hthree : (Str.buffer [98, 98, 98]).length = 3 := rfl
  have hlength := manyLetters_length
  rw [hnil] at hroom
  rcases hroom with hend | hsum | ⟨-, htwo, -⟩
  · rw [hlength] at hend
    cases hend
  · omega
  · omega

end Agreement

end NewClLang.StringReplacement
