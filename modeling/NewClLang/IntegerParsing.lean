import NewClLang.StringSearch

set_option autoImplicit false

/-!
# Parsing integers

`parse_i32` of the strconv module and the texts that denote integers. The loop makes sure of the
next digit before it takes it in, so that nothing overflows however many digits there are.
-/
namespace NewClLang.IntegerParsing
open WrappedIntegers ExceptOutcomes StringRoutines StringBounds StringMatching StringSearch
open JsonModule (Bytes Stop)

section Texts

/-- The number whose digits are those of `v` and then `ds`. -/
def decimalFrom (v : ℕ) (ds : Bytes) : ℕ := ds.foldl (fun v b => v * 10 + (b.toNat - 48)) v

/-- `[0-9]+`. -/
def Numeral (ds : Bytes) : Prop := ds ≠ [] ∧ ∀ b ∈ ds, isDigitByte b = true

/-- `[+-]?[0-9]+`, and the integer that is meant. -/
inductive Denotes : Bytes → ℤ → Prop where
  | plain {ds : Bytes} (h : Numeral ds) : Denotes ds (decimalFrom 0 ds)
  | plus {ds : Bytes} (h : Numeral ds) : Denotes (43 :: ds) (decimalFrom 0 ds)
  | minus {ds : Bytes} (h : Numeral ds) : Denotes (45 :: ds) (-(decimalFrom 0 ds : ℤ))

/-- The text denotes the integer, and it is one of `i32`. -/
def ParsesAs (t : Bytes) (z : ℤ) : Prop := Denotes t z ∧ Fits z

/-- Whether the first byte is a minus, and the text without its sign. -/
def signOf : Bytes → Bool × Bytes
  | [] => (false, [])
  | b :: t => if b = 45 then (true, t) else if b = 43 then (false, t) else (false, b :: t)

theorem decimalFrom_cons (v : ℕ) (b : UInt8) (ds : Bytes) :
    decimalFrom v (b :: ds) = decimalFrom (v * 10 + (b.toNat - 48)) ds := by
  rw [decimalFrom, List.foldl_cons, decimalFrom]

theorem le_decimalFrom (v : ℕ) (ds : Bytes) : v ≤ decimalFrom v ds := by
  induction ds generalizing v with
  | nil => exact Nat.le_refl v
  | cons b ds ih =>
    have hlater := ih (v * 10 + (b.toNat - 48))
    rw [decimalFrom_cons]
    omega

theorem isDigitByte_iff {b : UInt8} : isDigitByte b = true ↔ 48 ≤ b.toNat ∧ b.toNat ≤ 57 := by
  simp [isDigitByte, UInt8.le_iff_toNat_le]

theorem signOf_numeral {ds : Bytes} (h : Numeral ds) : signOf ds = (false, ds) := by
  obtain ⟨hne, hdigits⟩ := h
  cases ds with
  | nil => exact absurd rfl hne
  | cons b ds =>
    have hdigit := hdigits b List.mem_cons_self
    have hminus : b ≠ 45 := by
      rintro rfl
      exact absurd hdigit (by decide)
    have hplus : b ≠ 43 := by
      rintro rfl
      exact absurd hdigit (by decide)
    rw [signOf, if_neg hminus, if_neg hplus]

theorem denotes_iff {t : Bytes} {z : ℤ} :
    Denotes t z ↔ Numeral (signOf t).2 ∧
      z = if (signOf t).1 then -(decimalFrom 0 (signOf t).2 : ℤ)
        else decimalFrom 0 (signOf t).2 := by
  constructor
  · intro h
    cases h with
    | plain h =>
      rw [signOf_numeral h]
      exact ⟨h, rfl⟩
    | plus h => exact ⟨h, rfl⟩
    | minus h => exact ⟨h, rfl⟩
  · rintro ⟨hnumeral, rfl⟩
    cases t with
    | nil => exact absurd rfl hnumeral.1
    | cons b t =>
      rw [signOf] at hnumeral ⊢
      by_cases hminus : b = 45
      · subst hminus
        exact .minus hnumeral
      · rw [if_neg hminus] at hnumeral ⊢
        by_cases hplus : b = 43
        · subst hplus
          exact .plus hnumeral
        · rw [if_neg hplus] at hnumeral ⊢
          exact .plain hnumeral

theorem Denotes.unique {t : Bytes} {y z : ℤ} (hy : Denotes t y) (hz : Denotes t z) : y = z := by
  rw [(denotes_iff.mp hy).2, (denotes_iff.mp hz).2]

end Texts

section Parsing
variable {s : Str}

/-- What `len` lets the loops see. -/
def visible (s : Str) : Bytes := s.bytes.take s.len.toNat

theorem visible_length (s : Str) : (visible s).length = s.len.toNat := by
  have hle := len_le_length s
  have hlength : s.bytes.length = s.length := rfl
  rw [visible, List.length_take]
  omega

theorem visible_short (h : Short s) : visible s = s.bytes := by
  rw [visible, len_eq h, Int.toNat_natCast]
  exact List.take_length

theorem visible_drop {i : ℕ} (hi : (i : ℤ) < s.len) :
    ∃ hin : i < s.length,
      (visible s).drop i = getElem s.bytes i hin :: (visible s).drop (i + 1) := by
  have hle := len_le_length s
  have hlength := visible_length s
  have hin : i < s.length := by omega
  refine ⟨hin, ?_⟩
  rw [List.drop_eq_getElem_cons (by omega)]
  congr 1
  exact List.getElem_take

theorem visible_end {i : ℕ} (hi : s.len ≤ i) : (visible s).drop i = [] := by
  have hlength := visible_length s
  exact List.drop_of_length_le (by omega)

/-- The digits are taken in as long as the number stays in the limit. -/
theorem parseLoop_eq (limit : ℤ) {v i fuel : ℕ} (hv : v ≤ limit)
    (hfuel : s.len.toNat - i + 1 ≤ fuel) :
    parseLoop s limit fuel v i =
      if ((visible s).drop i).all isDigitByte = true ∧
          (decimalFrom v ((visible s).drop i) : ℤ) ≤ limit then
        .ok (decimalFrom v ((visible s).drop i) : ℤ)
      else .error (.err "strconv.parse_i32 failed") := by
  have hhigh := len_high s
  induction fuel generalizing v i with
  | zero => omega
  | succ fuel ih =>
    rw [parseLoop]
    by_cases hin : (i : ℤ) < s.len
    · obtain ⟨hi, hdrop⟩ := visible_drop hin
      rw [if_pos hin, bind_ok (byteAt_nat hi), hdrop]
      by_cases hdigit : isDigitByte (getElem s.bytes i hi) = true
      · have hbounds := isDigitByte_iff.mp hdigit
        have hlater := le_decimalFrom (v * 10 + ((getElem s.bytes i hi).toNat - 48))
          ((visible s).drop (i + 1))
        rw [if_neg (not_not_intro hdigit), decimalFrom_cons]
        by_cases hlarge : (v : ℤ) > (limit - ((getElem s.bytes i hi).toNat - 48)) / 10
        · rw [if_pos hlarge, if_neg]
          rintro ⟨-, hfits⟩
          omega
        · have hvalue : (v : ℤ) * 10 + ((getElem s.bytes i hi).toNat - 48) =
              ((v * 10 + ((getElem s.bytes i hi).toNat - 48) : ℕ) : ℤ) := by omega
          have hnext : wrap32 ((i : ℤ) + 1) = ((i + 1 : ℕ) : ℤ) := by
            rw [wrap32_eq (by omega) (by omega), Int.natCast_succ]
          rw [if_neg hlarge, hvalue, hnext, ih (by omega) (by omega)]
          simp [hdigit]
      · rw [if_pos hdigit, if_neg]
        rintro ⟨hall, -⟩
        exact hdigit (List.all_eq_true.mp hall _ List.mem_cons_self)
    · rw [if_neg hin, visible_end (by omega)]
      rw [if_pos ⟨rfl, hv⟩]
      rfl

theorem signAt_eq (hpos : 0 < s.len) :
    ∃ i : ℕ, i ≤ 1 ∧ signAt s = .ok ((signOf (visible s)).1, (i : ℤ)) ∧
      (visible s).drop i = (signOf (visible s)).2 := by
  obtain ⟨hi, hdrop⟩ := visible_drop (i := 0) hpos
  have hread := byteAt_nat hi
  rw [List.drop_zero] at hdrop
  rw [Int.natCast_zero] at hread
  rw [signAt, bind_ok hread, hdrop, signOf]
  by_cases hminus : getElem s.bytes 0 hi = 45
  · rw [if_pos hminus, if_pos hminus]
    exact ⟨1, Nat.le_refl 1, rfl, rfl⟩
  · rw [if_neg hminus, if_neg hminus, bind_ok hread]
    by_cases hplus : getElem s.bytes 0 hi = 43
    · rw [if_pos hplus, if_pos hplus]
      exact ⟨1, Nat.le_refl 1, rfl, rfl⟩
    · rw [if_neg hplus, if_neg hplus]
      exact ⟨0, Nat.zero_le 1, rfl, rfl⟩

/-- The call gives the integer that the text denotes, or fails if there is none. -/
structure Gives (t : Bytes) (x : Except Stop ℤ) : Prop where
  result : ∀ z, ParsesAs t z → x = .ok z
  failure : (∀ z, ¬ ParsesAs t z) → x = .error (.err "strconv.parse_i32 failed")

theorem fits_signed {neg : Bool} {n : ℕ} :
    Fits (if neg then -(n : ℤ) else n) ↔ (n : ℤ) ≤ if neg then 2147483648 else 2147483647 := by
  cases neg with
  | true =>
    simp only [Fits, if_true]
    omega
  | false =>
    simp only [Fits, Bool.false_eq_true, if_false]
    omega

theorem parseI32_gives {fuel : ℕ} (hpos : 0 < s.len) (hfuel : s.len.toNat + 1 ≤ fuel) :
    Gives (visible s) (parseI32 s fuel) := by
  obtain ⟨i, hi, hsign, hdigits⟩ := signAt_eq hpos
  have hroom : s.len.toNat - i + 1 ≤ fuel := by omega
  have hloop := parseLoop_eq (v := 0) (if (signOf (visible s)).1 then 2147483648 else 2147483647)
    (by split <;> decide) hroom
  rw [hdigits, Int.natCast_zero] at hloop
  have hnumber (z : ℤ) : ParsesAs (visible s) z ↔
      Numeral (signOf (visible s)).2 ∧
        (decimalFrom 0 (signOf (visible s)).2 : ℤ) ≤
          (if (signOf (visible s)).1 then 2147483648 else 2147483647) ∧
        z = if (signOf (visible s)).1 then -(decimalFrom 0 (signOf (visible s)).2 : ℤ)
          else decimalFrom 0 (signOf (visible s)).2 := by
    rw [ParsesAs, denotes_iff]
    constructor
    · rintro ⟨⟨hnumeral, rfl⟩, hfits⟩
      exact ⟨hnumeral, fits_signed.mp hfits, rfl⟩
    · rintro ⟨hnumeral, hlimit, rfl⟩
      exact ⟨⟨hnumeral, rfl⟩, fits_signed.mpr hlimit⟩
  have hends : (i : ℤ) = s.len ↔ (signOf (visible s)).2 = [] := by
    rw [← hdigits, List.drop_eq_nil_iff, visible_length]
    omega
  rw [parseI32, if_neg (by omega), bind_ok hsign]
  constructor
  · intro z hz
    obtain ⟨hnumeral, hlimit, rfl⟩ := (hnumber z).mp hz
    have hvalue := fits_signed.mpr hlimit
    change (if (i : ℤ) = s.len then _ else _) = _
    rw [if_neg (fun heq => hnumeral.1 (hends.mp heq)),
      bind_ok (hloop.trans (if_pos ⟨List.all_eq_true.mpr hnumeral.2, hlimit⟩))]
    cases hneg : (signOf (visible s)).1 with
    | true =>
      rw [hneg, if_pos rfl] at hvalue
      rw [if_pos rfl, if_pos rfl, Int.zero_sub, wrap32_of_fits hvalue]
    | false =>
      rw [hneg, if_neg Bool.false_ne_true] at hvalue
      rw [if_neg Bool.false_ne_true, if_neg Bool.false_ne_true, wrap32_of_fits hvalue]
  · intro hnone
    change (if (i : ℤ) = s.len then _ else _) = _
    by_cases hempty : (i : ℤ) = s.len
    · rw [if_pos hempty]
    · rw [if_neg hempty, bind_error (hloop.trans (if_neg _))]
      rintro ⟨hall, hlimit⟩
      have hnumeral : Numeral (signOf (visible s)).2 :=
        ⟨fun hnil => hempty (hends.mpr hnil), List.all_eq_true.mp hall⟩
      exact hnone _ ((hnumber _).mpr ⟨hnumeral, hlimit, rfl⟩)

theorem parseI32_empty (fuel : ℕ) (hs : s.len = 0) :
    parseI32 s fuel = .error (.err "strconv.parse_i32 failed") := by
  rw [parseI32, if_pos hs]

/-- Behind a negative `len` no digit is seen. -/
theorem parseI32_negative {fuel : ℕ} (hs : s.len < 0) : parseI32 s (fuel + 1) = .ok 0 := by
  have hlength := length_of_negative hs
  have hin : 0 < s.length := by omega
  have hread : byteAt s 0 = .ok (getElem s.bytes 0 hin) := byteAt_nat hin
  have hsign : ∃ (neg : Bool) (i : ℤ), 0 ≤ i ∧ signAt s = .ok (neg, i) := by
    rw [signAt, bind_ok hread]
    split
    · exact ⟨true, 1, by decide, rfl⟩
    · rw [bind_ok hread]
      exact ⟨false, _, by split <;> decide, rfl⟩
  obtain ⟨neg, i, hi, hsign⟩ := hsign
  rw [parseI32, if_neg (by omega), bind_ok hsign]
  change (if i = s.len then _ else _) = _
  rw [if_neg (by omega), parseLoop, if_neg (by omega)]
  cases neg <;> rfl

end Parsing

section Arithmetic
variable {s : Str} {wide narrow : Arithmetic}

/-- The values of an `i64`. -/
def FitsLong (z : ℤ) : Prop := -9223372036854775808 ≤ z ∧ z < 9223372036854775808

instance (z : ℤ) : Decidable (FitsLong z) := inferInstanceAs (Decidable (_ ∧ _))

def checkedLong : Arithmetic := fun z => if FitsLong z then some z else none

/-- The loop of `parse_i32` with each operation on `i64` as it is written. -/
def parseLoopBy (s : Str) (wide : Arithmetic) (limit : ℤ) : ℕ → ℤ → ℤ → Option (Except Stop ℤ)
  | 0, _, _ => some (.error .unfinished)
  | fuel + 1, value, i =>
    if i < s.len then
      match byteAt s i with
      | .error stop => some (.error stop)
      | .ok b =>
        if ¬ isDigitByte b = true then some (.error (.err "strconv.parse_i32 failed"))
        else
          (wide (limit - (b.toNat - 48))).bind fun room =>
          (wide (room.tdiv 10)).bind fun most =>
          if value > most then some (.error (.err "strconv.parse_i32 failed"))
          else
            (wide (value * 10)).bind fun shifted =>
            (wide (shifted + (b.toNat - 48))).bind fun value =>
            parseLoopBy s wide limit fuel value (wrap32 (i + 1))
    else
      some (.ok value)

/-- `parse_i32` with its operations on `i64` and its conversion to `i32`; `none` where one of them
has no result. -/
def parseI32By (s : Str) (wide narrow : Arithmetic) (fuel : ℕ) : Option (Except Stop ℤ) :=
  if s.len = 0 then
    some (.error (.err "strconv.parse_i32 failed"))
  else
    match signAt s with
    | .error stop => some (.error stop)
    | .ok (neg, i) =>
      if i = s.len then
        some (.error (.err "strconv.parse_i32 failed"))
      else
        (parseLoopBy s wide (if neg then 2147483648 else 2147483647) fuel 0 i).bind fun
        | .error stop => some (.error stop)
        | .ok value =>
          if neg then (wide (0 - value)).bind fun z => (narrow z).map .ok
          else (narrow value).map .ok

/-- The number in the loop stays in the limit, and no operation leaves `i64`. -/
theorem parseLoopBy_eq (hwide : ∀ z, FitsLong z → wide z = some z) (limit : ℤ) {value : ℤ}
    (i : ℤ) (fuel : ℕ) (hlimit : 9 ≤ limit) (hlong : limit ≤ 2147483648) (hvalue : 0 ≤ value)
    (hle : value ≤ limit) :
    parseLoopBy s wide limit fuel value i = some (parseLoop s limit fuel value i) ∧
      Ends (fun _ => True) (fun z => 0 ≤ z ∧ z ≤ limit) (parseLoop s limit fuel value i) := by
  induction fuel generalizing value i with
  | zero => exact ⟨rfl, .error trivial⟩
  | succ fuel ih =>
    rw [parseLoopBy, parseLoop]
    by_cases hin : i < s.len
    · rw [if_pos hin, if_pos hin]
      cases byteAt s i with
      | error stop => exact ⟨rfl, .error trivial⟩
      | ok b =>
        rw [bind_ok rfl]
        by_cases hdigit : isDigitByte b = true
        · have hbounds := isDigitByte_iff.mp hdigit
          have htdiv : (limit - ((b.toNat : ℤ) - 48)).tdiv 10 = (limit - (b.toNat - 48)) / 10 :=
            Int.tdiv_eq_ediv_of_nonneg (by omega)
          simp only [hdigit, not_true_eq_false, if_false]
          rw [hwide _ ⟨by omega, by omega⟩, Option.bind_some, htdiv, hwide _ ⟨by omega, by omega⟩,
            Option.bind_some]
          by_cases hlarge : value > (limit - ((b.toNat : ℤ) - 48)) / 10
          · rw [if_pos hlarge, if_pos hlarge]
            exact ⟨rfl, .error trivial⟩
          · rw [if_neg hlarge, if_neg hlarge, hwide _ ⟨by omega, by omega⟩, Option.bind_some,
              hwide _ ⟨by omega, by omega⟩, Option.bind_some]
            exact ih _ (by omega) (by omega)
        · simp only [hdigit]
          exact ⟨rfl, .error trivial⟩
    · rw [if_neg hin, if_neg hin]
      exact ⟨rfl, .ok ⟨hvalue, hle⟩⟩

theorem parseI32By_eq (hwide : ∀ z, FitsLong z → wide z = some z)
    (hnarrow : ∀ z, Fits z → narrow z = some z) (s : Str) (fuel : ℕ) :
    parseI32By s wide narrow fuel = some (parseI32 s fuel) := by
  rw [parseI32By, parseI32]
  by_cases hs : s.len = 0
  · rw [if_pos hs, if_pos hs]
  · rw [if_neg hs, if_neg hs]
    cases signAt s with
    | error stop => rfl
    | ok sign =>
      obtain ⟨neg, i⟩ := sign
      rw [bind_ok rfl]
      change (if i = s.len then _ else _) = some (if i = s.len then _ else _)
      by_cases hend : i = s.len
      · rw [if_pos hend, if_pos hend]
      · rw [if_neg hend, if_neg hend]
        obtain ⟨heq, hends⟩ := parseLoopBy_eq (s := s) hwide
          (if neg then 2147483648 else 2147483647) i fuel (by split <;> decide)
          (by split <;> decide) (Int.le_refl 0) (by split <;> decide)
        rw [heq, Option.bind_some]
        generalize parseLoop s (if neg then 2147483648 else 2147483647) fuel 0 i = x at hends ⊢
        cases hends with
        | error _ => rfl
        | @ok value hvalue =>
          rw [bind_ok rfl]
          cases neg with
          | true =>
            have hfits : Fits (0 - value) := by
              rw [if_pos rfl] at hvalue
              exact ⟨by omega, by omega⟩
            simp only [if_true]
            rw [hwide _ ⟨by omega, by omega⟩, Option.bind_some, hnarrow _ hfits,
              wrap32_of_fits hfits]
            rfl
          | false =>
            have hfits : Fits value := by
              rw [if_neg Bool.false_ne_true] at hvalue
              exact ⟨by omega, by omega⟩
            simp only [Bool.false_eq_true, if_false]
            rw [hnarrow _ hfits, wrap32_of_fits hfits]
            rfl

theorem parseI32By_checked (s : Str) (fuel : ℕ) :
    parseI32By s checkedLong checked fuel = some (parseI32 s fuel) :=
  parseI32By_eq (fun _ h => if_pos h) (fun _ h => if_pos h) s fuel

end Arithmetic

section Formatting

def digitBytes (n : ℕ) : Bytes := (Nat.toDigits 10 n).map fun c => UInt8.ofNat c.toNat

/-- What `"%lld"` makes of an integer. -/
def integerText (n : ℤ) : Bytes := if n < 0 then 45 :: digitBytes n.natAbs else digitBytes n.natAbs

/-- `__nc_i64_to_str_out`: at most 31 bytes and the NUL go into the buffer. -/
def i64ToStrOut (n : ℤ) : Str := .buffer ((integerText n).take 31)

/-- `format_i32`. -/
def formatI32 (n : ℤ) : Str := i64ToStrOut n

theorem digit_toNat {c : Char} (h : c.isDigit = true) :
    (UInt8.ofNat c.toNat).toNat = c.toNat ∧ 48 ≤ c.toNat ∧ c.toNat ≤ 57 := by
  have hbounds : 48 ≤ c.toNat ∧ c.toNat ≤ 57 := by
    simpa [Char.isDigit, UInt32.le_iff_toNat_le] using h
  refine ⟨?_, hbounds⟩
  rw [UInt8.toNat_ofNat']
  omega

theorem decimalFrom_chars {cs : List Char} (h : ∀ c ∈ cs, c.isDigit = true) (v : ℕ) :
    decimalFrom v (cs.map fun c => UInt8.ofNat c.toNat) = Nat.ofDigitChars 10 cs v := by
  induction cs generalizing v with
  | nil => rfl
  | cons c cs ih =>
    obtain ⟨hbyte, -, -⟩ := digit_toNat (h c List.mem_cons_self)
    rw [List.map_cons, decimalFrom_cons, Nat.ofDigitChars_cons, hbyte,
      ih (fun d hd => h d (List.mem_cons_of_mem c hd)), Nat.mul_comm]
    rfl

theorem isDigit_digits {n : ℕ} : ∀ c ∈ Nat.toDigits 10 n, c.isDigit = true :=
  fun _ hc => Nat.isDigit_of_mem_toDigits (by decide) (by decide) hc

theorem digitBytes_numeral (n : ℕ) : Numeral (digitBytes n) := by
  refine ⟨fun hnil => Nat.toDigits_ne_nil (List.map_eq_nil_iff.mp hnil), fun b hb => ?_⟩
  obtain ⟨c, hc, rfl⟩ := List.mem_map.mp hb
  obtain ⟨hbyte, hbounds⟩ := digit_toNat (isDigit_digits c hc)
  rw [isDigitByte_iff, hbyte]
  exact hbounds

theorem decimalFrom_digitBytes (n : ℕ) : decimalFrom 0 (digitBytes n) = n := by
  rw [digitBytes, decimalFrom_chars isDigit_digits, Nat.ofDigitChars_ten_toDigits]

theorem integerText_denotes (n : ℤ) : Denotes (integerText n) n := by
  by_cases hneg : n < 0
  · have hminus := Denotes.minus (digitBytes_numeral n.natAbs)
    rw [decimalFrom_digitBytes] at hminus
    have hvalue : -(n.natAbs : ℤ) = n := by omega
    rw [integerText, if_pos hneg]
    rwa [hvalue] at hminus
  · have hplain := Denotes.plain (digitBytes_numeral n.natAbs)
    rw [decimalFrom_digitBytes] at hplain
    have hvalue : (n.natAbs : ℤ) = n := by omega
    rw [integerText, if_neg hneg]
    rwa [hvalue] at hplain

theorem integerText_length {n : ℤ} (h : Fits n) :
    0 < (integerText n).length ∧ (integerText n).length ≤ 11 := by
  obtain ⟨hlow, hhigh⟩ := h
  have hdigits : (digitBytes n.natAbs).length ≤ 10 := by
    rw [digitBytes, List.length_map]
    exact (Nat.length_toDigits_le_iff (by decide) (by decide)).mpr (by omega)
  have hpos : 0 < (digitBytes n.natAbs).length :=
    List.length_pos_iff.mpr (digitBytes_numeral n.natAbs).1
  unfold integerText
  split
  · rw [List.length_cons]
    omega
  · omega

theorem formatI32_bytes {n : ℤ} (h : Fits n) : (formatI32 n).bytes = integerText n :=
  List.take_of_length_le (Nat.le_trans (integerText_length h).2 (by decide))

theorem parse_formatI32 {n : ℤ} (h : Fits n) : Returns (parseI32 (formatI32 n)) n := by
  have hbytes := formatI32_bytes h
  obtain ⟨hpos, hle⟩ := integerText_length h
  have hlength : (formatI32 n).length = (integerText n).length := congrArg List.length hbytes
  have hshort : Short (formatI32 n) := by
    change (formatI32 n).length < 2147483648
    omega
  have hlen := len_eq hshort
  refine ⟨12, fun fuel hfuel => ?_⟩
  have hfuel' : (formatI32 n).len.toNat + 1 ≤ fuel := by omega
  have hgives := parseI32_gives (by omega) hfuel'
  refine hgives.result n ⟨?_, h⟩
  rw [visible_short hshort, hbytes]
  exact integerText_denotes n

end Formatting

section Exactness
variable {s : Str}

/-- `parse_i32` gives the integer that its text denotes, and fails where there is none. -/
def Exact (s : Str) : Prop := ∃ n, ∀ fuel ≥ n, Gives s.bytes (parseI32 s fuel)

/-- The length is one of an `i32`, or it makes no difference: `len` is negative and the text denotes
0, or what `len` lets the loop see denotes the same. -/
def Condition (s : Str) : Prop :=
  Short s ∨ (s.len < 0 ∧ Denotes s.bytes 0) ∨
    (0 ≤ s.len ∧ ∀ z, ParsesAs s.bytes z ↔ ParsesAs (visible s) z)

theorem not_parsesAs_nil (z : ℤ) : ¬ ParsesAs [] z := by
  rintro ⟨hdenotes, -⟩
  exact (denotes_iff.mp hdenotes).1.1 rfl

/-- Where `len` is not negative, what it lets the loop see is parsed. -/
theorem parseI32_visible {fuel : ℕ} (hs : 0 ≤ s.len) (hfuel : s.len.toNat + 1 ≤ fuel) :
    Gives (visible s) (parseI32 s fuel) := by
  rcases Int.lt_or_eq_of_le hs with hpos | hzero
  · exact parseI32_gives hpos hfuel
  · have hnil : visible s = [] := by
      rw [visible, ← hzero]
      rfl
    rw [parseI32_empty fuel hzero.symm, hnil]
    exact ⟨fun z hz => absurd hz (not_parsesAs_nil z), fun _ => rfl⟩

theorem Gives.congr {t u : Bytes} {x : Except Stop ℤ} (h : ∀ z, ParsesAs t z ↔ ParsesAs u z)
    (hx : Gives t x) : Gives u x where
  result z hz := hx.result z ((h z).mpr hz)
  failure hnone := hx.failure fun z hz => hnone z ((h z).mp hz)

/-- The result says what the text denotes. -/
theorem Gives.parsesAs {t : Bytes} {x : Except Stop ℤ} (hx : Gives t x) (z : ℤ) :
    ParsesAs t z ↔ x = .ok z := by
  refine ⟨hx.result z, fun hz => ?_⟩
  by_contra hnot
  by_cases hsome : ∃ y, ParsesAs t y
  · obtain ⟨y, hy⟩ := hsome
    have heq := (hx.result y hy).symm.trans hz
    cases heq
    exact hnot hy
  · have hfail := hx.failure fun y hy => hsome ⟨y, hy⟩
    cases hfail.symm.trans hz

theorem exact_iff (s : Str) : Exact s ↔ Condition s := by
  by_cases hneg : s.len < 0
  · have hlong := length_of_negative hneg
    constructor
    · rintro ⟨n, hgives⟩
      have hzero := ((hgives (n + 1) (Nat.le_succ n)).parsesAs 0).mpr (parseI32_negative hneg)
      exact Or.inr (Or.inl ⟨hneg, hzero.1⟩)
    · rintro (hshort | ⟨-, hzero⟩ | ⟨hnonneg, -⟩)
      · exact absurd hshort (by omega)
      · refine ⟨1, fun fuel hfuel => ?_⟩
        obtain ⟨fuel, rfl⟩ : ∃ n, fuel = n + 1 := ⟨fuel - 1, by omega⟩
        rw [parseI32_negative hneg]
        refine ⟨fun z hz => ?_, fun hnone => absurd ⟨hzero, by decide⟩ (hnone 0)⟩
        rw [hz.1.unique hzero]
      · omega
  · have hnonneg : 0 ≤ s.len := Int.not_lt.mp hneg
    have hvisible {fuel : ℕ} (hfuel : s.len.toNat + 1 ≤ fuel) := parseI32_visible hnonneg hfuel
    constructor
    · rintro ⟨n, hgives⟩
      refine Or.inr (Or.inr ⟨hnonneg, fun z => ?_⟩)
      have hleft := (hgives (n + (s.len.toNat + 1)) (Nat.le_add_right _ _)).parsesAs z
      have hright := (hvisible (Nat.le_add_left (s.len.toNat + 1) n)).parsesAs z
      exact hleft.trans hright.symm
    · intro hcondition
      have hsame : ∀ z, ParsesAs (visible s) z ↔ ParsesAs s.bytes z := by
        rcases hcondition with hshort | ⟨hlen, -⟩ | ⟨-, hsame⟩
        · intro z
          rw [visible_short hshort]
        · omega
        · exact fun z => (hsame z).symm
      exact ⟨s.len.toNat + 1, fun fuel hfuel => (hvisible hfuel).congr hsame⟩

/-- `parse_i32` is exact if the number denoted is the one that `len` lets it see; its arithmetic
stays in the types, and it gives back what `format_i32` has written. -/
theorem parse_i32_exact (s : Str) :
    (Exact s ↔ Condition s) ∧
      (∀ fuel, parseI32By s checkedLong checked fuel = some (parseI32 s fuel)) ∧
      ∀ n, Fits n → Returns (parseI32 (formatI32 n)) n :=
  ⟨exact_iff s, parseI32By_checked s, fun _ h => parse_formatI32 h⟩

/-- The least `i32`. -/
theorem parse_i32_exact_lowest : Returns (parseI32 (formatI32 (-2147483648))) (-2147483648) :=
  (parse_i32_exact (formatI32 (-2147483648))).2.2 (-2147483648) (by decide)

/-- `n + 1` times `a`. -/
def letters (n : ℕ) : Str := .buffer (97 :: List.replicate n 97)

theorem not_parsesAs_letters (n : ℕ) (z : ℤ) : ¬ ParsesAs (letters n).bytes z := by
  rintro ⟨hdenotes, -⟩
  have hnumeral := (denotes_iff.mp hdenotes).1.2
  have hdigit : isDigitByte 97 = true := hnumeral 97 List.mem_cons_self
  exact absurd hdigit (by decide)

/-- `2 ^ 31` letters are taken for 0. -/
theorem letters_accepted : ¬ ∀ s, Exact s := by
  intro h
  have hlength : (letters 2147483647).length = 2147483647 + 1 := by
    rw [letters, Str.length, Str.bytes, List.length_cons, List.length_replicate]
  have hlen : (letters 2147483647).len < 0 := by
    rw [Str.len, hlength]
    decide
  obtain ⟨n, hgives⟩ := h (letters 2147483647)
  have hzero := ((hgives (n + 1) (Nat.le_succ n)).parsesAs 0).mpr (parseI32_negative hlen)
  exact not_parsesAs_letters _ 0 hzero

end Exactness

end NewClLang.IntegerParsing
