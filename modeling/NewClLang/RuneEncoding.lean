import NewClLang.JsonModule
import Mathlib.Algebra.Ring.Nat

set_option autoImplicit false

/-!
# Runes as bytes

`__nc_rune_to_str_out` of `runtime/ncrt.c`. A surrogate is kept out of the branch for three bytes
and falls into the one for four.
-/
namespace NewClLang.RuneEncoding
open JsonModule

section Runtime

/-- `(uint8_t)(tag | x)`. -/
def byte (tag x : UInt32) : UInt8 := (tag ||| x).toUInt8

/-- The bytes that the branches of `__nc_rune_to_str_out` store. -/
def runeBytes (r : UInt32) : List UInt8 :=
  if r ≤ 0x7F then
    [r.toUInt8]
  else if r ≤ 0x7FF then
    [byte 0xC0 (r >>> 6), byte 0x80 (r &&& 0x3F)]
  else if r ≤ 0xFFFF ∧ ¬ (r ≥ 0xD800 ∧ r ≤ 0xDFFF) then
    [byte 0xE0 (r >>> 12), byte 0x80 (r >>> 6 &&& 0x3F), byte 0x80 (r &&& 0x3F)]
  else if r ≤ 0x10FFFF then
    [byte 0xF0 (r >>> 18), byte 0x80 (r >>> 12 &&& 0x3F),
      byte 0x80 (r >>> 6 &&& 0x3F), byte 0x80 (r &&& 0x3F)]
  else
    [0xEF, 0xBF, 0xBD]

/-- The `str` that the routine leaves in `out`, and the buffer behind its pointer. -/
structure RuneStr where
  buf : Vector UInt8 5
  len : ℕ

/-- `buf[len++] = b`. -/
def RuneStr.push (s : RuneStr) (b : UInt8) : RuneStr := ⟨s.buf.setIfInBounds s.len b, s.len + 1⟩

/-- `__nc_rune_to_str_out`, with the buffer as `__nc_gc_alloc` returns it. -/
def runeToStrOut (buf : Vector UInt8 5) (r : UInt32) : RuneStr :=
  let s := (runeBytes r).foldl RuneStr.push ⟨buf, 0⟩
  { s with buf := s.buf.setIfInBounds s.len 0 }

end Runtime

section Encoding

/-- The rune itself if it is a Unicode scalar value, and U+FFFD for every other number. -/
def runeChar (r : UInt32) : Char := if h : r.isValidChar then ⟨r, h⟩ else '\uFFFD'

def Surrogate (r : UInt32) : Prop := 0xD800 ≤ r ∧ r ≤ 0xDFFF

instance (r : UInt32) : Decidable (Surrogate r) := inferInstanceAs (Decidable (_ ∧ _))

/-- The bytes are one character in UTF-8, which is read back from them. -/
structure Encodes (bytes : List UInt8) (c : Char) : Prop where
  encoding : bytes = String.utf8EncodeChar c
  wellFormed : bytes.toByteArray.IsValidUTF8
  decoded : bytes.toByteArray.utf8DecodeChar? 0 = some c

/-- The routine leaves the rune's encoding with a NUL behind it. -/
structure EncodesRune (r : UInt32) (s : RuneStr) : Prop where
  length : s.len ≤ 4
  bytes : Encodes (s.buf.toList.take s.len) (runeChar r)
  terminated : s.buf[s.len]? = some 0

theorem encodes_encoding (c : Char) : Encodes (String.utf8EncodeChar c) c where
  encoding := rfl
  wellFormed := Char.isValidUTF8_toByteArray_utf8EncodeChar
  decoded := by
    have hread := ByteArray.utf8DecodeChar?_utf8EncodeChar_append (b := ByteArray.empty) (c := c)
    rw [ByteArray.append_empty] at hread
    exact hread

end Encoding

section Bytes

/-- A number below a tag is added to it. -/
theorem byte_tagged {tag x : UInt32} {i n k : ℕ} (htag : tag.toNat = 2 ^ i * k)
    (hx : x.toNat = n) (hn : n < 2 ^ i) : byte tag x = UInt8.ofNat (tag.toNat + n) := by
  have hor : tag.toNat ||| n = tag.toNat + n := by
    rw [htag, Nat.two_pow_add_eq_or_of_lt hn]
  rw [byte, ← UInt8.toNat_inj, UInt32.toNat_toUInt8, UInt32.toNat_or, hx, hor, UInt8.toNat_ofNat']

theorem shifted_toNat (r k : UInt32) (hk : k.toNat < 32) :
    (r >>> k).toNat = r.toNat / 2 ^ k.toNat := by
  rw [UInt32.toNat_shiftRight, Nat.mod_eq_of_lt hk, Nat.shiftRight_eq_div_pow]

theorem low_toNat {x : UInt32} {n : ℕ} (hx : x.toNat = n) : (x &&& 0x3F).toNat = n % 64 := by
  rw [UInt32.toNat_and, hx]
  exact Nat.and_two_pow_sub_one_eq_mod n 6

theorem byte_tail {x : UInt32} {n : ℕ} (hx : x.toNat = n) :
    byte 0x80 (x &&& 0x3F) = UInt8.ofNat (0x80 + n % 64) :=
  byte_tagged (i := 6) (k := 2) rfl (low_toNat hx) (Nat.mod_lt n (by decide))

theorem runeBytes_eq (r : UInt32) : runeBytes r = strRune r.toNat := by
  have h6 : (r >>> 6).toNat = r.toNat / 64 := shifted_toNat r 6 (by decide)
  have h12 : (r >>> 12).toNat = r.toNat / 4096 := shifted_toNat r 12 (by decide)
  have h18 : (r >>> 18).toNat = r.toNat / 262144 := shifted_toNat r 18 (by decide)
  have hlow : byte 0x80 (r &&& 0x3F) = UInt8.ofNat (0x80 + r.toNat % 64) := byte_tail rfl
  unfold runeBytes strRune
  simp only [UInt32.le_iff_toNat_le, ge_iff_le, UInt32.reduceToNat]
  by_cases h₁ : r.toNat ≤ 127
  · rw [if_pos h₁, if_pos h₁, UInt8.ofNat_uInt32ToNat]
  rw [if_neg h₁, if_neg h₁]
  by_cases h₂ : r.toNat ≤ 2047
  · have hlead : byte 0xC0 (r >>> 6) = UInt8.ofNat (0xC0 + r.toNat / 64) :=
      byte_tagged (i := 5) (k := 6) rfl h6 (by omega)
    rw [if_pos h₂, if_pos h₂, hlead, hlow]
  rw [if_neg h₂, if_neg h₂]
  by_cases h₃ : r.toNat ≤ 65535 ∧ ¬ (55296 ≤ r.toNat ∧ r.toNat ≤ 57343)
  · have hlead : byte 0xE0 (r >>> 12) = UInt8.ofNat (0xE0 + r.toNat / 4096) :=
      byte_tagged (i := 4) (k := 14) rfl h12 (by omega)
    rw [if_pos h₃, if_pos h₃, hlead, byte_tail h6, hlow]
  rw [if_neg h₃, if_neg h₃]
  by_cases h₄ : r.toNat ≤ 1114111
  · have hlead : byte 0xF0 (r >>> 18) = UInt8.ofNat (0xF0 + r.toNat / 262144) :=
      byte_tagged (i := 3) (k := 30) rfl h18 (by omega)
    rw [if_pos h₄, if_pos h₄, hlead, byte_tail h12, byte_tail h6, hlow]
  · rw [if_neg h₄, if_neg h₄]

theorem strRune_scalar (c : Char) : strRune c.val.toNat = String.utf8EncodeChar c := by
  have hvalid := c.valid
  simp only [UInt32.isValidChar, Nat.isValidChar] at hvalid
  unfold strRune String.utf8EncodeChar
  dsimp only
  generalize c.val.toNat = n at hvalid ⊢
  by_cases h₁ : n ≤ 127
  · rw [if_pos h₁, if_pos h₁]
  rw [if_neg h₁, if_neg h₁]
  by_cases h₂ : n ≤ 2047
  · rw [if_pos h₂, if_pos h₂, Nat.mod_eq_of_lt (a := n / 64) (by omega), Nat.add_comm (n / 64),
      Nat.add_comm (n % 64)]
  rw [if_neg h₂, if_neg h₂]
  by_cases h₃ : n ≤ 65535
  · rw [if_pos ⟨h₃, by omega⟩, if_pos h₃, Nat.mod_eq_of_lt (a := n / 4096) (by omega),
      Nat.add_comm (n / 4096), Nat.add_comm (n / 64 % 64), Nat.add_comm (n % 64)]
  · rw [if_neg (fun h => h₃ h.1), if_neg h₃, if_pos (by omega),
      Nat.mod_eq_of_lt (a := n / 262144) (by omega), Nat.add_comm (n / 262144),
      Nat.add_comm (n / 4096 % 64), Nat.add_comm (n / 64 % 64), Nat.add_comm (n % 64)]

theorem strRune_beyond {n : ℕ} (h : 0x10FFFF < n) :
    strRune n = String.utf8EncodeChar '\uFFFD' := by
  rw [strRune, if_neg (by omega), if_neg (by omega), if_neg (by omega), if_neg (by omega)]
  rfl

theorem strRune_surrogate {n : ℕ} (h : 0xD800 ≤ n ∧ n ≤ 0xDFFF) : (strRune n).length = 4 := by
  rw [strRune, if_neg (by omega), if_neg (by omega), if_neg (by omega), if_pos (by omega)]
  rfl

theorem strRune_length (n : ℕ) : (strRune n).length ≤ 4 := by
  unfold strRune
  split_ifs <;> simp

end Bytes

section Buffer

theorem push_toList (s : RuneStr) (b : UInt8) :
    (s.push b).buf.toList = s.buf.toList.set s.len b := by
  simp [RuneStr.push]

/-- What is pushed stands behind what the buffer held before. -/
theorem pushes_take (bytes : List UInt8) (s : RuneStr) (h : s.len + bytes.length ≤ 5) :
    (bytes.foldl RuneStr.push s).len = s.len + bytes.length ∧
      (bytes.foldl RuneStr.push s).buf.toList.take (s.len + bytes.length) =
        s.buf.toList.take s.len ++ bytes := by
  induction bytes generalizing s with
  | nil => simp
  | cons b bytes ih =>
    rw [List.length_cons] at h
    have hlen : (s.push b).len = s.len + 1 := rfl
    obtain ⟨hlast, htake⟩ := ih (s.push b) (by omega)
    have hsize : s.buf.toList.length = 5 := by simp
    have hset : (s.push b).buf.toList.take (s.len + 1) = s.buf.toList.take s.len ++ [b] := by
      rw [push_toList, List.take_add_one, List.take_set_of_le (by omega),
        List.getElem?_set_self (by omega)]
      rfl
    rw [hlen] at hlast htake
    rw [List.foldl_cons, List.length_cons, ← Nat.add_assoc, Nat.add_right_comm]
    refine ⟨hlast, ?_⟩
    rw [htake, hset, List.append_assoc]
    rfl

theorem runeToStrOut_len (buf : Vector UInt8 5) (r : UInt32) :
    (runeToStrOut buf r).len = (strRune r.toNat).length := by
  have hroom : 0 + (strRune r.toNat).length ≤ 5 := by
    have hlength := strRune_length r.toNat
    omega
  have hpushes := (pushes_take (strRune r.toNat) ⟨buf, 0⟩ hroom).1
  rw [runeToStrOut, runeBytes_eq, hpushes]
  exact Nat.zero_add _

theorem runeToStrOut_bytes (buf : Vector UInt8 5) (r : UInt32) :
    (runeToStrOut buf r).buf.toList.take (runeToStrOut buf r).len = strRune r.toNat := by
  have hroom : 0 + (strRune r.toNat).length ≤ 5 := by
    have hlength := strRune_length r.toNat
    omega
  obtain ⟨hlen, htake⟩ := pushes_take (strRune r.toNat) ⟨buf, 0⟩ hroom
  rw [runeToStrOut_len]
  unfold runeToStrOut
  rw [runeBytes_eq]
  dsimp only
  rw [Vector.toList_setIfInBounds, hlen, List.take_set_of_le (by omega),
    ← Nat.zero_add (strRune r.toNat).length, htake]
  rfl

theorem runeToStrOut_terminated (buf : Vector UInt8 5) (r : UInt32) :
    (runeToStrOut buf r).buf[(runeToStrOut buf r).len]? = some 0 := by
  have hlength := strRune_length r.toNat
  have hlen := runeToStrOut_len buf r
  unfold runeToStrOut at hlen ⊢
  dsimp only at hlen ⊢
  rw [hlen]
  simp [Vector.getElem?_setIfInBounds]
  omega

end Buffer

section Runes

theorem isValidChar_iff (r : UInt32) : r.isValidChar ↔ ¬ Surrogate r ∧ r ≤ 0x10FFFF := by
  simp only [UInt32.isValidChar, Nat.isValidChar, Surrogate, UInt32.le_iff_toNat_le,
    UInt32.reduceToNat]
  omega

theorem strRune_encodes {r : UInt32} (h : ¬ Surrogate r) :
    strRune r.toNat = String.utf8EncodeChar (runeChar r) := by
  by_cases hvalid : r.isValidChar
  · rw [runeChar, dif_pos hvalid, ← strRune_scalar]
  · have hbeyond : ¬ r ≤ 0x10FFFF := fun hle => hvalid ((isValidChar_iff r).mpr ⟨h, hle⟩)
    rw [UInt32.le_iff_toNat_le] at hbeyond
    rw [runeChar, dif_neg hvalid]
    exact strRune_beyond (Nat.lt_of_not_le hbeyond)

/-- A rune is left in UTF-8 if and only if it is no surrogate. -/
theorem encodesRune_iff (buf : Vector UInt8 5) (r : UInt32) :
    EncodesRune r (runeToStrOut buf r) ↔ ¬ Surrogate r := by
  constructor
  · intro h hsurrogate
    have hbytes := h.bytes.encoding
    have hinvalid : ¬ r.isValidChar := fun hvalid => ((isValidChar_iff r).mp hvalid).1 hsurrogate
    rw [runeToStrOut_bytes, runeChar, dif_neg hinvalid] at hbytes
    have hlength := congrArg List.length hbytes
    have hfour : (strRune r.toNat).length = 4 := by
      refine strRune_surrogate ?_
      simpa [Surrogate, UInt32.le_iff_toNat_le] using hsurrogate
    rw [hfour] at hlength
    exact absurd hlength (by decide)
  · intro h
    refine ⟨?_, ?_, runeToStrOut_terminated buf r⟩
    · rw [runeToStrOut_len]
      exact strRune_length _
    · rw [runeToStrOut_bytes, strRune_encodes h]
      exact encodes_encoding _

theorem surrogate_not_encoded :
    ¬ EncodesRune 0xD800 (runeToStrOut (Vector.replicate 5 0) 0xD800) := by
  intro h
  have hlength := congrArg List.length h.bytes.encoding
  rw [runeToStrOut_bytes] at hlength
  exact absurd hlength (by decide)

end Runes

end NewClLang.RuneEncoding
