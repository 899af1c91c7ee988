import NewClLang.JsonReading

set_option autoImplicit false

/-!
# The texts that `parse` accepts

`parse` accepts JSON and raises its error on everything else, as long as `len` can hold the length of
the text. The length of a longer text is read as a negative number, and no such text is accepted.
-/
namespace NewClLang.JsonAcceptance
open WrappedIntegers ExceptOutcomes JsonGrammar JsonModule JsonTrees JsonScanning JsonNumbers
  JsonBuilding JsonReading

section Acceptance
variable {F : Type} {fl : Floats F}

/-- `parse` succeeds on JSON and raises an error of its own elsewhere: it always ends, and reads
    nothing behind the terminator. -/
def ParsesJson (fl : Floats F) (heap : Heap F) (s : Bytes) : Prop :=
  (IsText s → ∃ v h, parse fl s heap = .ok (v, h)) ∧
    (¬ IsText s → ∃ message, parse fl s heap = .error (.err message))

theorem parse_isText (hfl : ReadsFloats fl) (heap : Heap F) {s : Bytes} (hs : Measured s)
    (h : IsText s) : ∃ v h, parse fl s heap = .ok (v, h) := by
  obtain ⟨a, t, b, rfl, ha, ht, hb⟩ := h
  have hnumber (t : Bytes) (ht : Number t) : ∃ x, fl.parseF64 t = some x := hfl.number ht
  obtain ⟨m, hm, hread⟩ := reads_total hnumber ht
  cases m with
  | value j =>
    obtain ⟨v, h', hv, _⟩ := parse_accepts hs heap ha hread hb
    exact ⟨v, h', hv⟩
  | elements js => cases hm
  | members ms => cases hm

/-- What is accepted reads as the tree that the value unfolds to. -/
theorem parse_reads {heap h : Heap F} {s : Bytes} {v : Value F} (hs : Measured s)
    (hv : parse fl s heap = .ok (v, h)) :
    ∃ a t b j, s = a ++ (t ++ b) ∧ Ws a ∧ Reads fl t (.value j) ∧ Ws b ∧ Built heap h v j :=
  (parse_takes hs heap).result hv

theorem isText_of_parse {heap h : Heap F} {s : Bytes} {v : Value F} (hs : Measured s)
    (hv : parse fl s heap = .ok (v, h)) : IsText s := by
  obtain ⟨a, t, b, j, rfl, ha, hread, hb, _⟩ := parse_reads hs hv
  exact ⟨a, t, b, rfl, ha, hread.derives, hb⟩

/-- Of a text whose length has become negative the parser sees nothing. -/
theorem parse_long (heap : Heap F) {s : Bytes} (hlong : ¬ s.length < 2147483648)
    (hlen : s.length < 4294967296) : parse fl s heap = failed := by
  have hneg : len s < 0 := by
    unfold len wrap32
    split <;> omega
  have hskip : skipWs s 0 = .ok 0 := by
    have hturns : (len s).toNat - 0 = 0 := by omega
    rw [skipWs, hturns]
    rfl
  have hend : ((0 : ℕ) : ℤ) ≥ len s := Int.le_of_lt hneg
  rw [parse, bind_ok hskip, parseValue, valueStep, bind_ok hskip, if_pos hend]
  rfl

/-- A text is accepted where it is JSON and shorter than `2 ^ 31` bytes. -/
theorem parsesJson_iff_short (hfl : ReadsFloats fl) (heap : Heap F) (s : Bytes)
    (hlen : s.length < 4294967296) :
    ParsesJson fl heap s ↔ s.length < 2147483648 ∨ ¬ IsText s := by
  by_cases hs : s.length < 2147483648
  · refine iff_of_true ⟨parse_isText hfl heap hs, ?_⟩ (Or.inl hs)
    intro htext
    cases hparse : parse fl s heap with
    | ok out => exact absurd (isText_of_parse hs hparse) htext
    | error e =>
      obtain ⟨message, rfl⟩ := (parse_takes hs heap).raised hparse
      exact ⟨message, rfl⟩
  · have hparse : parse fl s heap = failed := parse_long heap hs hlen
    constructor
    · intro h
      refine Or.inr ?_
      intro htext
      obtain ⟨v, h', hv⟩ := h.1 htext
      rw [hparse] at hv
      cases hv
    · rintro (hshort | htext)
      · exact absurd hshort hs
      · exact ⟨fun h => absurd h htext, fun _ => ⟨_, hparse⟩⟩

open Classical in
/-- Numbers that stand for their own text. -/
noncomputable def textFloats : Floats Bytes where
  zero := [48]
  parseF64 := fun t => if FloatText t then some t else none
  formatF64 := id

theorem textFloats_reads : ReadsFloats textFloats := by
  intro t
  constructor
  · rintro ⟨x, hx⟩
    by_contra ht
    simp [textFloats, ht] at hx
  · intro ht
    exact ⟨t, if_pos ht⟩

theorem parsesJson_null :
    ReadsFloats textFloats ∧ nullLit.length < 4294967296 ∧
      (ParsesJson textFloats ⟨[], []⟩ nullLit ↔
        nullLit.length < 2147483648 ∨ ¬ IsText nullLit) :=
  ⟨textFloats_reads, by decide,
    parsesJson_iff_short textFloats_reads ⟨[], []⟩ nullLit (by decide)⟩

/-- `null` behind `2 ^ 31` spaces is JSON, and `parse` raises its error on it. -/
theorem padded_null_refused :
    ¬ ParsesJson textFloats ⟨[], []⟩ (List.replicate 2147483648 32 ++ nullLit) := by
  intro h
  have hspaces : Ws (List.replicate 2147483648 32) := by
    intro b hb
    exact Or.inl (List.eq_of_mem_replicate hb)
  have htext : IsText (List.replicate 2147483648 32 ++ nullLit) :=
    ⟨_, nullLit, [], by rw [List.append_nil], hspaces, .null, Ws.nil⟩
  have hlength : (List.replicate 2147483648 (32 : UInt8) ++ nullLit).length = 2147483652 := by
    rw [List.length_append, List.length_replicate]
    rfl
  obtain ⟨v, h', hv⟩ := h.1 htext
  rw [parse_long _ (by rw [hlength]; decide) (by rw [hlength]; decide)] at hv
  cases hv

end Acceptance

end NewClLang.JsonAcceptance
