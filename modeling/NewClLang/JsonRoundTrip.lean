import NewClLang.JsonAcceptance
import NewClLang.JsonApi
import NewClLang.JsonPrinting

set_option autoImplicit false

/-!
# Printing a value and parsing it again

A value with finite numbers comes back as it was exactly where its compact text is shorter than
`2 ^ 31` bytes.
-/
namespace NewClLang.JsonRoundTrip
open JsonGrammar JsonModule JsonTrees JsonScanning JsonBuilding JsonReading JsonAcceptance
  JsonShapes JsonPrinting JsonApi Reachability

section RoundTrip
variable {F : Type} {fl : Floats F} {N : F → Prop} {h : Heap F} {v : Value F} {j : Json F}

/-- `stringify` ends and `parse` reads its text as a value that unfolds to the same tree. -/
def RoundTrips (fl : Floats F) (h : Heap F) (v : Value F) (j : Json F) : Prop :=
  ∃ depth text v' h', stringify fl h depth v = some text ∧ parse fl text h = .ok (v', h') ∧
    Unfolds .full 0 0 h' (.value v') (.value j)

/-- Two depths that are both enough print the same. -/
theorem stringify_unique {d d' : ℕ} {text text' : Bytes} (hs : Sound h) (hv : WellFormed v)
    (htext : stringify fl h d v = some text) (htext' : stringify fl h d' v = some text') :
    text = text' := by
  obtain ⟨j, hj, rfl⟩ := unfolds_stringify hs hv htext
  obtain ⟨j', hj', rfl⟩ := unfolds_stringify hs hv htext'
  cases hj.unique hj'
  rfl

theorem stringify_render (fl : Floats F) {m : ℕ}
    (hj : Unfolds .counted m m h (.value v) (.value j)) :
    ∃ depth, stringify fl h depth v = some (render fl j) := by
  obtain ⟨d, hd⟩ := stringify_unfolds fl hj
  exact ⟨d, hd d (Nat.le_refl d)⟩

theorem roundTrips_of_short (hfl : PrintsFinite fl N) (hs : Sound h)
    (hj : Unfolds .full 0 0 h (.value v) (.value j)) (hfinite : Every (numberShape N) (.value j))
    (hlen : (render fl j).length < 2147483648) : RoundTrips fl h v j := by
  have hcounted := (compact_counted hfl.ne_nil hfinite hlen).1
  obtain ⟨depth, htext⟩ := stringify_render fl (unfolds_counted hj hcounted)
  have hshape : Every (printableShape N) (.value j) := (hfinite.and hcounted).and (unfolds_keys hs hj)
  have hread : Reads fl (render fl j) (.value j) := reads_compact hfl hshape Nat.one_ne_zero
  have hmeasured : Measured ([] ++ (render fl j ++ [])) := by
    rw [List.nil_append, List.append_nil]
    exact hlen
  obtain ⟨v', h', hparse, hbuilt⟩ := parse_accepts hmeasured h Ws.nil hread Ws.nil
  rw [List.nil_append, List.append_nil] at hparse
  exact ⟨depth, render fl j, v', h', htext, hparse,
    hbuilt.unfolds.weaken (Nat.zero_le _) (Nat.zero_le _)⟩

/-- What comes back was read from a text that `len` counts in full, so it is the text of the whole
    tree. -/
theorem short_of_roundTrips (hs : Sound h) (hv : WellFormed v)
    (hj : Unfolds .full 0 0 h (.value v) (.value j))
    (hlen : ∀ depth text, stringify fl h depth v = some text → text.length < 4294967296)
    (hround : RoundTrips fl h v j) : (render fl j).length < 2147483648 := by
  obtain ⟨depth, text, v', h', htext, hparse, hj'⟩ := hround
  by_cases hmeasured : text.length < 2147483648
  · obtain ⟨a, t, b, j', hsplit, ha, hread, hb, hbuilt⟩ := parse_reads hmeasured hparse
    cases hj'.unique (hbuilt.unfolds.weaken (Nat.zero_le _) (Nat.zero_le _))
    have ht : Measured t := by
      unfold Measured
      rw [hsplit, List.length_append, List.length_append] at hmeasured
      omega
    have hcounted := unfolds_counted hj (reads_counted hread ht).1
    obtain ⟨depth', hrender⟩ := stringify_render fl hcounted
    rw [← stringify_unique hs hv htext hrender]
    exact hmeasured
  · rw [parse_long h hmeasured (hlen depth text htext)] at hparse
    cases hparse

/-- Every value a client can come to hold that has finite numbers makes the round trip where its
    compact text is shorter than `2 ^ 31` bytes, and nowhere else. -/
theorem roundTrips_iff_short (hfl : PrintsFinite fl N) {c : Client F} (hc : Obtained fl c)
    {v : Value F} (hv : v ∈ c.values) {j : Json F}
    (hj : Unfolds .full 0 0 c.heap (.value v) (.value j))
    (hfinite : Every (numberShape N) (.value j))
    (hlen : ∀ depth text, stringify fl c.heap depth v = some text → text.length < 4294967296) :
    RoundTrips fl c.heap v j ↔ (render fl j).length < 2147483648 := by
  obtain ⟨hs, hwell⟩ := obtained_good hc
  exact ⟨short_of_roundTrips hs (hwell v hv) hj hlen, roundTrips_of_short hfl hs hj hfinite⟩

/-- The numbers that print as JSON. -/
def Printable (t : Bytes) : Prop := Number t

theorem textFloats_prints : PrintsFinite textFloats Printable where
  number := fun _ hx => hx
  readsBack := by
    intro x hx
    exact if_pos (JsonNumbers.number_floatText hx)

theorem obtained_string (s : Bytes) :
    Obtained textFloats ⟨⟨[], []⟩, [string textFloats s]⟩ :=
  (reachable_root (Set.mem_singleton _)).step (.string s)

theorem stringify_string {depth : ℕ} {s text : Bytes}
    (htext : stringify fl h depth (string fl s) = some text) : text = quoted (counted s) := by
  cases depth with
  | zero => cases htext
  | succ depth =>
    have hquote : stringify fl h (depth + 1) (string fl s) = some (quote s) := rfl
    rw [← quote_quoted]
    exact Option.some.inj (htext.symm.trans hquote)

/-- A string with an `a` and a line break. -/
theorem roundTrips_line :
    RoundTrips textFloats ⟨[], []⟩ (string textFloats [97, 10]) (.string [97, 10]) ↔
      (render textFloats (.string [97, 10])).length < 2147483648 := by
  refine roundTrips_iff_short textFloats_prints (obtained_string [97, 10]) List.mem_cons_self
    (.string rfl) (.string trivial) ?_
  intro depth text htext
  rw [stringify_string htext]
  decide

/-- A string of `2 ^ 31` bytes comes back empty. -/
theorem long_string_lost :
    Obtained textFloats ⟨⟨[], []⟩, [string textFloats (List.replicate 2147483648 97)]⟩ ∧
      ¬ RoundTrips textFloats ⟨[], []⟩ (string textFloats (List.replicate 2147483648 97))
        (.string (List.replicate 2147483648 97)) := by
  refine ⟨obtained_string _, ?_⟩
  intro hround
  have hobtained := obtained_good (obtained_string (List.replicate 2147483648 97))
  have hempty : counted (List.replicate 2147483648 (97 : UInt8)) = [] := by
    rw [counted, len, List.length_replicate]
    exact List.take_zero
  have hshort := short_of_roundTrips hobtained.1 (hobtained.2 _ List.mem_cons_self) (.string rfl)
    (by
      intro depth text htext
      rw [stringify_string htext, hempty]
      decide) hround
  have hquoted := quoted_length (List.replicate 2147483648 97)
  rw [List.length_replicate] at hquoted
  change (quoted (List.replicate 2147483648 97)).length < 2147483648 at hshort
  omega

end RoundTrip

end NewClLang.JsonRoundTrip
