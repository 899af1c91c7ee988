import NewClLang.JsonGrammar

set_option autoImplicit false

/-!
# Letters outside strings

Outside its strings a JSON text has no `i`, and no `a` right behind an `n`. A scanner that follows the
quotes of a text stops at the first of these.
-/
namespace NewClLang.JsonLetters
open JsonGrammar

section Letters

/-- Where the scanner is: outside a string, behind the byte `last`, inside one, or behind a
    backslash. -/
inductive Mode where
  | outside (last : UInt8)
  | inside
  | escape

def scanByte : Mode → UInt8 → Option Mode
  | .outside last, b =>
    if b = 34 then some .inside
    else if b = 105 ∨ (b = 97 ∧ last = 110) then none
    else some (.outside b)
  | .inside, b =>
    if b = 34 then some (.outside 34) else if b = 92 then some .escape else some .inside
  | .escape, _ => some .inside

def scan : Mode → List UInt8 → Option Mode
  | mode, [] => some mode
  | mode, b :: t => (scanByte mode b).bind (fun next => scan next t)

theorem scan_append (mode : Mode) (s t : List UInt8) :
    scan mode (s ++ t) = (scan mode s).bind (fun next => scan next t) := by
  induction s generalizing mode with
  | nil => rfl
  | cons b s ih =>
    rw [List.cons_append, scan, scan]
    cases scanByte mode b with
    | none => rfl
    | some next => exact ih next

theorem scan_front {mode mode' : Mode} {s t : List UInt8} (h : scan mode (s ++ t) = some mode') :
    ∃ mid, scan mode s = some mid ∧ scan mid t = some mode' := by
  rw [scan_append] at h
  exact Option.bind_eq_some_iff.mp h

/-- The scanner comes through the text, from outside a string to outside a string. -/
def Passes (t : List UInt8) : Prop :=
  ∀ last, ∃ last', scan (.outside last) t = some (.outside last')

theorem Passes.nil : Passes [] := fun last => ⟨last, rfl⟩

theorem Passes.append {s t : List UInt8} (hs : Passes s) (ht : Passes t) : Passes (s ++ t) := by
  intro last
  obtain ⟨mid, hs⟩ := hs last
  obtain ⟨last', ht⟩ := ht mid
  exact ⟨last', by rw [scan_append, hs]; exact ht⟩

/-- Behind a text it comes through the scanner goes on outside of strings. -/
theorem Passes.rest {last : UInt8} {mode : Mode} {s t : List UInt8} (hs : Passes s)
    (h : scan (.outside last) (s ++ t) = some mode) :
    ∃ last', scan (.outside last') t = some mode := by
  obtain ⟨mid, hmid, ht⟩ := scan_front h
  obtain ⟨last', hlast⟩ := hs last
  rw [hlast] at hmid
  cases hmid
  exact ⟨last', ht⟩

theorem passes_plain {t : List UInt8} (h : ∀ b ∈ t, b ≠ 34 ∧ b ≠ 105 ∧ b ≠ 97) : Passes t := by
  induction t with
  | nil => exact Passes.nil
  | cons b t ih =>
    intro last
    obtain ⟨hquote, hi, ha⟩ := h b List.mem_cons_self
    have hstep : scanByte (.outside last) b = some (.outside b) := by
      rw [scanByte, if_neg hquote, if_neg]
      rintro (hb | ⟨hb, _⟩)
      · exact hi hb
      · exact ha hb
    obtain ⟨last', hrest⟩ := ih (fun c hc => h c (List.mem_cons_of_mem b hc)) b
    exact ⟨last', by rw [scan, hstep]; exact hrest⟩

theorem passes_digits {t : List UInt8} (h : ∀ b ∈ t, Digit b) : Passes t := by
  refine passes_plain ?_
  intro b hb
  have hdigit := h b hb
  refine ⟨?_, ?_, ?_⟩ <;>
  · rintro rfl
    exact absurd hdigit (by decide)

theorem passes_ws {t : List UInt8} (h : Ws t) : Passes t := by
  refine passes_plain ?_
  intro b hb
  rcases h b hb with rfl | rfl | rfl | rfl <;> decide

theorem passes_byte {b : UInt8} (h : b ≠ 34 ∧ b ≠ 105 ∧ b ≠ 97) : Passes [b] := by
  refine passes_plain ?_
  intro c hc
  cases List.mem_singleton.mp hc
  exact h

theorem passes_number {t : List UInt8} (h : Number t) : Passes t := by
  obtain ⟨minus, int, frac, exp, rfl, hminus, hint, hfrac, hexp⟩ := h
  have hminus : Passes minus := by
    rcases hminus with rfl | rfl
    · exact Passes.nil
    · exact passes_byte (by decide)
  have hint : Passes int := by
    rcases hint with rfl | ⟨b, rest, rfl, hb, hrest⟩
    · exact passes_byte (by decide)
    · refine passes_digits ?_
      intro c hc
      rcases List.mem_cons.mp hc with rfl | hc
      · exact hb.digit
      · exact hrest c hc
  have hfrac : Passes frac := by
    rcases hfrac with rfl | ⟨ds, rfl, hds⟩
    · exact Passes.nil
    · exact (passes_byte (b := 46) (by decide)).append (passes_digits hds.2)
  have hexp : Passes exp := by
    rcases hexp with rfl | ⟨e, sign, ds, rfl, he, hsign, hds⟩
    · exact Passes.nil
    · have hmark : Passes [e] := by
        rcases he with rfl | rfl <;> exact passes_byte (by decide)
      have hsign : Passes sign := by
        rcases hsign with rfl | rfl | rfl
        · exact Passes.nil
        · exact passes_byte (by decide)
        · exact passes_byte (by decide)
      exact hmark.append (hsign.append (passes_digits hds.2))
  exact hminus.append (hint.append (hfrac.append hexp))

theorem escape_inside {e : List UInt8} (h : Escape e) (t : List UInt8) :
    scan .escape (e ++ t) = scan .inside t := by
  cases h with
  | short => rfl
  | @unicode a b c d ha hb hc hd =>
    have hdigit (x : UInt8) (rest : List UInt8) (hx : HexDigit x) :
        scan .inside (x :: rest) = scan .inside rest := by
      have hquote : x ≠ 34 := by
        rintro rfl
        exact absurd hx (by decide)
      have hback : x ≠ 92 := by
        rintro rfl
        exact absurd hx (by decide)
      rw [scan, scanByte, if_neg hquote, if_neg hback]
      rfl
    change scan .inside (a :: b :: c :: d :: t) = _
    rw [hdigit a _ ha, hdigit b _ hb, hdigit c _ hc, hdigit d _ hd]

theorem chars_inside {k : List UInt8} (h : Chars k) : scan .inside k = some .inside := by
  induction h with
  | nil => rfl
  | unescaped _ hquote hback _ ih => rw [scan, scanByte, if_neg hquote, if_neg hback]; exact ih
  | escaped he _ ih =>
    change scan .escape _ = _
    rw [escape_inside he, ih]

theorem passes_string {k : List UInt8} (h : Chars k) : Passes (34 :: (k ++ [34])) := by
  intro last
  refine ⟨34, ?_⟩
  change scan .inside (k ++ [34]) = _
  rw [scan_append, chars_inside h]
  rfl

/-- The scanner comes through every value, and through elements and members. -/
theorem derives_passes {p : Production} {t : List UInt8} (h : Derives p t) : Passes t := by
  have hbyte (b : UInt8) (hb : b ≠ 34 ∧ b ≠ 105 ∧ b ≠ 97) : Passes [b] := passes_byte hb
  induction h with
  | null => exact passes_plain (by simp)
  | true => exact passes_plain (by simp)
  | false => exact fun last => ⟨101, rfl⟩
  | number h => exact passes_number h
  | string h => exact passes_string h
  | emptyArray hw =>
    exact (hbyte 91 (by decide)).append ((passes_ws hw).append (hbyte 93 (by decide)))
  | array _ ih => exact (hbyte 91 (by decide)).append (ih.append (hbyte 93 (by decide)))
  | emptyObject hw =>
    exact (hbyte 123 (by decide)).append ((passes_ws hw).append (hbyte 125 (by decide)))
  | object _ ih => exact (hbyte 123 (by decide)).append (ih.append (hbyte 125 (by decide)))
  | lastElement ha _ hb ih => exact (passes_ws ha).append (ih.append (passes_ws hb))
  | element ha _ hb _ ih ihrest =>
    exact (passes_ws ha).append (ih.append ((passes_ws hb).append
      ((hbyte 44 (by decide)).append ihrest)))
  | @lastMember a k b c t d ha hk hb hc _ hd ih =>
    have htail := (passes_ws hb).append
      ((hbyte 58 (by decide)).append ((passes_ws hc).append (ih.append (passes_ws hd))))
    have htext := (passes_ws ha).append ((passes_string hk).append htail)
    simpa using htext
  | @member a k b c t d rest ha hk hb hc _ hd _ ih ihrest =>
    have htail := (passes_ws hb).append
      ((hbyte 58 (by decide)).append ((passes_ws hc).append (ih.append ((passes_ws hd).append
        ((hbyte 44 (by decide)).append ihrest)))))
    have htext := (passes_ws ha).append ((passes_string hk).append htail)
    simpa using htext

theorem isText_passes {t : List UInt8} (h : IsText t) : Passes t := by
  obtain ⟨a, v, b, rfl, ha, hv, hb⟩ := h
  exact (passes_ws ha).append ((derives_passes hv).append (passes_ws hb))

end Letters

end NewClLang.JsonLetters
