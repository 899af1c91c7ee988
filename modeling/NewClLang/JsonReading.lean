import NewClLang.JsonBuilding
import NewClLang.JsonNumbers

set_option autoImplicit false

/-!
# What the parser reads

The recursive functions of the parser take a value of the grammar off the text, build the tree it
means and raise their error elsewhere. Each takes its recursive call as an argument, and the nesting
of a text is less than its length.
-/
namespace NewClLang.JsonReading
open WrappedIntegers ExceptOutcomes JsonGrammar JsonModule JsonTrees JsonScanning JsonNumbers
  JsonBuilding

section Texts
variable {F : Type} {fl : Floats F}

theorem elements_ws {w t : Bytes} {js : List (Json F)} (hw : Ws w)
    (h : Reads fl t (.elements js)) : Reads fl (w ++ t) (.elements js) := by
  cases h with
  | lastElement ha h hb =>
    rw [← List.append_assoc]
    exact .lastElement (hw.append ha) h hb
  | element ha h hb hrest =>
    rw [← List.append_assoc]
    exact .element (hw.append ha) h hb hrest

theorem members_ws {w t : Bytes} {ms : List (Bytes × Json F)} (hw : Ws w)
    (h : Reads fl t (.members ms)) : Reads fl (w ++ t) (.members ms) := by
  cases h with
  | lastMember ha hk hb hc h hd =>
    rw [← List.append_assoc]
    exact .lastMember (hw.append ha) hk hb hc h hd
  | member ha hk hb hc h hd hrest =>
    rw [← List.append_assoc]
    exact .member (hw.append ha) hk hb hc h hd hrest

/-- A number starts with a minus or a digit. -/
theorem number_head {t : Bytes} (h : Number t) :
    ∃ b rest, t = b :: rest ∧ (b = 45 ∨ isDigit b = true) := by
  obtain ⟨minus, int, frac, exp, rfl, hminus, hint, _, _⟩ := h
  rcases hminus with rfl | rfl
  · obtain ⟨hne, hdigits⟩ := IntPart.digits hint
    cases int with
    | nil => exact absurd rfl hne
    | cons b rest =>
      exact ⟨b, rest ++ (frac ++ exp), rfl, Or.inr (isDigit_iff.mpr (hdigits b List.mem_cons_self))⟩
  · exact ⟨45, int ++ (frac ++ exp), rfl, Or.inl rfl⟩

theorem digit_ne {b c : UInt8} (hb : b = 45 ∨ isDigit b = true)
    (hc : ¬ (c = 45 ∨ isDigit c = true)) : b ≠ c := by
  rintro rfl
  exact hc hb

/-- A value starts with a byte that is neither whitespace nor a bracket that closes. -/
theorem value_head {t : Bytes} {j : Json F} (h : Reads fl t (.value j)) :
    ∃ b rest, t = b :: rest ∧ isSpace b = false ∧ b ≠ 93 ∧ b ≠ 125 := by
  cases h with
  | null | true | false => exact ⟨_, _, rfl, by decide⟩
  | string | emptyArray | array | emptyObject | object => exact ⟨_, _, rfl, by decide⟩
  | number hnumber =>
    obtain ⟨b, rest, rfl, hb⟩ := number_head hnumber
    refine ⟨b, rest, rfl, ?_, digit_ne hb (by decide), digit_ne hb (by decide)⟩
    have hspace : ∀ c : UInt8, Space c → ¬ (c = 45 ∨ isDigit c = true) := by
      rintro c (rfl | rfl | rfl | rfl) <;> decide
    cases hs : isSpace b with
    | false => rfl
    | true => exact absurd hb (hspace b (isSpace_iff.mp hs))

theorem value_starts {t r : Bytes} {j : Json F} (h : Reads fl t (.value j)) :
    startsWith isSpace (t ++ r) = false := by
  obtain ⟨b, rest, rfl, hb, _⟩ := value_head h
  exact hb

end Texts

section Takes
variable {F : Type} {fl : Floats F} {s r : Bytes} {value : ValueParser F} {n : ℕ}

/-- On texts shorter than `n` a value parser takes whitespace and a value and builds its tree. -/
def Takes (fl : Floats F) (s : Bytes) (value : ValueParser F) (n : ℕ) : Prop :=
  ∀ (p : Cursor F) (r : Bytes), At s p.i r → r.length < n →
    Ends IsErr (fun out => ∃ a t rest j, r = a ++ (t ++ rest) ∧ Ws a ∧ Reads fl t (.value j) ∧
      At s out.2.i rest ∧ Built p.heap out.2.heap out.1 j) (value p)

theorem elementsLoop_takes (hs : Measured s) (hvalue : Takes fl s value n) {out : Value F}
    {h₀ : Heap F} {js : List (Json F)} {turns : ℕ} {p : Cursor F} (h : At s p.i r)
    (hn : r.length < n) (hturns : r.length < turns) (hout : ArraySoFar h₀ p.heap out js) :
    Ends IsErr (fun got => ∃ t rest js', r = t ++ 93 :: rest ∧ Reads fl t (.elements js') ∧
      got.1 = out ∧ At s got.2.i rest ∧ ArraySoFar h₀ got.2.heap out (js ++ js'))
      (elementsLoop s value out turns p) := by
  induction turns generalizing p r js with
  | zero => omega
  | succ turns ih =>
    refine (hvalue p r h hn).bind ?_
    rintro ⟨v, p₁⟩ ⟨a, t, rest, j, rfl, ha, hread, hat, hbuilt⟩
    obtain ⟨heap, happend, hout'⟩ := hout.append hbuilt
    obtain ⟨w, rest', rfl, hw, _, hskip, hat'⟩ := skipWs_takes hs hat
    dsimp only
    rw [bind_ok happend, bind_ok hskip]
    rcases consume_cases (b := 93) hs hat' with ⟨tail, rfl, htail, heq⟩ | ⟨_, heq⟩
    · rw [bind_ok heq]
      refine .ok ⟨a ++ (t ++ w), tail, [j], by simp, .lastElement ha hread hw, rfl, htail, hout'⟩
    · rw [bind_ok heq]
      dsimp only
      rw [if_neg Bool.false_ne_true]
      rcases consume_cases (b := 44) hs hat' with ⟨tail, rfl, htail, hcomma⟩ | ⟨_, hcomma⟩
      · rw [bind_ok hcomma]
        simp only [List.length_append, List.length_cons] at hn hturns
        refine (ih htail (by omega) (by omega) hout').mono ?_
        rintro ⟨got, p₂⟩ ⟨t', rest'', js', rfl, hread', hgot, hat'', hdone⟩
        refine ⟨a ++ (t ++ (w ++ 44 :: t')), rest'', j :: js', by simp,
          .element ha hread hw hread', hgot, hat'', ?_⟩
        rw [List.append_assoc] at hdone
        exact hdone
      · rw [bind_ok hcomma]
        exact failed_ends

theorem parseArray_takes (hs : Measured s) (hvalue : Takes fl s value n) {p : Cursor F}
    (h : At s p.i (91 :: r)) (hn : r.length < n) :
    Ends IsErr (fun got => ∃ t rest j, 91 :: r = t ++ rest ∧ Reads fl t (.value j) ∧
      At s got.2.i rest ∧ Built p.heap got.2.heap got.1 j) (parseArray fl s value p) := by
  obtain ⟨w, rest, rfl, hw, _, hskip, hat⟩ := skipWs_takes hs h.tail
  have hnew := arraySoFar_new fl p.heap
  unfold parseArray
  dsimp only
  rw [bind_ok hskip]
  rcases consume_cases (b := 93) hs hat with ⟨tail, rfl, htail, heq⟩ | ⟨_, heq⟩
  · rw [bind_ok heq]
    exact .ok ⟨91 :: (w ++ [93]), tail, .array [], by simp, .emptyArray hw, htail, hnew.built⟩
  · rw [bind_ok heq]
    dsimp only
    rw [if_neg Bool.false_ne_true]
    have hlength := hat.length
    rw [List.length_append] at hn
    refine (elementsLoop_takes hs hvalue hat (by omega) (by omega) hnew).mono ?_
    rintro ⟨got, p₁⟩ ⟨t, rest', js, rfl, hread, hgot, hat', hdone⟩
    cases hgot
    exact ⟨91 :: (w ++ t ++ [93]), rest', .array js, by simp, .array (elements_ws hw hread), hat',
      hdone.built⟩

theorem membersLoop_takes (hs : Measured s) (hvalue : Takes fl s value n) {out : Value F}
    {h₀ : Heap F} {ms : List (Bytes × Json F)} {turns : ℕ} {p : Cursor F} (h : At s p.i r)
    (hn : r.length < n) (hturns : r.length < turns) (hout : ObjectSoFar h₀ p.heap out ms) :
    Ends IsErr (fun got => ∃ t rest ms', r = t ++ 125 :: rest ∧ Reads fl t (.members ms') ∧
      got.1 = out ∧ At s got.2.i rest ∧ ObjectSoFar h₀ got.2.heap out
        (ms'.foldl (fun entries m => setEntry entries m.1 m.2) ms))
      (membersLoop s value out turns p) := by
  induction turns generalizing p r ms with
  | zero => omega
  | succ turns ih =>
    obtain ⟨a, rest, rfl, ha, _, hskip, hat⟩ := skipWs_takes hs h
    rw [membersLoop, bind_ok hskip]
    cases hquote : startsWith (fun b => b == 34) rest with
    | false =>
      have hpeek : peek s 34 (p.i + a.length) = .ok false := (isAt_eq hs hat).trans (by rw [hquote])
      rw [bind_ok hpeek]
      exact failed_ends
    | true =>
      have hpeek : peek s 34 (p.i + a.length) = .ok true := (isAt_eq hs hat).trans (by rw [hquote])
      rw [bind_ok hpeek, if_pos rfl]
      refine (parseString_takes hat).bind ?_
      rintro ⟨key, i₁⟩ ⟨k, rest₁, rfl, hk, hat₁⟩
      obtain ⟨b, rest₂, rfl, hb, _, hskip₁, hat₂⟩ := skipWs_takes hs hat₁
      dsimp only
      rw [bind_ok hskip₁]
      rcases consume_cases (b := 58) hs hat₂ with ⟨rest₃, rfl, hat₃, heq⟩ | ⟨_, heq⟩
      · rw [bind_ok heq]
        dsimp only
        rw [if_pos rfl]
        simp only [List.length_append, List.length_cons] at hn hturns
        refine (hvalue ⟨_, p.heap⟩ rest₃ hat₃ (by omega)).bind ?_
        rintro ⟨v, p₁⟩ ⟨c, t, rest₄, j, rfl, hc, hread, hat₄, hbuilt⟩
        obtain ⟨heap, hset, hout'⟩ := hout.set key hbuilt
        obtain ⟨d, rest₅, rfl, hd, _, hskip₂, hat₅⟩ := skipWs_takes hs hat₄
        dsimp only
        rw [bind_ok hset, bind_ok hskip₂]
        rcases consume_cases (b := 125) hs hat₅ with ⟨tail, rfl, htail, hclose⟩ | ⟨_, hclose⟩
        · rw [bind_ok hclose]
          refine .ok ⟨a ++ (34 :: (k ++ 34 :: (b ++ 58 :: (c ++ (t ++ d))))), tail, [(key, j)],
            by simp, .lastMember ha hk hb hc hread hd, rfl, htail, ?_⟩
          rw [List.foldl_cons, List.foldl_nil]
          exact hout'
        · rw [bind_ok hclose]
          dsimp only
          rw [if_neg Bool.false_ne_true]
          rcases consume_cases (b := 44) hs hat₅ with ⟨tail, rfl, htail, hcomma⟩ | ⟨_, hcomma⟩
          · rw [bind_ok hcomma]
            simp only [List.length_append, List.length_cons] at hn hturns
            refine (ih htail (by omega) (by omega) hout').mono ?_
            rintro ⟨got, p₂⟩ ⟨t', rest', ms', rfl, hread', hgot, hat', hdone⟩
            refine ⟨a ++ (34 :: (k ++ 34 :: (b ++ 58 :: (c ++ (t ++ (d ++ 44 :: t')))))), rest',
              (key, j) :: ms', by simp, .member ha hk hb hc hread hd hread', hgot, hat', ?_⟩
            rw [List.foldl_cons]
            exact hdone
          · rw [bind_ok hcomma]
            exact failed_ends
      · rw [bind_ok heq]
        exact failed_ends

theorem parseObject_takes (hs : Measured s) (hvalue : Takes fl s value n) {p : Cursor F}
    (h : At s p.i (123 :: r)) (hn : r.length < n) :
    Ends IsErr (fun got => ∃ t rest j, 123 :: r = t ++ rest ∧ Reads fl t (.value j) ∧
      At s got.2.i rest ∧ Built p.heap got.2.heap got.1 j) (parseObject fl s value p) := by
  obtain ⟨w, rest, rfl, hw, _, hskip, hat⟩ := skipWs_takes hs h.tail
  have hnew := objectSoFar_new fl p.heap
  unfold parseObject
  dsimp only
  rw [bind_ok hskip]
  rcases consume_cases (b := 125) hs hat with ⟨tail, rfl, htail, heq⟩ | ⟨_, heq⟩
  · rw [bind_ok heq]
    exact .ok ⟨123 :: (w ++ [125]), tail, .object [], by simp, .emptyObject hw, htail, hnew.built⟩
  · rw [bind_ok heq]
    dsimp only
    rw [if_neg Bool.false_ne_true]
    have hlength := hat.length
    rw [List.length_append] at hn
    refine (membersLoop_takes hs hvalue hat (by omega) (by omega) hnew).mono ?_
    rintro ⟨got, p₁⟩ ⟨t, rest', ms, rfl, hread, hgot, hat', hdone⟩
    cases hgot
    exact ⟨123 :: (w ++ t ++ [125]), rest', .object (setAll ms), by simp,
      .object (members_ws hw hread), hat', hdone.built⟩

theorem built_plain {h : Heap F} {v : Value F} {j : Json F}
    (hu : ∀ na no, Unfolds .full na no h (.value v) (.value j)) : Built h h v j :=
  ⟨.refl 0 0 h, hu _ _⟩

theorem literal_takes (hs : Measured s) (lit : Bytes) {v : Value F} {j : Json F} {h : Heap F} {i : ℕ}
    (hat : At s i r) (hread : Reads fl lit (.value j))
    (hu : ∀ na no, Unfolds .full na no h (.value v) (.value j)) :
    Ends IsErr (fun got : Value F × Cursor F => ∃ t rest j, r = t ++ rest ∧
      Reads fl t (.value j) ∧ At s got.2.i rest ∧ Built h got.2.heap got.1 j)
      (do let i ← expectLit s lit i; .ok (v, ⟨i, h⟩)) := by
  refine (expectLoop_takes hs lit hat).bind ?_
  rintro i' ⟨rest, rfl, hrest⟩
  exact .ok ⟨lit, rest, j, rfl, hread, hrest, built_plain hu⟩

theorem valueStep_takes (hs : Measured s) (hvalue : Takes fl s value n) :
    Takes fl s (valueStep fl s value) (n + 1) := by
  intro p r h hn
  obtain ⟨a, rest, rfl, ha, _, hskip, hat⟩ := skipWs_takes hs h
  -- the whitespace is taken; what follows is one of the branches of `_parse_value`
  suffices hafter : Ends IsErr (fun got : Value F × Cursor F => ∃ t rest' j, rest = t ++ rest' ∧
      Reads fl t (.value j) ∧ At s got.2.i rest' ∧ Built p.heap got.2.heap got.1 j)
      (valueStep fl s value p) by
    refine hafter.mono ?_
    rintro got ⟨t, rest', j, rfl, hread, hat', hbuilt⟩
    exact ⟨a, t, rest', j, rfl, ha, hread, hat', hbuilt⟩
  have hlt := hat.lt_len hs
  rw [valueStep, bind_ok hskip]
  cases rest with
  | nil =>
    rw [if_pos (Int.not_lt.mp (fun hi => hlt.mp hi rfl))]
    exact failed_ends
  | cons b rest =>
    have hn' : rest.length < n := by
      simp only [List.length_append, List.length_cons] at hn
      omega
    rw [if_neg (Int.not_le.mpr (hlt.mpr (List.cons_ne_nil b rest))), bind_ok (byteAt_head hat)]
    by_cases hnull : b = 110
    · rw [if_pos hnull]
      exact literal_takes hs nullLit hat .null (fun _ _ => .null rfl)
    rw [if_neg hnull]
    by_cases htrue : b = 116
    · rw [if_pos htrue]
      exact literal_takes hs trueLit hat .true (fun _ _ => .bool (v := boolValue fl true) rfl)
    rw [if_neg htrue]
    by_cases hfalse : b = 102
    · rw [if_pos hfalse]
      exact literal_takes hs falseLit hat .false (fun _ _ => .bool (v := boolValue fl false) rfl)
    rw [if_neg hfalse]
    by_cases hstring : b = 34
    · rw [if_pos hstring]
      refine (parseString_takes hat).bind ?_
      rintro ⟨text, i⟩ ⟨t, rest', heq, htext, hat'⟩
      exact .ok ⟨34 :: (t ++ [34]), rest', .string text, by rw [heq]; simp, .string htext, hat',
        built_plain (fun _ _ => .string (v := string fl text) rfl)⟩
    rw [if_neg hstring]
    by_cases harray : b = 91
    · rw [if_pos harray]
      cases harray
      exact parseArray_takes hs hvalue (p := ⟨_, p.heap⟩) hat hn'
    rw [if_neg harray]
    by_cases hobject : b = 123
    · rw [if_pos hobject]
      cases hobject
      exact parseObject_takes hs hvalue (p := ⟨_, p.heap⟩) hat hn'
    rw [if_neg hobject]
    by_cases hnumber : b = 45 ∨ isDigit b = true
    · rw [if_pos hnumber]
      refine (parseNumber_takes hs hat).bind ?_
      rintro ⟨x, i⟩ ⟨t, rest', heq, ht, hx, hat'⟩
      exact .ok ⟨t, rest', .number x, heq, .number ht hx, hat',
        built_plain (fun _ _ => .number (v := number x) rfl)⟩
    · rw [if_neg hnumber]
      exact failed_ends

theorem parseValue_takes (hs : Measured s) (depth : ℕ) :
    Takes fl s (parseValue fl s depth) depth := by
  induction depth with
  | zero =>
    intro p r _ hn
    omega
  | succ depth ih => exact valueStep_takes hs ih

theorem parse_takes (hs : Measured s) (heap : Heap F) :
    Ends IsErr (fun got => ∃ a t b j, s = a ++ (t ++ b) ∧ Ws a ∧ Reads fl t (.value j) ∧ Ws b ∧
      Built heap got.2 got.1 j) (parse fl s heap) := by
  obtain ⟨a, rest, hsplit, ha, _, hskip, hat⟩ := skipWs_takes hs (at_zero s)
  rw [parse, bind_ok hskip]
  have hlength := hat.length
  refine (parseValue_takes hs (s.length + 1) ⟨_, heap⟩ rest hat (by omega)).bind ?_
  rintro ⟨v, p⟩ ⟨a', t, rest', j, rfl, ha', hread, hat', hbuilt⟩
  obtain ⟨b, rest'', rfl, hb, _, hskip', hat''⟩ := skipWs_takes hs hat'
  have hlt := hat''.lt_len hs
  have hinside := hat''.inside
  dsimp only
  rw [bind_ok hskip']
  cases rest'' with
  | nil =>
    have hend : ¬ ((p.i + b.length : ℕ) : ℤ) ≠ len s := by
      have hlength := hat''.length
      rw [hs.len, not_not]
      simp only [List.length_nil] at hlength
      omega
    rw [if_neg hend]
    refine .ok ⟨a ++ a', t, b, j, ?_, ha.append ha', hread, hb, hbuilt⟩
    rw [hsplit]
    simp
  | cons c rest'' =>
    have hmore := hlt.mpr (List.cons_ne_nil c rest'')
    rw [if_pos (Int.ne_of_lt hmore)]
    exact failed_ends

end Takes

section Accepts
variable {F : Type} {fl : Floats F} {s r : Bytes} {value : ValueParser F} {n : ℕ}

/-- On texts shorter than `n` a value parser succeeds wherever a value stands. -/
def Accepts (fl : Floats F) (s : Bytes) (value : ValueParser F) (n : ℕ) : Prop :=
  ∀ (p : Cursor F) (a t r : Bytes) (j : Json F), At s p.i (a ++ (t ++ r)) →
    (a ++ (t ++ r)).length < n → Ws a → Reads fl t (.value j) → Follow r →
    ∃ v h, value p = .ok (v, ⟨p.i + (a.length + t.length), h⟩) ∧ Built p.heap h v j

theorem elementsLoop_accepts (turns : ℕ) (hs : Measured s) (hvalue : Accepts fl s value n)
    {out : Value F} {h₀ : Heap F} {js js' : List (Json F)} {p : Cursor F} {t : Bytes}
    (h : At s p.i (t ++ 93 :: r)) (hn : (t ++ 93 :: r).length < n) (hturns : t.length < turns)
    (hread : Reads fl t (.elements js')) (hout : ArraySoFar h₀ p.heap out js) :
    ∃ h', elementsLoop s value out turns p = .ok (out, ⟨p.i + t.length + 1, h'⟩) ∧
      ArraySoFar h₀ h' out (js ++ js') := by
  induction turns generalizing p t js js' with
  | zero => omega
  | succ turns ih =>
    cases hread with
    | @lastElement a t b j ha hread hb =>
      have hassoc : a ++ (t ++ b) ++ 93 :: r = a ++ (t ++ (b ++ 93 :: r)) := by simp
      rw [hassoc] at h hn
      have hfollow : Follow (b ++ 93 :: r) := Follow.ws hb (Follow.cons (by decide))
      obtain ⟨v, h₁, hv, hbuilt⟩ := hvalue p a t _ j h hn ha hread hfollow
      obtain ⟨h₂, happend, hout'⟩ := hout.append hbuilt
      have hat := h.append.append
      rw [Nat.add_assoc] at hat
      refine ⟨h₂, ?_, hout'⟩
      rw [elementsLoop, bind_ok hv]
      dsimp only
      rw [bind_ok happend, bind_ok (skipWs_exact hs hat hb rfl),
        bind_ok (consume_here hs hat.append)]
      simp only [List.length_append, if_true]
      congr 3
      omega
    | @element a t b rest j items ha hread hb hrest =>
      have hassoc : a ++ (t ++ (b ++ 44 :: rest)) ++ 93 :: r =
          a ++ (t ++ (b ++ 44 :: (rest ++ 93 :: r))) := by simp
      rw [hassoc] at h hn
      have hfollow : Follow (b ++ 44 :: (rest ++ 93 :: r)) := Follow.ws hb (Follow.cons (by decide))
      obtain ⟨v, h₁, hv, hbuilt⟩ := hvalue p a t _ j h hn ha hread hfollow
      obtain ⟨h₂, happend, hout'⟩ := hout.append hbuilt
      have hat := h.append.append
      rw [Nat.add_assoc] at hat
      simp only [List.length_append, List.length_cons] at hn hturns
      have hrest_short : (rest ++ 93 :: r).length < n := by
        rw [List.length_append, List.length_cons]
        omega
      obtain ⟨h₃, hloop, hdone⟩ := ih (p := ⟨_, h₂⟩) hat.append.tail hrest_short (by omega) hrest hout'
      rw [List.append_assoc] at hdone
      refine ⟨h₃, ?_, hdone⟩
      rw [elementsLoop, bind_ok hv]
      dsimp only
      rw [bind_ok happend, bind_ok (skipWs_exact hs hat hb rfl),
        bind_ok (consume_other hs hat.append rfl)]
      dsimp only
      rw [if_neg Bool.false_ne_true, bind_ok (consume_here hs hat.append)]
      dsimp only
      rw [if_pos rfl, hloop]
      simp only [List.length_append, List.length_cons]
      congr 3
      omega

theorem membersLoop_accepts (turns : ℕ) (hs : Measured s) (hvalue : Accepts fl s value n)
    {out : Value F} {h₀ : Heap F} {ms ms' : List (Bytes × Json F)} {p : Cursor F} {t : Bytes}
    (h : At s p.i (t ++ 125 :: r)) (hn : (t ++ 125 :: r).length < n) (hturns : t.length < turns)
    (hread : Reads fl t (.members ms')) (hout : ObjectSoFar h₀ p.heap out ms) :
    ∃ h', membersLoop s value out turns p = .ok (out, ⟨p.i + t.length + 1, h'⟩) ∧
      ObjectSoFar h₀ h' out (ms'.foldl (fun entries m => setEntry entries m.1 m.2) ms) := by
  induction turns generalizing p t ms ms' with
  | zero => omega
  | succ turns ih =>
    cases hread with
    | @lastMember a k b c t d key j ha hk hb hc hread hd =>
      have hassoc : a ++ (34 :: (k ++ 34 :: (b ++ 58 :: (c ++ (t ++ d))))) ++ 125 :: r =
          a ++ (34 :: (k ++ 34 :: (b ++ 58 :: (c ++ (t ++ (d ++ 125 :: r)))))) := by simp
      rw [hassoc] at h hn
      have hquote := h.append
      have hkey := parseString_exact hs hk hquote
      have hcolon := hquote.tail.append.tail
      have hitem := hcolon.append.tail
      have hfollow : Follow (d ++ 125 :: r) := Follow.ws hd (Follow.cons (by decide))
      have hshort : (c ++ (t ++ (d ++ 125 :: r))).length < n := by
        simp only [List.length_append, List.length_cons] at hn ⊢
        omega
      obtain ⟨v, h₁, hv, hbuilt⟩ := hvalue ⟨_, p.heap⟩ c t _ j hitem hshort hc hread hfollow
      obtain ⟨h₂, hset, hout'⟩ := hout.set key hbuilt
      have hclose := hitem.append.append
      rw [Nat.add_assoc _ c.length] at hclose
      refine ⟨h₂, ?_, ?_⟩
      · have hpeek : peek s 34 (p.i + a.length) = .ok true := isAt_eq hs hquote
        rw [membersLoop, bind_ok (skipWs_exact hs h ha rfl), bind_ok hpeek, if_pos rfl, bind_ok hkey]
        dsimp only
        rw [bind_ok (skipWs_exact hs hcolon hb rfl), bind_ok (consume_here hs hcolon.append)]
        dsimp only
        rw [if_pos rfl, bind_ok hv]
        dsimp only
        rw [bind_ok hset, bind_ok (skipWs_exact hs hclose hd rfl),
          bind_ok (consume_here hs hclose.append)]
        dsimp only
        rw [if_pos rfl]
        refine congrArg (fun i => Except.ok (out, Cursor.mk i h₂)) ?_
        simp only [List.length_append, List.length_cons]
        omega
      · rw [List.foldl_cons, List.foldl_nil]
        exact hout'
    | @member a k b c t d rest key j members ha hk hb hc hread hd hrest =>
      have hassoc : a ++ (34 :: (k ++ 34 :: (b ++ 58 :: (c ++ (t ++ (d ++ 44 :: rest)))))) ++
          125 :: r =
          a ++ (34 :: (k ++ 34 :: (b ++ 58 :: (c ++ (t ++ (d ++ 44 :: (rest ++ 125 :: r))))))) := by
        simp
      rw [hassoc] at h hn
      have hquote := h.append
      have hkey := parseString_exact hs hk hquote
      have hcolon := hquote.tail.append.tail
      have hitem := hcolon.append.tail
      have hfollow : Follow (d ++ 44 :: (rest ++ 125 :: r)) :=
        Follow.ws hd (Follow.cons (by decide))
      have hshort : (c ++ (t ++ (d ++ 44 :: (rest ++ 125 :: r)))).length < n := by
        simp only [List.length_append, List.length_cons] at hn ⊢
        omega
      obtain ⟨v, h₁, hv, hbuilt⟩ := hvalue ⟨_, p.heap⟩ c t _ j hitem hshort hc hread hfollow
      obtain ⟨h₂, hset, hout'⟩ := hout.set key hbuilt
      have hcomma := hitem.append.append
      rw [Nat.add_assoc _ c.length] at hcomma
      simp only [List.length_append, List.length_cons] at hn hturns
      have hrest_short : (rest ++ 125 :: r).length < n := by
        rw [List.length_append, List.length_cons]
        omega
      obtain ⟨h₃, hloop, hdone⟩ :=
        ih (p := ⟨_, h₂⟩) hcomma.append.tail hrest_short (by omega) hrest hout'
      refine ⟨h₃, ?_, ?_⟩
      · have hpeek : peek s 34 (p.i + a.length) = .ok true := isAt_eq hs hquote
        rw [membersLoop, bind_ok (skipWs_exact hs h ha rfl), bind_ok hpeek, if_pos rfl, bind_ok hkey]
        dsimp only
        rw [bind_ok (skipWs_exact hs hcolon hb rfl), bind_ok (consume_here hs hcolon.append)]
        dsimp only
        rw [if_pos rfl, bind_ok hv]
        dsimp only
        rw [bind_ok hset, bind_ok (skipWs_exact hs hcomma hd rfl),
          bind_ok (consume_other hs hcomma.append rfl)]
        dsimp only
        rw [if_neg Bool.false_ne_true, bind_ok (consume_here hs hcomma.append)]
        dsimp only
        rw [if_pos rfl, hloop]
        refine congrArg (fun i => Except.ok (out, Cursor.mk i h₃)) ?_
        simp only [List.length_append, List.length_cons]
        omega
      · rw [List.foldl_cons]
        exact hdone

/-- The text of elements with the whitespace in front of it set apart. -/
theorem elements_front {t : Bytes} {js : List (Json F)} (h : Reads fl t (.elements js)) :
    ∃ a t', t = a ++ t' ∧ Ws a ∧ Reads fl t' (.elements js) ∧
      ∀ r, startsWith isSpace (t' ++ r) = false ∧ startsWith (fun b => b == 93) (t' ++ r) = false := by
  cases h with
  | lastElement ha h hb =>
    obtain ⟨c, rest, rfl, hspace, hclose, _⟩ := value_head h
    exact ⟨_, _, rfl, ha, .lastElement Ws.nil h hb, fun r => ⟨hspace, beq_false_of_ne hclose⟩⟩
  | element ha h hb hrest =>
    obtain ⟨c, rest, rfl, hspace, hclose, _⟩ := value_head h
    exact ⟨_, _, rfl, ha, .element Ws.nil h hb hrest, fun r => ⟨hspace, beq_false_of_ne hclose⟩⟩

theorem members_front {t : Bytes} {ms : List (Bytes × Json F)} (h : Reads fl t (.members ms)) :
    ∃ a t', t = a ++ t' ∧ Ws a ∧ Reads fl t' (.members ms) ∧
      ∀ r, startsWith isSpace (t' ++ r) = false ∧
        startsWith (fun b => b == 125) (t' ++ r) = false := by
  cases h with
  | lastMember ha hk hb hc h hd =>
    exact ⟨_, _, rfl, ha, .lastMember Ws.nil hk hb hc h hd, fun r => ⟨rfl, rfl⟩⟩
  | member ha hk hb hc h hd hrest =>
    exact ⟨_, _, rfl, ha, .member Ws.nil hk hb hc h hd hrest, fun r => ⟨rfl, rfl⟩⟩

theorem parseArray_accepts (hs : Measured s) (hvalue : Accepts fl s value n) {js : List (Json F)}
    {p : Cursor F} {t : Bytes} (h : At s p.i (91 :: (t ++ 93 :: r)))
    (hn : (t ++ 93 :: r).length < n) (hread : Reads fl t (.elements js)) :
    ∃ v h', parseArray fl s value p = .ok (v, ⟨p.i + (t.length + 2), h'⟩) ∧
      Built p.heap h' v (.array js) := by
  obtain ⟨a, t', rfl, ha, hread', hfront⟩ := elements_front hread
  obtain ⟨hspace, hclose⟩ := hfront (93 :: r)
  have hat : At s (p.i + 1) (a ++ (t' ++ 93 :: r)) := by simpa using h.tail
  have hnew := arraySoFar_new fl p.heap
  have hlength := hat.append.length
  simp only [List.length_append, List.length_cons] at hn hlength
  have hshort : (t' ++ 93 :: r).length < n := by
    rw [List.length_append, List.length_cons]
    omega
  obtain ⟨h', hloop, hdone⟩ := elementsLoop_accepts (s.length + 1)
    (p := ⟨_, (array fl p.heap).2⟩) hs hvalue hat.append hshort (by omega) hread' hnew
  refine ⟨_, h', ?_, hdone.built⟩
  unfold parseArray
  dsimp only
  rw [bind_ok (skipWs_exact hs hat ha hspace), bind_ok (consume_other hs hat.append hclose)]
  dsimp only
  rw [if_neg Bool.false_ne_true, hloop]
  refine congrArg (fun i => Except.ok (_, Cursor.mk i h')) ?_
  dsimp only
  rw [List.length_append]
  omega

theorem parseObject_accepts (hs : Measured s) (hvalue : Accepts fl s value n)
    {ms : List (Bytes × Json F)} {p : Cursor F} {t : Bytes}
    (h : At s p.i (123 :: (t ++ 125 :: r))) (hn : (t ++ 125 :: r).length < n)
    (hread : Reads fl t (.members ms)) :
    ∃ v h', parseObject fl s value p = .ok (v, ⟨p.i + (t.length + 2), h'⟩) ∧
      Built p.heap h' v (.object (setAll ms)) := by
  obtain ⟨a, t', rfl, ha, hread', hfront⟩ := members_front hread
  obtain ⟨hspace, hclose⟩ := hfront (125 :: r)
  have hat : At s (p.i + 1) (a ++ (t' ++ 125 :: r)) := by simpa using h.tail
  have hnew := objectSoFar_new fl p.heap
  have hlength := hat.append.length
  simp only [List.length_append, List.length_cons] at hn hlength
  have hshort : (t' ++ 125 :: r).length < n := by
    rw [List.length_append, List.length_cons]
    omega
  obtain ⟨h', hloop, hdone⟩ := membersLoop_accepts (s.length + 1)
    (p := ⟨_, (object fl p.heap).2⟩) hs hvalue hat.append hshort (by omega) hread' hnew
  refine ⟨_, h', ?_, hdone.built⟩
  unfold parseObject
  dsimp only
  rw [bind_ok (skipWs_exact hs hat ha hspace), bind_ok (consume_other hs hat.append hclose)]
  dsimp only
  rw [if_neg Bool.false_ne_true, hloop]
  refine congrArg (fun i => Except.ok (_, Cursor.mk i h')) ?_
  dsimp only
  rw [List.length_append]
  omega

theorem literal_accepts (hs : Measured s) {lit : Bytes} {v : Value F} {h : Heap F} {i : ℕ}
    (hat : At s i (lit ++ r)) :
    (do let i ← expectLit s lit i; .ok (v, ⟨i, h⟩) : Except Stop (Value F × Cursor F)) =
      .ok (v, ⟨i + lit.length, h⟩) :=
  bind_ok (expectLoop_exact hs hat)

theorem valueStep_accepts (hs : Measured s) (hvalue : Accepts fl s value n) :
    Accepts fl s (valueStep fl s value) (n + 1) := by
  intro p a t r j h hn ha hread hr
  have hskip := skipWs_exact hs h ha (value_starts hread)
  have hat := h.append
  have hmore : ¬ ((p.i + a.length : ℕ) : ℤ) ≥ len s := by
    obtain ⟨b, rest, rfl, _⟩ := value_head hread
    exact Int.not_le.mpr ((hat.lt_len hs).mpr (List.cons_ne_nil _ _))
  rw [List.length_append] at hn
  rw [valueStep, bind_ok hskip, if_neg hmore, ← Nat.add_assoc]
  cases hread with
  | null =>
    rw [bind_ok (byteAt_head (b := 110) hat), if_pos rfl, literal_accepts hs hat]
    exact ⟨_, _, rfl, built_plain (fun _ _ => .null rfl)⟩
  | true =>
    rw [bind_ok (byteAt_head (b := 116) hat), if_neg (by decide), if_pos rfl,
      literal_accepts hs hat]
    exact ⟨_, _, rfl, built_plain (fun _ _ => .bool (v := boolValue fl true) rfl)⟩
  | false =>
    rw [bind_ok (byteAt_head (b := 102) hat), if_neg (by decide), if_neg (by decide), if_pos rfl,
      literal_accepts hs hat]
    exact ⟨_, _, rfl, built_plain (fun _ _ => .bool (v := boolValue fl false) rfl)⟩
  | @number t x ht hx =>
    have hnumber := parseNumber_exact hs hat ht hx hr
    obtain ⟨b, rest, rfl, hb⟩ := number_head ht
    rw [bind_ok (byteAt_head (b := b) hat), if_neg (digit_ne hb (by decide)),
      if_neg (digit_ne hb (by decide)), if_neg (digit_ne hb (by decide)),
      if_neg (digit_ne hb (by decide)), if_neg (digit_ne hb (by decide)),
      if_neg (digit_ne hb (by decide)), if_pos hb, bind_ok hnumber]
    exact ⟨_, _, rfl, built_plain (fun _ _ => .number (v := number x) rfl)⟩
  | @string t text ht =>
    have hquoted : At s (p.i + a.length) (34 :: (t ++ 34 :: r)) := by simpa using hat
    rw [bind_ok (byteAt_head (b := 34) hquoted), if_neg (by decide), if_neg (by decide),
      if_neg (by decide), if_pos rfl, bind_ok (parseString_exact hs ht hquoted)]
    refine ⟨_, _, ?_, built_plain (fun _ _ => .string (v := string fl text) rfl)⟩
    refine congrArg (fun i => Except.ok (_, Cursor.mk i _)) ?_
    simp only [List.length_cons, List.length_append, List.length_nil]
    omega
  | @emptyArray w hw =>
    have hopen : At s (p.i + a.length) (91 :: (w ++ 93 :: r)) := by simpa using hat
    rw [bind_ok (byteAt_head (b := 91) hopen), if_neg (by decide), if_neg (by decide),
      if_neg (by decide), if_neg (by decide), if_pos rfl]
    unfold parseArray
    dsimp only
    rw [bind_ok (skipWs_exact hs hopen.tail hw rfl), bind_ok (consume_here hs hopen.tail.append)]
    refine ⟨_, _, ?_, (arraySoFar_new fl p.heap).built⟩
    refine congrArg (fun i => Except.ok (_, Cursor.mk i _)) ?_
    simp only [List.length_cons, List.length_append, List.length_nil]
    omega
  | @array t js hread =>
    have hopen : At s (p.i + a.length) (91 :: (t ++ 93 :: r)) := by simpa using hat
    have hshort : (t ++ 93 :: r).length < n := by
      simp only [List.length_cons, List.length_append, List.length_nil] at hn ⊢
      omega
    obtain ⟨v, h', hparse, hbuilt⟩ := parseArray_accepts (p := ⟨_, p.heap⟩) hs hvalue hopen hshort
      hread
    rw [bind_ok (byteAt_head (b := 91) hopen), if_neg (by decide), if_neg (by decide),
      if_neg (by decide), if_neg (by decide), if_pos rfl, hparse]
    refine ⟨v, h', ?_, hbuilt⟩
    refine congrArg (fun i => Except.ok (v, Cursor.mk i h')) ?_
    simp only [List.length_cons, List.length_append, List.length_nil]
  | @emptyObject w hw =>
    have hopen : At s (p.i + a.length) (123 :: (w ++ 125 :: r)) := by simpa using hat
    rw [bind_ok (byteAt_head (b := 123) hopen), if_neg (by decide), if_neg (by decide),
      if_neg (by decide), if_neg (by decide), if_neg (by decide), if_pos rfl]
    unfold parseObject
    dsimp only
    rw [bind_ok (skipWs_exact hs hopen.tail hw rfl), bind_ok (consume_here hs hopen.tail.append)]
    refine ⟨_, _, ?_, (objectSoFar_new fl p.heap).built⟩
    refine congrArg (fun i => Except.ok (_, Cursor.mk i _)) ?_
    simp only [List.length_cons, List.length_append, List.length_nil]
    omega
  | @object t ms hread =>
    have hopen : At s (p.i + a.length) (123 :: (t ++ 125 :: r)) := by simpa using hat
    have hshort : (t ++ 125 :: r).length < n := by
      simp only [List.length_cons, List.length_append, List.length_nil] at hn ⊢
      omega
    obtain ⟨v, h', hparse, hbuilt⟩ := parseObject_accepts (p := ⟨_, p.heap⟩) hs hvalue hopen hshort
      hread
    rw [bind_ok (byteAt_head (b := 123) hopen), if_neg (by decide), if_neg (by decide),
      if_neg (by decide), if_neg (by decide), if_neg (by decide), if_pos rfl, hparse]
    refine ⟨v, h', ?_, hbuilt⟩
    refine congrArg (fun i => Except.ok (v, Cursor.mk i h')) ?_
    simp only [List.length_cons, List.length_append, List.length_nil]

theorem parseValue_accepts (hs : Measured s) (depth : ℕ) :
    Accepts fl s (parseValue fl s depth) depth := by
  induction depth with
  | zero =>
    intro p a t r j _ hn
    omega
  | succ depth ih => exact valueStep_accepts hs ih

theorem parse_accepts {a t b : Bytes} {j : Json F} (hs : Measured (a ++ (t ++ b))) (heap : Heap F)
    (ha : Ws a) (hread : Reads fl t (.value j)) (hb : Ws b) :
    ∃ v h, parse fl (a ++ (t ++ b)) heap = .ok (v, h) ∧ Built heap h v j := by
  have h := at_zero (a ++ (t ++ b))
  have hskip := skipWs_exact hs h ha (value_starts hread)
  have hfollow : Follow b := by
    have hend := Follow.ws hb Follow.nil
    rw [List.append_nil] at hend
    exact hend
  have hshort : ([] ++ (t ++ b)).length < (a ++ (t ++ b)).length + 1 := by
    simp only [List.length_append, List.length_nil]
    omega
  obtain ⟨v, h', hv, hbuilt⟩ := parseValue_accepts hs ((a ++ (t ++ b)).length + 1)
    ⟨_, heap⟩ [] t b j h.append hshort Ws.nil hread hfollow
  have hat : At (a ++ (t ++ b)) (0 + a.length + (([] : Bytes).length + t.length)) (b ++ []) := by
    rw [List.append_nil, List.length_nil, Nat.zero_add t.length]
    exact h.append.append
  have hend : ¬ (((0 + a.length + (([] : Bytes).length + t.length) + b.length : ℕ) : ℤ) ≠
      len (a ++ (t ++ b))) := by
    rw [hs.len, not_not]
    simp only [List.length_append, List.length_nil]
    omega
  refine ⟨v, h', ?_, hbuilt⟩
  rw [parse, bind_ok hskip, bind_ok hv]
  dsimp only
  rw [bind_ok (skipWs_exact hs hat hb rfl), if_neg hend]

end Accepts

end NewClLang.JsonReading
