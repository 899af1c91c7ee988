import NewClLang.TypeTexts

set_option autoImplicit false

/-!
# Reading printed types

`parse_type_ref` gives the ` err` at the end of a text to the outermost function types on the way
there, the parser of programs to the innermost ones. A type of a program is read back as it is where
the two agree, and no two types of a program are printed alike.
-/
namespace NewClLang.TypeKeys
open NestedTexts TypeRefs ModuleSyntax PrintedTypes TypeSyntax TypeTexts

section Splitting

theorem foldr_grow (s p : List Char) (ps : List (List Char)) :
    s.foldr grow (p :: ps) = (s ++ p) :: ps := by
  induction s with
  | nil => rfl
  | cons c s ih =>
    rw [List.foldr_cons, ih]
    rfl

theorem splitLoop_plain {c : Char} (hc : ∀ p ∈ brackets, c ≠ p.1 ∧ c ≠ p.2) {square paren : ℤ}
    (hsep : c = ',' → ¬ (square = 0 ∧ paren = 0)) (rest : List Char) :
    splitLoop ',' square paren (c :: rest) = grow c (splitLoop ',' square paren rest) := by
  have hsquare := hc ('[', ']') List.mem_cons_self
  have hparen := hc ('(', ')') (List.mem_cons_of_mem _ List.mem_cons_self)
  rw [splitLoop, if_neg hsquare.1, if_neg hsquare.2, if_neg hparen.1, if_neg hparen.2, if_neg]
  rintro ⟨heq, hclosed⟩
  exact hsep heq hclosed

/-- A nested text goes to one part; a comma of it stands inside a bracket. -/
theorem splitLoop_nested {outside : Bool} {s : List Char} (hs : Nested brackets ',' outside s)
    (square paren : ℤ) (hsquare : 0 ≤ square) (hparen : 0 ≤ paren)
    (hopen : outside = true → ¬ (square = 0 ∧ paren = 0)) (rest : List Char) :
    splitLoop ',' square paren (s ++ rest) = s.foldr grow (splitLoop ',' square paren rest) := by
  induction hs generalizing square paren rest with
  | nil => rfl
  | plain hc hsep _ ih =>
    rw [List.cons_append, splitLoop_plain hc (fun heq => hopen (hsep heq)), ih square paren hsquare hparen hopen]
    rfl
  | @enclosed outside o c s t hp _ _ ihs iht =>
    have happend : o :: (s ++ c :: t) ++ rest = o :: (s ++ c :: (t ++ rest)) := by simp
    rw [happend, List.foldr_cons, List.foldr_append, List.foldr_cons]
    simp only [brackets, List.mem_cons, List.not_mem_nil, or_false, Prod.mk.injEq] at hp
    rcases hp with ⟨rfl, rfl⟩ | ⟨rfl, rfl⟩
    · have hinner := ihs (square + 1) paren (by omega) hparen (by omega)
      have houter := iht square paren hsquare hparen hopen rest
      rw [splitLoop, if_pos rfl, hinner, splitLoop, if_neg (by decide), if_pos rfl,
        Int.add_sub_cancel, houter]
    · have hinner := ihs square (paren + 1) hsquare (by omega) (by omega)
      have houter := iht square paren hsquare hparen hopen rest
      rw [splitLoop, if_neg (by decide), if_neg (by decide), if_pos rfl, hinner, splitLoop,
        if_neg (by decide), if_neg (by decide), if_neg (by decide), if_pos rfl,
        Int.add_sub_cancel, houter]

theorem splitLoop_commas {ts : List (List Char)} (h : ∀ t ∈ ts, Printed t) (hne : ts ≠ []) :
    splitLoop ',' 0 0 (commas ts) = ts := by
  induction ts with
  | nil => exact absurd rfl hne
  | cons t ts ih =>
    have ht := (h t List.mem_cons_self).nested
    have hsplit := splitLoop_nested ht 0 0 (Int.le_refl 0) (Int.le_refl 0)
      (fun hfalse => by cases hfalse)
    cases ts with
    | nil =>
      have hlast := hsplit []
      rw [List.append_nil] at hlast
      rw [commas, List.intercalate_singleton, hlast]
      exact (foldr_grow t [] []).trans (by rw [List.append_nil])
    | cons u ts =>
      have hrest := ih (fun x hx => h x (List.mem_cons_of_mem t hx)) (List.cons_ne_nil u ts)
      have hcomma : splitLoop ',' 0 0 (',' :: commas (u :: ts)) = [] :: u :: ts := by
        rw [splitLoop, if_neg (by decide), if_neg (by decide), if_neg (by decide),
          if_neg (by decide), if_pos ⟨rfl, rfl, rfl⟩, hrest]
      have happend : commas (t :: u :: ts) = t ++ ',' :: commas (u :: ts) := by
        rw [commas, List.intercalate_cons_cons, List.append_assoc]
        rfl
      rw [happend, hsplit, hcomma, foldr_grow, List.append_nil]

theorem Printed.ne_nil {t : List Char} (h : Printed t) : t ≠ [] := by
  obtain ⟨c, rest, rfl, -⟩ := h.first
  exact List.cons_ne_nil c rest

/-- `split_top_level` undoes the joining. -/
theorem splitTopLevel_commas {ts : List (List Char)} (h : ∀ t ∈ ts, Printed t) :
    splitTopLevel (commas ts) = ts := by
  by_cases hne : ts = []
  · subst hne
    decide
  · have hstrip : ts.map strip = ts := by
      rw [List.map_congr_left (fun t ht => (h t ht).strip)]
      exact List.map_id' ts
    rw [splitTopLevel, splitLoop_commas h hne, hstrip, List.filter_eq_self]
    intro t ht
    exact decide_eq_true (Printed.ne_nil (h t ht))

theorem length_le_commas {ts : List (List Char)} {t : List Char} (ht : t ∈ ts) :
    t.length ≤ (commas ts).length := by
  induction ts with
  | nil => cases ht
  | cons u ts ih =>
    cases ts with
    | nil =>
      rw [List.mem_singleton.mp ht, commas, List.intercalate_singleton]
    | cons v ts =>
      rw [commas, List.intercalate_cons_cons, List.length_append, List.length_append]
      rcases List.mem_cons.mp ht with rfl | hin
      · omega
      · have hle := ih hin
        rw [commas] at hle
        omega

end Splitting

section Steps
variable {parse : TextParser} {t : List Char}

theorem step_pointer (nullable : Bool) (h : strip (stars nullable ++ t) = stars nullable ++ t) :
    parseTypeRefStep parse (stars nullable ++ t) = (parse t).map (TypeRef.pointer · nullable) := by
  rw [parseTypeRefStep, h]
  cases nullable with
  | true => simp [stars]
  | false => simp [stars]

theorem step_slice (h : strip ('[' :: ']' :: t) = '[' :: ']' :: t) :
    parseTypeRefStep parse ('[' :: ']' :: t) = (parse t).map TypeRef.slice := by
  rw [parseTypeRefStep, h]
  simp

theorem toInt_digits (n : ℕ) : toInt (Nat.toDigits 10 n) = some n := by
  have hdigit : ∀ c ∈ Nat.toDigits 10 n, c.isDigit = true :=
    fun c hc => Nat.isDigit_of_mem_toDigits (by decide) (by decide) hc
  have hspace : ∀ c ∈ Nat.toDigits 10 n, isSpace c = false := by
    intro c hc
    have hd := hdigit c hc
    rw [Char.isDigit, Bool.and_eq_true, decide_eq_true_eq, decide_eq_true_eq] at hd
    have hlow : 48 ≤ c.toNat := UInt32.le_iff_toNat_le.mp hd.1
    have hhigh : c.toNat ≤ 57 := UInt32.le_iff_toNat_le.mp hd.2
    have hne : c ≠ ' ' := by
      rintro rfl
      exact absurd hlow (by decide)
    simp [isSpace, hne]
    omega
  have hne : Nat.toDigits 10 n ≠ [] := Nat.toDigits_ne_nil
  have hstrip : strip (Nat.toDigits 10 n) = Nat.toDigits 10 n := by
    refine strip_eq ?_ ?_
    · obtain ⟨c, rest, heq⟩ := List.exists_cons_of_ne_nil hne
      exact ⟨c, rest, heq, hspace c (by rw [heq]; exact List.mem_cons_self)⟩
    · exact ⟨_, _, (List.dropLast_append_getLast hne).symm, hspace _ (List.getLast_mem hne)⟩
  rw [toInt, hstrip, if_pos ⟨hne, List.all_eq_true.mpr hdigit⟩, Nat.ofDigitChars_ten_toDigits]

theorem step_array (n : ℕ)
    (h : strip ('[' :: (Nat.toDigits 10 n ++ ']' :: t)) = '[' :: (Nat.toDigits 10 n ++ ']' :: t)) :
    parseTypeRefStep parse ('[' :: (Nat.toDigits 10 n ++ ']' :: t)) =
      (parse t).map (TypeRef.array n) := by
  have hdigit : ∀ c ∈ Nat.toDigits 10 n, c ≠ ']' := by
    rintro c hc rfl
    exact absurd (Nat.isDigit_of_mem_toDigits (by decide) (by decide) hc) (by decide)
  have htake : (Nat.toDigits 10 n ++ ']' :: t).takeWhile (· ≠ ']') = Nat.toDigits 10 n := by
    rw [List.takeWhile_append_of_pos (fun c hc => decide_eq_true (hdigit c hc))]
    simp
  have hdrop : (Nat.toDigits 10 n ++ ']' :: t).dropWhile (· ≠ ']') = ']' :: t := by
    rw [List.dropWhile_append_of_pos (fun c hc => decide_eq_true (hdigit c hc))]
    simp
  have hslice : ¬ ['[', ']'] <+: '[' :: (Nat.toDigits 10 n ++ ']' :: t) := by
    obtain ⟨c, rest, heq⟩ := List.exists_cons_of_ne_nil (Nat.toDigits_ne_nil (n := n) (b := 10))
    have hc := hdigit c (by rw [heq]; exact List.mem_cons_self)
    simp [heq, hc.symm]
  have hmem : ']' ∈ '[' :: (Nat.toDigits 10 n ++ ']' :: t) := by simp
  have hbehind : ('[' :: (Nat.toDigits 10 n ++ ']' :: t)).dropWhile (· ≠ ']') = ']' :: t := by
    rw [List.dropWhile_cons_of_pos (by decide), hdrop]
  rw [parseTypeRefStep, h, if_neg (by simp), if_neg (by simp), if_neg hslice, if_pos (by simp),
    if_pos hmem, hbehind, List.drop_one, List.tail_cons, htake, toInt_digits, List.drop_one,
    List.tail_cons]
  cases parse t <;> rfl

theorem step_function (h : strip ('f' :: 'n' :: '(' :: t) = 'f' :: 'n' :: '(' :: t) :
    parseTypeRefStep parse ('f' :: 'n' :: '(' :: t) = readFunction parse t := by
  rw [parseTypeRefStep, h]
  simp

/-- A text that starts with a name is none of the other forms. -/
theorem step_name (parse : TextParser) {name : String} (hname : IsTypeName name) {u : List Char}
    (hu : u = [] ∨ ∃ rest, u = '[' :: rest) (h : strip (name.toList ++ u) = name.toList ++ u) :
    parseTypeRefStep parse (name.toList ++ u) = readName parse (name.toList ++ u) := by
  obtain ⟨c, rest, heq⟩ := List.exists_cons_of_ne_nil hname.1
  have hc := (wordChar_ne (hname.2 c (by rw [heq]; exact List.mem_cons_self))).2
  simp only [List.mem_cons, List.not_mem_nil, or_false, not_or] at hc
  obtain ⟨hstar, hquestion, hopen, -⟩ := hc
  have hfn : ¬ ['f', 'n', '('] <+: name.toList ++ u := by
    rintro ⟨tail, htail⟩
    rcases List.append_eq_append_iff.mp htail with ⟨more, hfront, -⟩ | ⟨more, hfront, hback⟩
    · have hparen : '(' ∈ name.toList := by simp [hfront]
      exact absurd (wordChar_ne (hname.2 _ hparen)).2 (by decide)
    · rcases more with _ | ⟨m, more⟩
      · have hparen : '(' ∈ name.toList := by simp [← hfront.trans (List.append_nil _)]
        exact absurd (wordChar_ne (hname.2 _ hparen)).2 (by decide)
      · rcases hu with rfl | ⟨rest, rfl⟩
        · cases hback
        · cases hback
          have hbracket : '[' ∈ ['f', 'n', '('] := by rw [hfront]; simp
          exact absurd hbracket (by decide)
  rw [parseTypeRefStep, h, if_neg, if_neg, if_neg, if_neg, if_neg hfn]
  · simp [heq, Ne.symm hopen]
  · simp [heq, Ne.symm hopen]
  · simp [heq, Ne.symm hstar]
  · simp [heq, Ne.symm hquestion]

theorem closing_brackets {outside : Bool} {s : List Char} (rest : List Char) {o c : Char}
    (hs : Nested brackets ',' outside s) (hp : (o, c) ∈ brackets) :
    findMatching o c (s ++ c :: rest) = some (s, rest) := by
  refine hs.closing_eq hp ?_ rest
  simp only [brackets, List.mem_cons, List.not_mem_nil, or_false, Prod.mk.injEq] at hp
  rcases hp with ⟨rfl, rfl⟩ | ⟨rfl, rfl⟩ <;> simp [Apart, brackets]

/-- What is read of each of some types in a text. -/
theorem mapM_texts {ts : List TypeRef} (h : ∀ t ∈ ts, parse (text t) = some (reread t)) :
    (ts.map text).mapM parse = some (rereadAll ts) := by
  induction ts with
  | nil => rfl
  | cons t ts ih =>
    have ht := h t List.mem_cons_self
    have hts := ih (fun u hu => h u (List.mem_cons_of_mem t hu))
    rw [List.map_cons, List.mapM_cons, ht, hts]
    rfl

theorem readResult_eq (params : List TypeRef) {ret : TypeRef} (hret : WellNamed ret) (k : ℕ)
    (hparse : parse (body ret ++ errs (k - 1)) = some (assign (k - 1) ret)) :
    readResult parse params (body ret ++ errs k) =
      some (.function params (assign (k - 1) ret) (decide (0 < k))) := by
  have hprinted := hret.body_printed
  rw [readResult, (hprinted.errs k).strip]
  cases k with
  | zero =>
    rw [errs, List.append_nil, if_neg hret.body_not_err]
    rw [errs, List.append_nil] at hparse
    rw [hparse]
    rfl
  | succ k =>
    have hdrop : (body ret ++ errs (k + 1)).rdrop 4 = body ret ++ errs k := by
      rw [errs, ← List.append_assoc]
      exact List.rdrop_append_length
    have hsuffix : [' ', 'e', 'r', 'r'] <:+ body ret ++ errs (k + 1) :=
      ⟨body ret ++ errs k, by rw [errs, List.append_assoc]⟩
    rw [Nat.add_sub_cancel] at hparse ⊢
    rw [if_pos hsuffix, hdrop, (hprinted.errs k).strip, hparse]
    simp

end Steps

section Reading

theorem readFunction_eq {parse : TextParser} {params : List TypeRef} {ret : TypeRef}
    (hparams : ∀ p ∈ params, WellNamed p) (hret : WellNamed ret) (k : ℕ)
    (hitems : ∀ p ∈ params, parse (text p) = some (reread p))
    (hparse : parse (body ret ++ errs (k - 1)) = some (assign (k - 1) ret)) :
    readFunction parse (commas (params.map text) ++ ')' :: '-' :: '>' :: (body ret ++ errs k)) =
      some (.function (rereadAll params) (assign (k - 1) ret) (decide (0 < k))) := by
  have hprinted : ∀ t ∈ params.map text, Printed t := by
    intro t ht
    obtain ⟨p, hp, rfl⟩ := List.mem_map.mp ht
    exact (hparams p hp).printed
  have hmatching := closing_brackets ('-' :: '>' :: (body ret ++ errs k))
    (nested_commas (fun p hp => (hparams p hp).printed))
    (List.mem_cons_of_mem _ List.mem_cons_self : ('(', ')') ∈ brackets)
  have hargs : readParams parse (commas (params.map text)) = some (rereadAll params) := by
    rw [readParams, splitTopLevel_commas hprinted, mapM_texts hitems]
    by_cases hempty : commas (params.map text) = []
    · have hnone : params.map text = [] := by
        rw [← splitTopLevel_commas hprinted, hempty]
        decide
      rw [if_neg (not_not.mpr hempty), List.map_eq_nil_iff.mp hnone]
      rfl
    · rw [if_pos hempty]
  have hresult := readResult_eq (rereadAll params) hret k hparse
  rw [readFunction, hmatching]
  simpa [hargs] using hresult

theorem readName_eq {parse : TextParser} {name : String} {args : List TypeRef}
    (hname : IsTypeName name) (hargs : ∀ a ∈ args, WellNamed a)
    (hbase : parse name.toList = some (.named name))
    (hitems : ∀ a ∈ args, parse (text a) = some (reread a)) :
    readName parse (name.toList ++ '[' :: (commas (args.map text) ++ [']'])) =
      some (.generic (.named name) (rereadAll args)) := by
  have hprinted : ∀ t ∈ args.map text, Printed t := by
    intro t ht
    obtain ⟨a, ha, rfl⟩ := List.mem_map.mp ht
    exact (hargs a ha).printed
  have hopen : ∀ c ∈ name.toList, (c ≠ '[') := by
    rintro c hc rfl
    exact absurd (wordChar_ne (hname.2 _ hc)).2 (by decide)
  have hdrop : (name.toList ++ '[' :: (commas (args.map text) ++ [']'])).dropWhile (· ≠ '[') =
      '[' :: (commas (args.map text) ++ [']']) := by
    rw [List.dropWhile_append_of_pos (fun c hc => decide_eq_true (hopen c hc))]
    simp
  have htake : (name.toList ++ '[' :: (commas (args.map text) ++ [']'])).takeWhile (· ≠ '[') =
      name.toList := by
    rw [List.takeWhile_append_of_pos (fun c hc => decide_eq_true (hopen c hc))]
    simp
  have hmatching := closing_brackets []
    (nested_commas (fun a ha => (hargs a ha).printed))
    (List.mem_cons_self : ('[', ']') ∈ brackets)
  have hlast : (name.toList ++ '[' :: (commas (args.map text) ++ [']'])).getLast? = some ']' := by
    rw [← List.cons_append, ← List.append_assoc, List.getLast?_concat]
  rw [readName, if_pos ⟨by simp, hlast⟩, hdrop, List.drop_one, List.tail_cons, hmatching]
  simp only [htake, hbase, splitTopLevel_commas hprinted, mapM_texts hitems]
  rfl

theorem parse_named {name : String} (hname : IsTypeName name) (fuel : ℕ) :
    parseWithin (fuel + 1) name.toList = some (.named name) := by
  have hstep := step_name (parseWithin fuel) hname (Or.inl rfl : ([] : List Char) = [] ∨ _)
    (by rw [List.append_nil]; exact hname.printed.strip)
  rw [List.append_nil] at hstep
  have hopen : '[' ∉ name.toList := by
    intro hmem
    exact absurd (wordChar_ne (hname.2 _ hmem)).2 (by decide)
  rw [parseWithin, hstep, readName, if_neg (fun h => hopen h.1), String.ofList_toList]

/-- The text of a type with `k` times ` err` at the end. -/
theorem parse_body {r : TypeRef} (h : WellNamed r) {k : ℕ} (hk : k ≤ spine r) {fuel : ℕ}
    (hfuel : (body r ++ errs k).length < fuel) :
    parseWithin fuel (body r ++ errs k) = some (assign k r) := by
  induction h generalizing k fuel with
  | @named name h =>
    obtain ⟨fuel, rfl⟩ := Nat.exists_eq_add_one_of_ne_zero (Nat.ne_zero_of_lt hfuel)
    rw [Nat.le_zero.mp hk, errs, List.append_nil]
    exact parse_named h fuel
  | @pointer inner nullable hinner ih =>
    obtain ⟨fuel, rfl⟩ := Nat.exists_eq_add_one_of_ne_zero (Nat.ne_zero_of_lt hfuel)
    have hwell : WellNamed (.pointer inner nullable) := .pointer hinner
    have hstrip := (hwell.body_printed.errs k).strip
    have hstars : 0 < (stars nullable).length := by cases nullable <;> decide
    rw [body, List.append_assoc] at hstrip hfuel ⊢
    rw [List.length_append] at hfuel
    rw [parseWithin, step_pointer nullable hstrip, ih hk (by omega)]
    rfl
  | @slice elem helem ih =>
    obtain ⟨fuel, rfl⟩ := Nat.exists_eq_add_one_of_ne_zero (Nat.ne_zero_of_lt hfuel)
    have hstrip := (helem.slice.body_printed.errs k).strip
    rw [body, List.cons_append, List.cons_append] at hstrip hfuel ⊢
    rw [List.length_cons, List.length_cons] at hfuel
    rw [parseWithin, step_slice hstrip, ih hk (by omega)]
    rfl
  | @array n elem helem ih =>
    obtain ⟨fuel, rfl⟩ := Nat.exists_eq_add_one_of_ne_zero (Nat.ne_zero_of_lt hfuel)
    have hwell : WellNamed (.array n elem) := .array helem
    have hstrip := (hwell.body_printed.errs k).strip
    rw [body, List.cons_append, List.append_assoc, List.cons_append] at hstrip hfuel ⊢
    rw [List.length_cons, List.length_append, List.length_cons] at hfuel
    rw [parseWithin, step_array n hstrip, ih hk (by omega)]
    rfl
  | @function params ret fallible hparams hret ihp ihr =>
    obtain ⟨fuel, rfl⟩ := Nat.exists_eq_add_one_of_ne_zero (Nat.ne_zero_of_lt hfuel)
    have hwell : WellNamed (.function params ret fallible) := .function hparams hret
    have hstrip := (hwell.body_printed.errs k).strip
    have hbody : body (.function params ret fallible) ++ errs k =
        'f' :: 'n' :: '(' :: (commas (params.map text) ++ ')' :: '-' :: '>' ::
          (body ret ++ errs k)) := by simp [body]
    rw [hbody] at hstrip hfuel ⊢
    simp only [List.length_cons, List.length_append] at hfuel
    have hitems : ∀ p ∈ params, parseWithin fuel (text p) = some (reread p) := by
      intro p hp
      have hle := length_le_commas (List.mem_map_of_mem (f := text) hp)
      rw [text_eq] at hle ⊢
      exact ihp p hp (trailing_le p) (by omega)
    have herrs : (errs (k - 1)).length ≤ (errs k).length := by
      cases k with
      | zero => exact Nat.le_refl _
      | succ k => simp [errs]
    have hk' : k - 1 ≤ spine ret := Nat.sub_le_of_le_add hk
    have hlength : (body ret ++ errs (k - 1)).length < fuel := by rw [List.length_append]; omega
    have hparse := ihr hk' hlength
    rw [parseWithin, step_function hstrip, readFunction_eq hparams hret k hitems hparse]
    rfl
  | @generic name args hname hargs iha =>
    obtain ⟨fuel, rfl⟩ := Nat.exists_eq_add_one_of_ne_zero (Nat.ne_zero_of_lt hfuel)
    have hstrip := (WellNamed.generic hname hargs).body_printed.strip
    have hbody : body (.generic (.named name) args) =
        name.toList ++ '[' :: (commas (args.map text) ++ [']']) := rfl
    rw [Nat.le_zero.mp hk, errs, List.append_nil, hbody] at hfuel ⊢
    rw [hbody] at hstrip
    simp only [List.length_append, List.length_cons] at hfuel
    obtain ⟨fuel, rfl⟩ : ∃ n, fuel = n + 1 := ⟨fuel - 1, by omega⟩
    have hitems : ∀ a ∈ args, parseWithin (fuel + 1) (text a) = some (reread a) := by
      intro a ha
      have hle := length_le_commas (List.mem_map_of_mem (f := text) ha)
      rw [text_eq] at hle ⊢
      exact iha a ha (trailing_le a) (by omega)
    rw [parseWithin, step_name _ hname (Or.inr ⟨_, rfl⟩) hstrip,
      readName_eq hname hargs (parse_named hname fuel) hitems]
    rfl

/-- What `parse_type_ref` makes of a printed type. -/
theorem parseTypeRef_format {r : TypeRef} (h : WellNamed r) :
    parseTypeRef (formatTypeRef r) = some (reread r) := by
  have hbody := parse_body h (trailing_le r) (Nat.lt_succ_self _)
  rw [← text_eq] at hbody
  exact hbody

end Reading

end NewClLang.TypeKeys
