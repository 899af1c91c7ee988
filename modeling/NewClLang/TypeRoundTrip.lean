import NewClLang.TypeKeys

set_option autoImplicit false

/-!
# Types of a program and their keys

The parser of programs gives an `err` to the innermost function type that is open, so the function
types in the result of a fallible one are fallible themselves.
-/
namespace NewClLang.TypeRoundTrip
open TypeRefs ModuleSyntax PrintedTypes TypeSyntax TypeTexts TypeKeys

section Parsed

/-- The function types on the way to the end of the text are all fallible. -/
def Full (r : TypeRef) : Prop := trailing r = spine r

/-- All are fallible in the result of a fallible function type. -/
inductive Stacked : TypeRef → Prop where
  | named {name : String} : Stacked (.named name)
  | pointer {inner : TypeRef} {nullable : Bool} (h : Stacked inner) :
      Stacked (.pointer inner nullable)
  | slice {elem : TypeRef} (h : Stacked elem) : Stacked (.slice elem)
  | array {length : ℕ} {elem : TypeRef} (h : Stacked elem) : Stacked (.array length elem)
  | function {params : List TypeRef} {ret : TypeRef} {fallible : Bool}
      (hparams : ∀ p ∈ params, Stacked p) (hret : Stacked ret)
      (hfull : fallible = true → Full ret) : Stacked (.function params ret fallible)
  | generic {base : TypeRef} {args : List TypeRef} (hargs : ∀ a ∈ args, Stacked a) :
      Stacked (.generic base args)

/-- None is fallible in the result of a function type that is not. -/
inductive Uniform : TypeRef → Prop where
  | named {name : String} : Uniform (.named name)
  | pointer {inner : TypeRef} {nullable : Bool} (h : Uniform inner) :
      Uniform (.pointer inner nullable)
  | slice {elem : TypeRef} (h : Uniform elem) : Uniform (.slice elem)
  | array {length : ℕ} {elem : TypeRef} (h : Uniform elem) : Uniform (.array length elem)
  | function {params : List TypeRef} {ret : TypeRef} {fallible : Bool}
      (hparams : ∀ p ∈ params, Uniform p) (hret : Uniform ret)
      (hnone : fallible = false → trailing ret = 0) : Uniform (.function params ret fallible)
  | generic {base : TypeRef} {args : List TypeRef} (hargs : ∀ a ∈ args, Uniform a) :
      Uniform (.generic base args)

/-- What is known of a type that has been parsed, with the tokens behind it. -/
structure Parsed (r : TypeRef) (rest : List Token) : Prop where
  wellNamed : WellNamed r
  stacked : Stacked r
  full : rest.head? = some .err → Full r

/-- Every result of the parser is of this kind. -/
def Parses (parser : TypeParser) : Prop :=
  ∀ tokens r rest, parser tokens = some (r, rest) → Parsed r rest

theorem Identifier.isTypeName (name : Identifier) : IsTypeName name.text :=
  ⟨name.nonempty, fun c hc => Or.inl (List.all_eq_true.mp name.chars c hc)⟩

theorem isTypeName_qualified (module name : Identifier) :
    IsTypeName (module.text ++ "." ++ name.text) := by
  refine ⟨by simp, ?_⟩
  intro c hc
  rw [String.toList_append, String.toList_append, List.mem_append, List.mem_append] at hc
  rcases hc with (hc | hc) | hc
  · exact (Identifier.isTypeName module).2 c hc
  · exact Or.inr (List.mem_singleton.mp hc)
  · exact (Identifier.isTypeName name).2 c hc

variable {parser : TypeParser}

theorem Parses.commaLoop (h : Parses parser) (endKind : Token) (turns : ℕ) {tokens rest : List Token}
    {items : List TypeRef} (hrun : commaLoop endKind parser turns tokens = some (items, rest)) :
    ∀ t ∈ items, WellNamed t ∧ Stacked t := by
  induction turns generalizing tokens items with
  | zero => cases hrun
  | succ turns ih =>
    rw [TypeSyntax.commaLoop, Option.bind_eq_bind, Option.bind_eq_some_iff] at hrun
    obtain ⟨⟨item, middle⟩, hitem, hrun⟩ := hrun
    have hparsed := h _ _ _ hitem
    have hfirst : ∀ t ∈ [item], WellNamed t ∧ Stacked t := by
      intro t ht
      rw [List.mem_singleton.mp ht]
      exact ⟨hparsed.wellNamed, hparsed.stacked⟩
    dsimp only at hrun
    split at hrun
    · split at hrun
      · cases hrun
        exact hfirst
      · rw [Option.bind_eq_bind, Option.bind_eq_some_iff] at hrun
        obtain ⟨⟨more, last⟩, hmore, hrun⟩ := hrun
        cases hrun
        intro t ht
        rcases List.mem_cons.mp ht with rfl | hin
        · exact ⟨hparsed.wellNamed, hparsed.stacked⟩
        · exact ih hmore t hin
    · cases hrun
      exact hfirst

theorem Parses.commaList (h : Parses parser) {endKind : Token} {turns : ℕ} {tokens rest : List Token}
    {items : List TypeRef} (hrun : parseCommaList endKind parser turns tokens = some (items, rest)) :
    ∀ t ∈ items, WellNamed t ∧ Stacked t := by
  rw [parseCommaList] at hrun
  split at hrun
  · cases hrun
    exact fun t ht => absurd ht List.not_mem_nil
  · exact h.commaLoop endKind turns hrun

theorem Parses.application (h : Parses parser) (turns : ℕ) {name : String} (hname : IsTypeName name) :
    Parses (parseApplication parser turns name) := by
  intro tokens r rest hrun
  rw [parseApplication.eq_def] at hrun
  split at hrun
  · rw [Option.bind_eq_bind, Option.bind_eq_some_iff] at hrun
    obtain ⟨⟨args, middle⟩, hargs, hrun⟩ := hrun
    have hall := h.commaList hargs
    dsimp only at hrun
    split at hrun
    · cases hrun
      exact ⟨.generic hname (fun a ha => (hall a ha).1), .generic (fun a ha => (hall a ha).2),
        fun _ => rfl⟩
    · cases hrun
  · cases hrun
    exact ⟨.named hname, .named, fun _ => rfl⟩

theorem Parses.function (h : Parses parser) (turns : ℕ) : Parses (parseFunction parser turns) := by
  intro tokens r rest hrun
  rw [parseFunction, Option.bind_eq_bind, Option.bind_eq_some_iff] at hrun
  obtain ⟨⟨params, middle⟩, hparams, hrun⟩ := hrun
  have hall := h.commaList hparams
  dsimp only at hrun
  split at hrun
  · rw [Option.bind_eq_bind, Option.bind_eq_some_iff] at hrun
    obtain ⟨⟨ret, last⟩, hret, hrun⟩ := hrun
    have hparsed := h _ _ _ hret
    have hnamed (fallible : Bool) : WellNamed (.function params ret fallible) :=
      .function (fun p hp => (hall p hp).1) hparsed.wellNamed
    change matchErr params ret last = some (r, rest) at hrun
    rw [matchErr.eq_def] at hrun
    split at hrun
    · cases hrun
      have hfull := hparsed.full rfl
      refine ⟨hnamed true, .function (fun p hp => (hall p hp).2) hparsed.stacked (fun _ => hfull), ?_⟩
      intro _
      exact congrArg (· + 1) hfull
    · next hother =>
      cases hrun
      refine ⟨hnamed false, .function (fun p hp => (hall p hp).2) hparsed.stacked
        (fun hfalse => by cases hfalse), ?_⟩
      intro herr
      obtain ⟨tail, htail⟩ := List.head?_eq_some_iff.mp herr
      exact absurd htail (hother tail)
  · cases hrun

theorem Parses.step (h : Parses parser) (turns : ℕ) : Parses (parseTypeStep parser turns) := by
  intro tokens r rest hrun
  rw [parseTypeStep.eq_def] at hrun
  split at hrun
  · rw [Option.bind_eq_bind, Option.bind_eq_some_iff] at hrun
    obtain ⟨⟨inner, last⟩, hinner, hrun⟩ := hrun
    cases hrun
    have hparsed := h _ _ _ hinner
    exact ⟨hparsed.wellNamed.pointer, hparsed.stacked.pointer, hparsed.full⟩
  · exact h.function turns _ _ _ hrun
  · rw [Option.bind_eq_bind, Option.bind_eq_some_iff] at hrun
    obtain ⟨⟨inner, last⟩, hinner, hrun⟩ := hrun
    cases hrun
    have hparsed := h _ _ _ hinner
    exact ⟨hparsed.wellNamed.pointer, hparsed.stacked.pointer, hparsed.full⟩
  · rw [Option.bind_eq_bind, Option.bind_eq_some_iff] at hrun
    obtain ⟨⟨elem, last⟩, helem, hrun⟩ := hrun
    cases hrun
    have hparsed := h _ _ _ helem
    exact ⟨hparsed.wellNamed.slice, hparsed.stacked.slice, hparsed.full⟩
  · rw [Option.bind_eq_bind, Option.bind_eq_some_iff] at hrun
    obtain ⟨⟨elem, last⟩, helem, hrun⟩ := hrun
    cases hrun
    have hparsed := h _ _ _ helem
    exact ⟨hparsed.wellNamed.array, hparsed.stacked.array, hparsed.full⟩
  · exact h.application turns (isTypeName_qualified _ _) _ _ _ hrun
  · cases hrun
  · exact h.application turns (Identifier.isTypeName _) _ _ _ hrun
  · cases hrun

theorem parses_parseType (fuel : ℕ) : Parses (parseType fuel) := by
  induction fuel with
  | zero => exact fun _ _ _ hrun => nomatch hrun
  | succ fuel ih => exact ih.step fuel

theorem Built.parsed {r : TypeRef} (h : Built r) : WellNamed r ∧ Stacked r := by
  obtain ⟨fuel, tokens, rest, hrun⟩ := h
  have hparsed := parses_parseType fuel _ _ _ hrun
  exact ⟨hparsed.wellNamed, hparsed.stacked⟩

end Parsed

section Assigning

theorem spine_assign (k : ℕ) (r : TypeRef) : spine (assign k r) = spine r := by
  cases r with
  | named name => rfl
  | pointer inner nullable => exact spine_assign k inner
  | slice elem => exact spine_assign k elem
  | array length elem => exact spine_assign k elem
  | function params ret fallible => exact congrArg (· + 1) (spine_assign (k - 1) ret)
  | generic base args => rfl

theorem trailing_assign {k : ℕ} {r : TypeRef} (hk : k ≤ spine r) : trailing (assign k r) = k := by
  cases r with
  | named name => exact (Nat.le_zero.mp hk).symm
  | pointer inner nullable => exact trailing_assign (r := inner) hk
  | slice elem => exact trailing_assign (r := elem) hk
  | array length elem => exact trailing_assign (r := elem) hk
  | function params ret fallible =>
    have ih := trailing_assign (k := k - 1) (r := ret) (Nat.sub_le_of_le_add hk)
    rw [assign, trailing, ih]
    by_cases hpos : 0 < k <;> simp [hpos] <;> omega
  | generic base args => exact (Nat.le_zero.mp hk).symm

theorem trailing_reread (r : TypeRef) : trailing (reread r) = trailing r :=
  trailing_assign (trailing_le r)

theorem body_assign {r : TypeRef} (h : WellNamed r) (k : ℕ) : body (assign k r) = body r := by
  have htexts {ts : List TypeRef} (ih : ∀ t ∈ ts, ∀ k, body (assign k t) = body t) :
      (rereadAll ts).map text = ts.map text := by
    rw [rereadAll_eq, List.map_map]
    refine List.map_congr_left ?_
    intro t ht
    rw [Function.comp_apply, text_eq, text_eq, trailing_reread, reread, ih t ht]
  induction h generalizing k with
  | named _ => rfl
  | @pointer inner nullable _ ih => rw [assign, body, body, ih]
  | @slice elem _ ih => rw [assign, body, body, ih]
  | @array n elem _ ih => rw [assign, body, body, ih]
  | @function params ret fallible _ _ ihp ihr =>
    rw [assign, body, body, htexts ihp, ihr]
  | @generic name args _ _ ih => rw [assign, body, body, htexts ih]

/-- What is read back is printed with the same text. -/
theorem typeKey_reread {r : TypeRef} (h : WellNamed r) : typeKey (reread r) = typeKey r := by
  have htext : text (reread r) = text r := by
    rw [text_eq, text_eq, trailing_reread, reread, body_assign h]
  exact String.toList_injective htext

/-- A type is read back as it is where none of its function types is fallible behind one that is
    not. -/
theorem reread_eq_iff {r : TypeRef} (h : WellNamed r) : reread r = r ↔ Uniform r := by
  have hall {ts : List TypeRef} (ih : ∀ t ∈ ts, (reread t = t ↔ Uniform t)) :
      rereadAll ts = ts ↔ ∀ t ∈ ts, Uniform t := by
    have hmap : ts.map reread = ts ↔ ∀ t ∈ ts, reread t = t := by
      conv_lhs => rw [← List.map_id' ts, List.map_map]
      exact List.map_inj_left
    rw [rereadAll_eq, hmap]
    exact forall₂_congr ih
  induction h with
  | named _ => exact ⟨fun _ => .named, fun _ => rfl⟩
  | @pointer inner nullable _ ih =>
    have hstep : reread (.pointer inner nullable) = .pointer (reread inner) nullable := rfl
    rw [hstep, TypeRef.pointer.injEq, and_iff_left rfl]
    exact ih.trans ⟨.pointer, fun h => by cases h; assumption⟩
  | @slice elem _ ih =>
    have hstep : reread (.slice elem) = .slice (reread elem) := rfl
    rw [hstep, TypeRef.slice.injEq]
    exact ih.trans ⟨.slice, fun h => by cases h; assumption⟩
  | @array n elem _ ih =>
    have hstep : reread (.array n elem) = .array n (reread elem) := rfl
    rw [hstep, TypeRef.array.injEq, and_iff_right rfl]
    exact ih.trans ⟨.array, fun h => by cases h; assumption⟩
  | @function params ret fallible _ _ ihp ihr =>
    rw [reread, assign, TypeRef.function.injEq, hall ihp]
    constructor
    · rintro ⟨hparams, hret, hfallible⟩
      have hnone : fallible = false → trailing ret = 0 := by
        rintro rfl
        simpa [trailing] using hfallible
      have hk : trailing (.function params ret fallible) - 1 = trailing ret := by
        cases fallible with
        | true => exact Nat.add_sub_cancel _ _
        | false => simp [trailing, hnone rfl]
      rw [hk] at hret
      exact .function hparams (ihr.mp hret) hnone
    · intro hu
      cases hu with
      | function hparams hret hnone =>
        have hret' := ihr.mpr hret
        rw [reread] at hret'
        cases fallible with
        | true => exact ⟨hparams, hret', by simp [trailing]⟩
        | false =>
          have hzero := hnone rfl
          rw [hzero] at hret'
          refine ⟨hparams, ?_, ?_⟩ <;> simp [trailing, hzero, hret']
  | @generic name args _ _ ih =>
    have hstep : reread (.generic (.named name) args) = .generic (.named name) (rereadAll args) := rfl
    rw [hstep, TypeRef.generic.injEq, and_iff_right rfl]
    exact (hall ih).trans ⟨.generic, fun h => by cases h; assumption⟩

/-- What the texts leave open is decided by the order in which the parser gives out `err`. -/
theorem eq_of_assign_eq {r s : TypeRef} {k l : ℕ} (hr : WellNamed r) (hs : WellNamed s)
    (hrs : Stacked r) (hss : Stacked s) (heq : assign k r = assign l s)
    (htrailing : trailing r = trailing s) : r = s := by
  induction hr generalizing s k l with
  | named _ =>
    cases s <;> simp only [assign, TypeRef.named.injEq, reduceCtorEq] at heq
    rw [heq]
  | pointer _ ih =>
    cases s <;> simp only [assign, TypeRef.pointer.injEq, reduceCtorEq] at heq
    cases hrs with
    | pointer hrs =>
      cases hss with
      | pointer hss =>
        cases hs with
        | pointer hs => rw [ih hs hrs hss heq.1 htrailing, heq.2]
  | slice _ ih =>
    cases s <;> simp only [assign, TypeRef.slice.injEq, reduceCtorEq] at heq
    cases hrs with
    | slice hrs =>
      cases hss with
      | slice hss =>
        cases hs with
        | slice hs => rw [ih hs hrs hss heq htrailing]
  | array _ ih =>
    cases s <;> simp only [assign, TypeRef.array.injEq, reduceCtorEq] at heq
    cases hrs with
    | array hrs =>
      cases hss with
      | array hss =>
        cases hs with
        | array hs => rw [heq.1, ih hs hrs hss heq.2 htrailing]
  | @function params ret fallible _ _ ihp ihr =>
    cases s <;> simp only [assign, TypeRef.function.injEq, reduceCtorEq] at heq
    rename_i params' ret' fallible'
    obtain ⟨hparams, hret, -⟩ := heq
    cases hrs with
    | function hrp hrr hrf =>
      cases hss with
      | function hsp hsr hsf =>
        cases hs with
        | function hsp' hsr' =>
          have hspine : spine ret = spine ret' := by
            rw [← spine_assign (k - 1) ret, hret, spine_assign]
          have hle := trailing_le ret
          have hle' := trailing_le ret'
          have hflag : fallible = fallible' ∧ trailing ret = trailing ret' := by
            unfold Full at hrf hsf
            cases fallible <;> cases fallible' <;> simp [trailing] at htrailing hrf hsf ⊢ <;> omega
          have hitems : params = params' := by
            rw [rereadAll_eq, rereadAll_eq] at hparams
            have hlength : params.length = params'.length := by
              simpa using congrArg List.length hparams
            refine List.ext_getElem hlength ?_
            intro i hi hi'
            have hitem : reread params[i] = reread params'[i] := by
              have hget := congrArg (fun ts => ts[i]?) hparams
              simpa [hi, hi'] using hget
            have hcount : trailing params[i] = trailing params'[i] := by
              rw [← trailing_reread, hitem, trailing_reread]
            exact ihp _ (List.getElem_mem hi) (hsp' _ (List.getElem_mem hi'))
              (hrp _ (List.getElem_mem hi)) (hsp _ (List.getElem_mem hi')) hitem hcount
          rw [hitems, ihr hsr' hrr hsr hret hflag.2, hflag.1]
  | @generic name args _ _ iha =>
    cases s <;> simp only [assign, TypeRef.generic.injEq, reduceCtorEq] at heq
    rename_i base' args'
    obtain ⟨hbase, hargs⟩ := heq
    cases hrs with
    | generic hra =>
      cases hss with
      | generic hsa =>
        cases hs with
        | generic _ hsa' =>
          have hitems : args = args' := by
            rw [rereadAll_eq, rereadAll_eq] at hargs
            have hlength : args.length = args'.length := by
              simpa using congrArg List.length hargs
            refine List.ext_getElem hlength ?_
            intro i hi hi'
            have hitem : reread args[i] = reread args'[i] := by
              have hget := congrArg (fun ts => ts[i]?) hargs
              simpa [hi, hi'] using hget
            have hcount : trailing args[i] = trailing args'[i] := by
              rw [← trailing_reread, hitem, trailing_reread]
            exact iha _ (List.getElem_mem hi) (hsa' _ (List.getElem_mem hi'))
              (hra _ (List.getElem_mem hi)) (hsa _ (List.getElem_mem hi')) hitem hcount
          rw [hbase, hitems]

/-- No two types of a program have one key. -/
theorem typeKey_inj {r s : TypeRef} (hr : Built r) (hs : Built s) (h : typeKey r = typeKey s) :
    r = s := by
  obtain ⟨hrn, hrs⟩ := Built.parsed hr
  obtain ⟨hsn, hss⟩ := Built.parsed hs
  rw [typeKey, typeKey] at h
  have hread : some (reread r) = some (reread s) := by
    rw [← parseTypeRef_format hrn, ← parseTypeRef_format hsn, h]
  have heq := Option.some.inj hread
  have htrailing : trailing r = trailing s := by
    rw [← trailing_reread, heq, trailing_reread]
  exact eq_of_assign_eq hrn hsn hrs hss heq htrailing

end Assigning

section Keys

/-- A type of a program is read back from its text and has a key of its own. -/
def Distinguished (r : TypeRef) : Prop :=
  parseTypeRef (formatTypeRef r) = some r ∧ ∀ s, Built s → typeKey s = typeKey r → s = r

/-- Of the types of a program, those are distinguished in which no fallible function type stands at
    the end of the result of one that is not fallible. -/
theorem distinguished_iff_uniform {r : TypeRef} (h : Built r) : Distinguished r ↔ Uniform r := by
  have hnamed := (Built.parsed h).1
  have hread : parseTypeRef (formatTypeRef r) = some r ↔ Uniform r := by
    rw [parseTypeRef_format hnamed, Option.some.injEq]
    exact reread_eq_iff hnamed
  constructor
  · intro hdistinguished
    exact hread.mp hdistinguished.1
  · intro huniform
    exact ⟨hread.mpr huniform, fun s hs hkey => typeKey_inj hs h hkey⟩

def wordI32 : Identifier := ⟨"i32", by decide, by decide⟩

/-- `fun() i32 err`. -/
theorem fallible_built : Built (.function [] (.named "i32") true) :=
  ⟨2, [.fn, .lparen, .rparen, .ident wordI32, .err], [], rfl⟩

theorem fallible_distinguished : Distinguished (.function [] (.named "i32") true) :=
  (distinguished_iff_uniform fallible_built).mpr
    (.function (fun _ hp => absurd hp List.not_mem_nil) .named (fun h => nomatch h))

/-- `fun() fun() i32 err`. -/
theorem inner_fallible_built :
    Built (.function [] (.function [] (.named "i32") true) false) :=
  ⟨3, [.fn, .lparen, .rparen, .fn, .lparen, .rparen, .ident wordI32, .err], [], rfl⟩

theorem inner_fallible_not_distinguished :
    ¬ ∀ r, Built r → Distinguished r := by
  intro hall
  have hread := (hall _ inner_fallible_built).1
  rw [parseTypeRef_format (Built.parsed inner_fallible_built).1] at hread
  exact absurd (Option.some.inj hread) (by decide)

end Keys

end NewClLang.TypeRoundTrip
