import NewClLang.ComparableValues
import NewClLang.MatchExpressions

set_option autoImplicit false

/-!
# The arm that a match selects

An accepted `match` runs the first arm whose pattern equals the value, unless a value of an arm
would have to be converted, or no variant of the enum has the value zero.
-/
namespace NewClLang.MatchSelection
open TypeRefs Comparisons ComparableValues MatchExpressions
open AssociationLists (lookup_of_mem)

section Strings

theorem memcmp_eq_zero (a b : List UInt8) (h : a.length = b.length) :
    memcmp b.length a b = 0 ↔ a = b := by
  induction a generalizing b with
  | nil => simp [List.length_eq_zero_iff.mp h.symm, memcmp]
  | cons x a ih =>
    cases b with
    | nil => cases h
    | cons y b =>
      rw [List.length_cons, memcmp]
      split_ifs with heq
      · rw [ih b (Nat.succ.inj h), heq]
        simp
      · have hne : x.toNat ≠ y.toNat := fun h' => heq (UInt8.toNat_inj.mp h')
        simp only [List.cons.injEq, heq, false_and, iff_false]
        omega

theorem strEq_iff_eq (a b : List UInt8) : strEq a b ≠ 0 ↔ a = b := by
  by_cases h : a.length = b.length
  · have hzero := memcmp_eq_zero a b h
    by_cases hempty : b.length = 0
    · have hb := List.length_eq_zero_iff.mp hempty
      have ha := List.length_eq_zero_iff.mp (h.trans hempty)
      simp [strEq, ha, hb]
    · by_cases heq : a = b
      · subst heq
        simp [strEq, hempty, hzero.mpr rfl]
      · have hcmp : memcmp b.length a b ≠ 0 := fun h' => heq (hzero.mp h')
        simp [strEq, h, hempty, hcmp, heq]
  · have hne : a ≠ b := fun heq => h (congrArg List.length heq)
    simp [strEq, h, hne]

end Strings

section Patterns
variable {d : Program} {t : TypeRef} {v : Subject}

theorem enumVariants_eq_some {variants : List String} (h : enumVariants d t = some variants) :
    ∃ name, t = .named name ∧ d.declared name = some (.enum variants) := by
  cases t with
  | named name =>
    simp only [enumVariants] at h
    split at h
    · next hdeclared =>
      cases h
      exact ⟨name, rfl, hdeclared⟩
    · cases h
  | _ => cases h

theorem enumVariants_builtin {name : String} (h : name ∈ builtinTypes) :
    enumVariants d (.named name) = none := by
  rw [enumVariants, d.apart name h]

/-- A pattern of the scrutinee's type. -/
def Fits (d : Program) (t : TypeRef) (p : Pattern) : Prop :=
  (∀ enum variant, p = .enumRef enum variant →
    ∃ variants, enumVariants d (.named enum) = some variants ∧ variant ∈ variants) ∧
  (if t = .named "error" then p.type = str else p.type = t)

theorem eq_of_assignable {actual expected : TypeRef} (herror : expected ≠ .named "error")
    (hpointer : Comparisons.isPointer actual = false) (hnil : actual ≠ nil)
    (h : isAssignable d.toDeclarations actual expected = true) : actual = expected := by
  by_contra hne
  simp only [isAssignable, if_neg hne] at h
  rw [if_neg (fun hboth => herror hboth.2)] at h
  cases expected with
  | named name =>
    dsimp only at h
    split_ifs at h
    have himplements := d.pointers_implement actual name h
    rw [hpointer] at himplements
    cases himplements
  | pointer inner nullable =>
    cases nullable with
    | false => cases h
    | true =>
      simp only [Bool.or_eq_true, decide_eq_true_eq] at h
      rcases h with h | h
      · exact hnil h
      · rw [h] at hpointer
        cases hpointer
  | _ => cases h

theorem fits_of_accepted {seen : Seen} {p : Pattern} (h : acceptsPattern d t seen p = true) :
    Fits d t p := by
  simp only [acceptsPattern, Bool.and_eq_true] at h
  obtain ⟨⟨hvariant, htype⟩, -⟩ := h
  have henum : ∀ enum variant, p = .enumRef enum variant →
      ∃ variants, enumVariants d (.named enum) = some variants ∧ variant ∈ variants := by
    rintro enum variant rfl
    dsimp only at hvariant
    split at hvariant
    · next variants hvariants => exact ⟨variants, hvariants, List.contains_iff_mem.mp hvariant⟩
    · cases hvariant
  refine ⟨henum, ?_⟩
  by_cases herror : t = .named "error"
  · rw [if_pos herror] at htype ⊢
    exact of_decide_eq_true htype
  · rw [if_neg herror] at htype ⊢
    refine eq_of_assignable herror ?_ ?_ htype
    · cases p <;> rfl
    · cases p with
      | enumRef enum variant =>
        intro hnil
        obtain ⟨variants, hvariants, -⟩ := henum enum variant rfl
        cases hnil
        rw [enumVariants_builtin (by decide)] at hvariants
        cases hvariants
      | integer value type =>
        intro hnil
        have hmem := type.2
        rw [TypeRef.named.inj hnil] at hmem
        exact absurd hmem (by decide)
      | string text => exact fun hnil => absurd (TypeRef.named.inj hnil) (by decide)
      | bool value => exact fun hnil => absurd (TypeRef.named.inj hnil) (by decide)

theorem variantIndex_of_mem {variants : List String} {variant : String} (h : variant ∈ variants)
    (i : ℕ) : ∃ j, variantIndex i variants variant = some j := by
  induction variants generalizing i with
  | nil => cases h
  | cons name names ih =>
    rw [variantIndex]
    rcases List.mem_cons.mp h with rfl | h
    · cases variantIndex (i + 1) names variant with
      | some j => exact ⟨j, rfl⟩
      | none => exact ⟨i, by simp⟩
    · obtain ⟨j, hj⟩ := ih h (i + 1)
      exact ⟨j, by rw [hj]⟩

theorem mem_of_variantIndex {variants : List String} {variant : String} {i j : ℕ}
    (h : variantIndex i variants variant = some j) : variant ∈ variants := by
  induction variants generalizing i j with
  | nil => cases h
  | cons name names ih =>
    rw [variantIndex] at h
    cases hrest : variantIndex (i + 1) names variant with
    | some k => exact List.mem_cons_of_mem _ (ih hrest)
    | none =>
      rw [hrest] at h
      dsimp only at h
      split_ifs at h with hname
      exact hname ▸ List.mem_cons_self

theorem intWidth_integer {name : String} (h : name ∈ integerTypes) :
    ∃ w, intWidth name = some w := by
  have hall : ∀ n ∈ integerTypes, (intWidth n).isSome = true := by decide
  exact Option.isSome_iff_exists.mp (hall name h)

/-- The condition that is emitted for a pattern says whether it equals the value. -/
theorem matchCondition_eq {p : Pattern} (hfits : Fits d t p) (hv : Takes d t v) :
    matchCondition d t v p = some (decide (Matches d p v)) := by
  obtain ⟨hvariant, htype⟩ := hfits
  by_cases herror : t = .named "error"
  · subst herror
    rw [if_pos rfl] at htype
    simp only [Takes, enumVariants_builtin (show "error" ∈ builtinTypes by decide),
      llvmType_error, if_true] at hv
    obtain ⟨message, rfl⟩ := hv
    cases p with
    | string text =>
      have hstr := strEq_iff_eq message text
      simp only [matchCondition, if_true, patternValue, Matches, Pattern.string.injEq]
      exact congrArg some (decide_eq_decide.mpr (hstr.trans eq_comm))
    | enumRef enum variant =>
      obtain ⟨variants, hvariants, -⟩ := hvariant enum variant rfl
      rw [TypeRef.named.inj htype, enumVariants_builtin (by decide)] at hvariants
      cases hvariants
    | integer value type =>
      have hmem := type.2
      rw [TypeRef.named.inj htype] at hmem
      exact absurd hmem (by decide)
    | bool value => exact absurd htype (by simp [Pattern.type, str])
  · rw [if_neg herror] at htype
    subst htype
    cases p with
    | string text =>
      have hnone : enumVariants d (.named "str") = none := enumVariants_builtin (by decide)
      simp only [Pattern.type, str, Takes, hnone] at hv
      obtain ⟨text', rfl⟩ := hv
      have hstr := strEq_iff_eq text' text
      have hvalue : patternValue d (.string text) = some (.str text) := rfl
      have hcondition : matchCondition d str (.str text') (.string text) =
          some (decide (strEq text' text ≠ 0)) := by simp [matchCondition, str, hvalue]
      rw [Pattern.type, hcondition]
      simp only [Matches, hvalue, Option.some.injEq, Subject.str.injEq]
      exact decide_eq_decide.mpr (hstr.trans eq_comm)
    | enumRef enum variant =>
      obtain ⟨variants, hvariants, hmem⟩ := hvariant enum variant rfl
      simp only [Pattern.type, Takes, hvariants] at hv
      obtain ⟨bits, rfl, -⟩ := hv
      obtain ⟨j, hj⟩ := variantIndex_of_mem hmem 0
      have hstr : TypeRef.named enum ≠ str := by
        rintro heq
        rw [heq, str, enumVariants_builtin (by decide)] at hvariants
        cases hvariants
      have hvalue :
          patternValue d (.enumRef enum variant) = some (.int 32 (BitVec.ofNat 32 j)) := by
        simp [patternValue, hvariants, variantValue, hj]
      simp only [Pattern.type] at herror
      simp [matchCondition, Pattern.type, herror, hstr, hvalue, Matches, eq_comm]
    | integer value type =>
      obtain ⟨w, hw⟩ := intWidth_integer type.2
      have hlayout : llvmType d.toDeclarations (.named type.1) = .int w := by simp [llvmType, hw]
      have hnone : enumVariants d (.named type.1) = none :=
        enumVariants_builtin (List.mem_append_left _ (List.mem_append_left _ type.2))
      simp only [Pattern.type, Takes, hnone, hlayout] at hv
      obtain ⟨bits, rfl⟩ := hv
      have hstr : TypeRef.named type.1 ≠ str := by
        intro heq
        have hmem := type.2
        rw [TypeRef.named.inj heq] at hmem
        exact absurd hmem (by decide)
      have hvalue :
          patternValue d (.integer value type) = some (.int w (BitVec.ofInt w value)) := by
        simp [patternValue, hw]
      simp only [Pattern.type] at herror
      simp [matchCondition, Pattern.type, herror, hstr, hvalue, Matches, eq_comm]
    | bool value =>
      have hnone : enumVariants d (.named "bool") = none := enumVariants_builtin (by decide)
      have hlayout : llvmType d.toDeclarations (.named "bool") = .int 1 := rfl
      simp only [Pattern.type, Takes, hnone, hlayout] at hv
      obtain ⟨bits, rfl⟩ := hv
      have hstr : TypeRef.named "bool" ≠ str := by decide
      simp only [Pattern.type] at herror
      simp [matchCondition, Pattern.type, herror, hstr, patternValue, Matches, eq_comm]

end Patterns

section Chains
variable {σ β : Type} {d : Program} {t : TypeRef} {v : Subject}

/-- The labels of the arms from the `i`-th on. -/
def Label.From (i : ℕ) : Label → Prop
  | .start => False
  | .arm j => i ≤ j
  | .next j => i ≤ j

theorem Label.From.mono {i j : ℕ} (h : i ≤ j) {l : Label} (hl : Label.From j l) :
    Label.From i l := by
  cases l with
  | start => exact hl
  | arm k => exact h.trans hl
  | next k => exact h.trans hl

theorem emitArms_labels (arms : List (Arm σ β)) (i : ℕ) (current : Label) :
    ∀ p ∈ emitArms i current arms, p.1 = current ∨ Label.From i p.1 := by
  induction arms generalizing i current with
  | nil =>
    intro p hp
    rw [List.mem_singleton.mp hp]
    exact Or.inl rfl
  | cons arm arms ih =>
    intro p hp
    rw [emitArms, List.mem_cons, List.mem_cons] at hp
    rcases hp with rfl | rfl | hp
    · exact Or.inl rfl
    · exact Or.inr (Nat.le_refl i)
    · rcases ih (i + 1) (.next i) p hp with hlabel | hlabel
      · rw [hlabel]
        exact Or.inr (Nat.le_refl i)
      · exact Or.inr (hlabel.mono (Nat.le_succ i))

/-- No label is given to two blocks. -/
theorem emitArms_nodup (arms : List (Arm σ β)) (i : ℕ) (current : Label)
    (hcurrent : ¬ Label.From i current) : ((emitArms i current arms).map Prod.fst).Nodup := by
  induction arms generalizing i current with
  | nil => simp [emitArms]
  | cons arm arms ih =>
    have hnext : ¬ Label.From (i + 1) (.next i) := Nat.not_succ_le_self i
    have hlater : ∀ l ∈ (emitArms (i + 1) (.next i) arms).map Prod.fst,
        l = .next i ∨ Label.From (i + 1) l := by
      intro l hl
      obtain ⟨p, hp, rfl⟩ := List.mem_map.mp hl
      exact emitArms_labels arms (i + 1) (.next i) p hp
    rw [emitArms, List.map_cons, List.map_cons, List.nodup_cons, List.nodup_cons]
    refine ⟨?_, ?_, ih (i + 1) (.next i) hnext⟩
    · intro hmem
      rcases List.mem_cons.mp hmem with rfl | hmem
      · exact hcurrent (Nat.le_refl i)
      · rcases hlater current hmem with rfl | hfrom
        · exact hcurrent (Nat.le_refl i)
        · exact hcurrent (hfrom.mono (Nat.le_succ i))
    · intro hmem
      rcases hlater (.arm i) hmem with heq | hfrom
      · cases heq
      · exact Nat.not_succ_le_self i hfrom

/-- From the block of an arm on, the run comes to the first arm that matches. -/
theorem run_emitArms {blocks : List (Label × Code σ β)}
    (hnodup : (blocks.map Prod.fst).Nodup) (hv : Takes d t v) (s : σ) (arms : List (Arm σ β))
    (hfits : ∀ arm ∈ arms, ∀ p, arm.pattern = some p → Fits d t p) (i : ℕ) (current : Label)
    (hblocks : ∀ p ∈ emitArms i current arms, p ∈ blocks) (fuel : ℕ) :
    (∀ arm, firstMatch d v arms = some arm →
        ∃ fuel, run d t blocks v fuel current s = some (arm.run s)) ∧
      (firstMatch d v arms = none → run d t blocks v fuel current s = none) := by
  induction arms generalizing i current fuel with
  | nil =>
    have hcode := lookup_of_mem hnodup (hblocks _ List.mem_cons_self)
    refine ⟨fun arm h => (nomatch h), fun _ => ?_⟩
    cases fuel with
    | zero => rfl
    | succ fuel => simp [run, hcode]
  | cons arm arms ih =>
    have hcode := lookup_of_mem hnodup (hblocks _ List.mem_cons_self)
    have hbody := lookup_of_mem hnodup (hblocks _ (List.mem_cons_of_mem _ List.mem_cons_self))
    have hrun : ∀ fuel, run d t blocks v (fuel + 1) (.arm i) s = some (arm.run s) := by
      intro fuel
      simp only [run, hbody]
    have hrest := ih (fun a ha => hfits a (List.mem_cons_of_mem _ ha)) (i + 1) (.next i)
      (fun p hp => hblocks p (List.mem_cons_of_mem _ (List.mem_cons_of_mem _ hp)))
    cases hpattern : arm.pattern with
    | none =>
      rw [hpattern] at hcode
      have hfirst : firstMatch d v (arm :: arms) = some arm := by simp [firstMatch, hpattern]
      rw [hfirst]
      constructor
      · rintro _ ⟨⟩
        exact ⟨2, by simp only [run, hcode]; exact hrun 0⟩
      · exact fun h => nomatch h
    | some p =>
      rw [hpattern] at hcode
      have hcondition := matchCondition_eq (hfits arm List.mem_cons_self p hpattern) hv
      by_cases hmatches : Matches d p v
      · rw [decide_eq_true hmatches] at hcondition
        have hfirst : firstMatch d v (arm :: arms) = some arm := by
          simp [firstMatch, hpattern, hmatches]
        rw [hfirst]
        constructor
        · rintro _ ⟨⟩
          exact ⟨2, by simp only [run, hcode, hcondition]; exact hrun 0⟩
        · exact fun h => nomatch h
      · rw [decide_eq_false hmatches] at hcondition
        have hfirst : firstMatch d v (arm :: arms) = firstMatch d v arms := by
          simp [firstMatch, hpattern, hmatches]
        rw [hfirst]
        constructor
        · intro a ha
          obtain ⟨fuel', hfuel⟩ := (hrest 0).1 a ha
          exact ⟨fuel' + 1, by simp only [run, hcode, hcondition]; exact hfuel⟩
        · intro hnone
          cases fuel with
          | zero => rfl
          | succ fuel =>
            simp only [run, hcode, hcondition]
            exact (hrest fuel).2 hnone

end Chains

section Checks
variable {σ β : Type} {d : Program} {t : TypeRef} {seen seen' : Seen} {arms : List (Arm σ β)}

theorem mergeValueTypes_spec {left : Option TypeRef} {right result : TypeRef}
    (h : mergeValueTypes d left right = some result) :
    (∀ t, left = some t → t = never ∨ t = result) ∧ (result = never → right = never) ∧
      (right = never ∨ isAssignable d.toDeclarations right result = true) := by
  have hself : ∀ u, isAssignable d.toDeclarations u u = true := fun u => by simp [isAssignable]
  cases left with
  | none =>
    cases h
    exact ⟨(fun _ h => by cases h), id, Or.inr (hself _)⟩
  | some left =>
    simp only [mergeValueTypes] at h
    split_ifs at h with hleft hright hassign
    · cases h
      exact ⟨fun _ h => by cases h; exact Or.inl hleft, id, Or.inr (hself _)⟩
    · cases h
      exact ⟨fun _ h => by cases h; exact Or.inr rfl, fun _ => hright, Or.inl hright⟩
    · cases h
      exact ⟨fun _ h => by cases h; exact Or.inr rfl, fun h => absurd h hleft, Or.inr hassign⟩

/-- What one turn of the loop has checked. -/
theorem checkArm_cases {isLast : Bool} {arm : Arm σ β}
    (h : checkArm d t isLast seen arm = some seen') :
    ∃ result, mergeValueTypes d seen.result arm.type = some result ∧ seen'.result = some result ∧
      ((arm.pattern = none ∧ seen'.seenElse = true ∧ seen'.variants = seen.variants) ∨
        ∃ p, arm.pattern = some p ∧ acceptsPattern d t seen p = true ∧ seen'.seenElse = false ∧
          seen'.variants = p.variant?.toList ++ seen.variants) := by
  unfold checkArm at h
  by_cases helse : seen.seenElse = true
  · rw [if_pos helse] at h
    cases h
  rw [if_neg helse] at h
  cases hpattern : arm.pattern with
  | none =>
    rw [hpattern] at h
    dsimp only at h
    by_cases hlast : (!isLast) = true
    · rw [if_pos hlast] at h
      cases h
    rw [if_neg hlast] at h
    simp only [Option.bind_eq_bind, Option.bind_eq_some_iff] at h
    obtain ⟨result, hresult, heq⟩ := h
    cases heq
    exact ⟨result, hresult, rfl, Or.inl ⟨rfl, rfl, rfl⟩⟩
  | some p =>
    rw [hpattern] at h
    dsimp only at h
    by_cases haccepts : (!acceptsPattern d t seen p) = true
    · rw [if_pos haccepts] at h
      cases h
    rw [if_neg haccepts] at h
    simp only [Option.bind_eq_bind, Option.bind_eq_some_iff] at h
    obtain ⟨result, hresult, heq⟩ := h
    cases heq
    have haccepted : acceptsPattern d t seen p = true := by simpa using haccepts
    exact ⟨result, hresult, rfl, Or.inr ⟨p, rfl, haccepted, rfl, rfl⟩⟩

theorem checkArms_cons {arm : Arm σ β} (h : checkArms d t seen (arm :: arms) = some seen') :
    ∃ middle, checkArm d t arms.isEmpty seen arm = some middle ∧
      checkArms d t middle arms = some seen' := by
  simpa [checkArms, Option.bind_eq_some_iff] using h

theorem checkArms_fits (h : checkArms d t seen arms = some seen') :
    ∀ arm ∈ arms, ∀ p, arm.pattern = some p → Fits d t p := by
  induction arms generalizing seen with
  | nil => exact fun arm harm => (nomatch harm)
  | cons arm arms ih =>
    obtain ⟨middle, hfirst, hrest⟩ := checkArms_cons h
    intro a ha p hp
    rcases List.mem_cons.mp ha with rfl | ha
    · obtain ⟨_, -, -, ⟨hnone, -⟩ | ⟨q, hq, haccepts, -⟩⟩ := checkArm_cases hfirst
      · rw [hnone] at hp
        cases hp
      · rw [hq] at hp
        cases hp
        exact fits_of_accepted haccepts
    · exact ih hrest a ha p hp

theorem checkArms_else (h : checkArms d t seen arms = some seen')
    (helse : seen'.seenElse = true) : seen.seenElse = true ∨ ∃ arm ∈ arms, arm.pattern = none := by
  induction arms generalizing seen with
  | nil =>
    cases h
    exact Or.inl helse
  | cons arm arms ih =>
    obtain ⟨middle, hfirst, hrest⟩ := checkArms_cons h
    refine Or.inr ?_
    rcases ih hrest with hmiddle | ⟨a, ha, hnone⟩
    · obtain ⟨_, -, -, ⟨hnone, -⟩ | ⟨q, -, -, hfalse, -⟩⟩ := checkArm_cases hfirst
      · exact ⟨arm, List.mem_cons_self, hnone⟩
      · rw [hfalse] at hmiddle
        cases hmiddle
    · exact ⟨a, List.mem_cons_of_mem _ ha, hnone⟩

theorem checkArms_variants (h : checkArms d t seen arms = some seen') {variant : String}
    (hvariant : variant ∈ seen'.variants) :
    variant ∈ seen.variants ∨ ∃ arm ∈ arms, ∃ enum, arm.pattern = some (.enumRef enum variant) := by
  induction arms generalizing seen with
  | nil =>
    cases h
    exact Or.inl hvariant
  | cons arm arms ih =>
    obtain ⟨middle, hfirst, hrest⟩ := checkArms_cons h
    rcases ih hrest with hmiddle | ⟨a, ha, henum⟩
    · obtain ⟨_, -, -, ⟨-, -, hsame⟩ | ⟨q, hq, -, -, hadded⟩⟩ := checkArm_cases hfirst
      · rw [hsame] at hmiddle
        exact Or.inl hmiddle
      · rw [hadded] at hmiddle
        rcases List.mem_append.mp hmiddle with hnew | hold
        · cases q with
          | enumRef enum v =>
            have heq : variant = v := by simpa [Pattern.variant?] using hnew
            subst heq
            exact Or.inr ⟨arm, List.mem_cons_self, enum, hq⟩
          | _ => simp [Pattern.variant?] at hnew
        · exact Or.inl hold
    · exact Or.inr ⟨a, List.mem_cons_of_mem _ ha, henum⟩

/-- The type of the result is that of the first arm that yields, and the others fit to it. -/
theorem checkArms_types (h : checkArms d t seen arms = some seen') {result : TypeRef}
    (hresult : seen'.result = some result) :
    (∀ u, seen.result = some u → u = never ∨ u = result) ∧
      ∀ arm ∈ arms, (result = never → arm.type = never) ∧
        (arm.type = never ∨ isAssignable d.toDeclarations arm.type result = true) := by
  induction arms generalizing seen with
  | nil =>
    cases h
    refine ⟨fun u hu => Or.inr ?_, fun arm harm => (nomatch harm)⟩
    rw [hresult] at hu
    cases hu
    rfl
  | cons arm arms ih =>
    obtain ⟨middle, hfirst, hrest⟩ := checkArms_cons h
    obtain ⟨first, hmerge, hmiddle, -⟩ := checkArm_cases hfirst
    obtain ⟨hold, hnever, hassign⟩ := mergeValueTypes_spec hmerge
    obtain ⟨hkept, harms⟩ := ih hrest
    have hstays := hkept first hmiddle
    constructor
    · intro u hu
      rcases hold u hu with hu | rfl
      · exact Or.inl hu
      · exact hstays
    · intro a ha
      rcases List.mem_cons.mp ha with rfl | ha
      · rcases hstays with rfl | rfl
        · have htype := hnever rfl
          exact ⟨fun _ => htype, Or.inl htype⟩
        · exact ⟨hnever, hassign⟩
      · exact harms a ha

end Checks

section Selection
variable {σ β : Type} {d : Program} {t result : TypeRef} {arms : List (Arm σ β)}

/-- A conversion that makes another value: a string becomes an error, a pointer an interface. -/
def NeedsConversion (d : Program) (actual expected : TypeRef) : Prop :=
  (actual = str ∧ expected = .named "error") ∨
    (actual ≠ expected ∧ ∃ name, expected = .named name ∧ d.declared name = some .iface)

/-- The values that come together need no conversion, and are not all `nil`. -/
def Unconverted (d : Program) (result : TypeRef) (arms : List (Arm σ β)) : Prop :=
  (∀ arm ∈ arms, arm.terminated = true) ∨ result = void ∨
    (result ≠ nil ∧ ∀ arm ∈ arms, arm.terminated = false → ¬ NeedsConversion d arm.type result)

def HasElse (arms : List (Arm σ β)) : Prop := ∃ arm ∈ arms, arm.pattern = none

/-- The value zero is that of a variant. -/
def ZeroNamed (d : Program) (t : TypeRef) : Prop :=
  ∀ variants, enumVariants d t = some variants →
    ∃ variant, variantValue variants variant = some 0

theorem castable_iff {actual : TypeRef}
    (h : isAssignable d.toDeclarations actual result = true) :
    Castable actual result ↔ ¬ NeedsConversion d actual result := by
  constructor
  · rintro (rfl | ⟨rfl, hpointer⟩ | ⟨inner, rfl, rfl⟩) (⟨hactual, hresult⟩ | ⟨hne, name, hname, -⟩)
    · rw [hresult] at hactual
      exact absurd hactual (by decide)
    · exact hne rfl
    · exact absurd hactual (by decide)
    · rw [hname] at hpointer
      cases hpointer
    · cases hactual
    · cases hname
  · intro hnot
    rcases isAssignable_cases h with
      rfl | ⟨rfl, rfl⟩ | ⟨name, rfl, hdeclared⟩ | ⟨inner, rfl, hactual⟩
    · exact Or.inl rfl
    · exact absurd (Or.inl ⟨rfl, rfl⟩) hnot
    · by_cases heq : actual = .named name
      · exact Or.inl heq
      · exact absurd (Or.inr ⟨heq, name, rfl, hdeclared⟩) hnot
    · rcases hactual with rfl | rfl
      · exact Or.inr (Or.inl ⟨rfl, rfl⟩)
      · exact Or.inr (Or.inr ⟨inner, rfl, rfl⟩)

/-- What an accepted match is known to be. -/
theorem accepted_spec (h : inferMatchValue d t arms = some result) :
    (∀ arm ∈ arms, ∀ p, arm.pattern = some p → Fits d t p) ∧
      (∀ arm ∈ arms, arm.terminated = false →
        isAssignable d.toDeclarations arm.type result = true) ∧
      (¬ HasElse arms → t ≠ .named "error" ∧ ∃ variants, enumVariants d t = some variants ∧
        ∀ variant ∈ variants, ∃ arm ∈ arms, ∃ enum,
          arm.pattern = some (.enumRef enum variant)) := by
  unfold inferMatchValue at h
  by_cases hempty : arms.isEmpty = true
  · rw [if_pos hempty] at h
    cases h
  rw [if_neg hempty] at h
  cases hcheck : checkArms d t ⟨none, false, [], []⟩ arms with
  | none =>
    rw [hcheck] at h
    cases h
  | some seen =>
    rw [hcheck] at h
    dsimp only at h
    have hcovered : seen.result = some result ∧ (¬ seen.seenElse = true →
        t ≠ .named "error" ∧ ∃ variants, enumVariants d t = some variants ∧
          variants.all seen.variants.contains = true) := by
      by_cases helse : seen.seenElse = true
      · rw [if_pos helse] at h
        exact ⟨h, absurd helse⟩
      · rw [if_neg helse] at h
        by_cases herror : t = .named "error"
        · rw [if_pos herror] at h
          cases h
        rw [if_neg herror] at h
        cases hvariants : enumVariants d t with
        | none =>
          rw [hvariants] at h
          cases h
        | some variants =>
          rw [hvariants] at h
          dsimp only at h
          by_cases hall : variants.all seen.variants.contains = true
          · rw [if_pos hall] at h
            exact ⟨h, fun _ => ⟨herror, variants, rfl, hall⟩⟩
          · rw [if_neg hall] at h
            cases h
    obtain ⟨hresult, hrest⟩ := hcovered
    refine ⟨checkArms_fits hcheck, ?_, ?_⟩
    · intro arm harm hyields
      rcases ((checkArms_types hcheck hresult).2 arm harm).2 with hnever | hassign
      · rw [arm.terminated_of_never hnever] at hyields
        cases hyields
      · exact hassign
    · intro hnone
      have helse : ¬ seen.seenElse = true := by
        intro helse
        rcases checkArms_else hcheck helse with hfalse | hsome
        · cases hfalse
        · exact hnone hsome
      obtain ⟨herror, variants, hvariants, hall⟩ := hrest helse
      refine ⟨herror, variants, hvariants, ?_⟩
      intro variant hvariant
      have hseen := List.contains_iff_mem.mp (List.all_eq_true.mp hall variant hvariant)
      rcases checkArms_variants hcheck hseen with hold | hnew
      · cases hold
      · exact hnew

theorem firstMatch_some {v : Subject} {arm : Arm σ β} (h : firstMatch d v arms = some arm) :
    arm ∈ arms ∧ ∀ p, arm.pattern = some p → Matches d p v := by
  induction arms with
  | nil => cases h
  | cons a arms ih =>
    simp only [firstMatch] at h
    cases hpattern : a.pattern with
    | none =>
      rw [hpattern] at h
      cases h
      refine ⟨List.mem_cons_self, fun p hp => ?_⟩
      rw [hpattern] at hp
      cases hp
    | some p =>
      rw [hpattern] at h
      dsimp only at h
      split_ifs at h with hmatches
      · cases h
        refine ⟨List.mem_cons_self, fun q hq => ?_⟩
        rw [hpattern] at hq
        cases hq
        exact hmatches
      · obtain ⟨hmem, hall⟩ := ih h
        exact ⟨List.mem_cons_of_mem _ hmem, hall⟩

theorem firstMatch_isSome {v : Subject} {arm : Arm σ β} (harm : arm ∈ arms)
    (h : ∀ p, arm.pattern = some p → Matches d p v) : ∃ a, firstMatch d v arms = some a := by
  induction arms with
  | nil => cases harm
  | cons a arms ih =>
    cases hpattern : a.pattern with
    | none => exact ⟨a, by simp [firstMatch, hpattern]⟩
    | some p =>
      by_cases hmatches : Matches d p v
      · exact ⟨a, by simp [firstMatch, hpattern, hmatches]⟩
      · rcases List.mem_cons.mp harm with rfl | harm
        · exact absurd (h p hpattern) hmatches
        · obtain ⟨b, hb⟩ := ih harm
          exact ⟨b, by simp [firstMatch, hpattern, hmatches, hb]⟩

/-- A pattern that equals a value of an enum is one of its variants. -/
theorem variant_of_matches {variants : List String} {p : Pattern} {bits : BitVec 32}
    (ht : enumVariants d t = some variants) (hfits : Fits d t p)
    (h : Matches d p (.int 32 bits)) : ∃ variant, variantValue variants variant = some bits := by
  obtain ⟨name, rfl, hdeclared⟩ := enumVariants_eq_some ht
  obtain ⟨hnot, -⟩ := llvmType_declared hdeclared
  have htype := hfits.2
  rw [if_neg (fun heq => hnot (by rw [TypeRef.named.inj heq]; decide))] at htype
  cases p with
  | enumRef enum variant =>
    simp only [Matches, patternValue, TypeRef.named.inj htype, ht, Option.map_eq_some_iff,
      Subject.int.injEq, heq_eq_eq, true_and] at h
    obtain ⟨value, hvalue, rfl⟩ := h
    exact ⟨variant, hvalue⟩
  | integer value type =>
    have hmem := type.2
    rw [TypeRef.named.inj htype] at hmem
    exact absurd (List.mem_append_left _ (List.mem_append_left _ hmem)) hnot
  | string text => cases h
  | bool value =>
    have hname : "bool" = name := TypeRef.named.inj htype
    exact absurd (hname ▸ by decide) hnot

/-- An accepted match runs the first arm that equals the value, for every value, if and only if no
value of an arm needs a conversion and, without an `else`, the value zero is that of a variant. -/
theorem selects_iff_zeroNamed (h : inferMatchValue d t arms = some result) :
    Selects d t result arms ↔ Unconverted d result arms ∧ (HasElse arms ∨ ZeroNamed d t) := by
  obtain ⟨hfits, hassign, hcovered⟩ := accepted_spec h
  have hphi : PhiFormed result arms ↔ Unconverted d result arms := by
    have hall : (∀ arm ∈ arms, arm.terminated = false → Castable arm.type result) ↔
        ∀ arm ∈ arms, arm.terminated = false → ¬ NeedsConversion d arm.type result := by
      refine forall_congr' fun arm => forall_congr' fun harm => forall_congr' fun hyields => ?_
      exact castable_iff (hassign arm harm hyields)
    simp only [PhiFormed, Unconverted, hall]
  constructor
  · rintro ⟨hformed, hruns⟩
    refine ⟨hphi.mp hformed, ?_⟩
    by_cases helse : HasElse arms
    · exact Or.inl helse
    · refine Or.inr fun variants hvariants => ?_
      have htakes : Takes d t (.int 32 0) := by
        simp only [Takes, hvariants]
        exact ⟨0, rfl, Or.inl rfl⟩
      obtain ⟨arm, hfirst, -⟩ := hruns _ htakes
      obtain ⟨hmem, hmatches⟩ := firstMatch_some hfirst
      cases hpattern : arm.pattern with
      | none => exact absurd ⟨arm, hmem, hpattern⟩ helse
      | some p =>
        exact variant_of_matches hvariants (hfits arm hmem p hpattern) (hmatches p hpattern)
  · rintro ⟨hunconverted, hzero⟩
    refine ⟨hphi.mpr hunconverted, ?_⟩
    intro v hv
    have hfirst : ∃ arm, firstMatch d v arms = some arm := by
      by_cases helse : HasElse arms
      · obtain ⟨arm, harm, hnone⟩ := helse
        refine firstMatch_isSome harm fun p hp => ?_
        rw [hnone] at hp
        cases hp
      · obtain ⟨herror, variants, hvariants, hall⟩ := hcovered helse
        have hbits : ∃ bits variant, v = .int 32 bits ∧
            variantValue variants variant = some bits := by
          simp only [Takes, hvariants] at hv
          obtain ⟨bits, rfl, rfl | ⟨variant, hvariant⟩⟩ := hv
          · obtain ⟨variant, hvariant⟩ := (hzero.resolve_left helse) variants hvariants
            exact ⟨0, variant, rfl, hvariant⟩
          · exact ⟨bits, variant, rfl, hvariant⟩
        obtain ⟨bits, variant, rfl, hvariant⟩ := hbits
        obtain ⟨j, hj, -⟩ := Option.map_eq_some_iff.mp hvariant
        obtain ⟨arm, harm, enum, hpattern⟩ := hall variant (mem_of_variantIndex hj)
        refine firstMatch_isSome harm fun p hp => ?_
        rw [hpattern] at hp
        cases hp
        have htype := (hfits arm harm _ hpattern).2
        rw [if_neg herror] at htype
        simp only [Matches, patternValue]
        rw [show TypeRef.named enum = t from htype, hvariants]
        simp [hvariant]
    obtain ⟨arm, hfirst⟩ := hfirst
    refine ⟨arm, hfirst, fun scrut s s' hscrut => ?_⟩
    have hnodup := emitArms_nodup arms 0 .start (fun hfrom => hfrom)
    have hrun := run_emitArms hnodup hv s' arms hfits 0 .start (fun p hp => hp) 0
    simp only [runMatch, hscrut]
    exact hrun.1 arm hfirst

/-- A program that declares an enum of colors. -/
def colorProgram (variants : List String) : Program where
  declared name := if name = "Color" then some (.enum variants) else none
  implements _ _ := false
  orderMethod _ := none
  apart name h := by
    refine if_neg fun heq => ?_
    rw [heq] at h
    exact absurd h (by decide)
  pointers_implement _ _ h := nomatch h

/-- An arm that yields a string. -/
def colorArm (variant : String) (name : List UInt8) : Arm Unit (List UInt8) where
  pattern := some (.enumRef "Color" variant)
  type := str
  terminated := false
  run s := .yields name s
  terminated_of_never h := absurd h (by decide)

/-- `match color { Color::Red => "r", Color::Green => "g" }`. -/
def colorArms : List (Arm Unit (List UInt8)) := [colorArm "Red" [114], colorArm "Green" [103]]

theorem colors_select :
    inferMatchValue (colorProgram ["Red", "Green"]) (.named "Color") colorArms = some str ∧
      (Selects (colorProgram ["Red", "Green"]) (.named "Color") str colorArms ↔
        Unconverted (colorProgram ["Red", "Green"]) str colorArms ∧
          (HasElse colorArms ∨ ZeroNamed (colorProgram ["Red", "Green"]) (.named "Color"))) := by
  have haccepted :
      inferMatchValue (colorProgram ["Red", "Green"]) (.named "Color") colorArms = some str := by
    decide
  exact ⟨haccepted, selects_iff_zeroNamed haccepted⟩

/-- Where the first variant is repeated, the match is accepted without an `else`, and from the zero
that a map gives for a key it does not have the run comes to `unreachable`. -/
theorem repeatedColor_unreachable :
    inferMatchValue (colorProgram ["Red", "Green", "Red"]) (.named "Color") colorArms = some str ∧
      Takes (colorProgram ["Red", "Green", "Red"]) (.named "Color") (.int 32 0) ∧
      (∀ fuel, runMatch (colorProgram ["Red", "Green", "Red"]) (.named "Color")
        (fun s => .yields (.int 32 0) s) colorArms fuel () = none) ∧
      ¬ Selects (colorProgram ["Red", "Green", "Red"]) (.named "Color") str colorArms := by
  have haccepted : inferMatchValue (colorProgram ["Red", "Green", "Red"]) (.named "Color")
      colorArms = some str := by decide
  have htakes : Takes (colorProgram ["Red", "Green", "Red"]) (.named "Color") (.int 32 0) :=
    ⟨0, rfl, Or.inl rfl⟩
  have hfirst : firstMatch (colorProgram ["Red", "Green", "Red"]) (.int 32 0) colorArms = none := by
    decide
  obtain ⟨hfits, -, -⟩ := accepted_spec haccepted
  have hnodup := emitArms_nodup colorArms 0 .start (fun hfrom => hfrom)
  refine ⟨haccepted, htakes, ?_, ?_⟩
  · intro fuel
    exact (run_emitArms hnodup htakes () colorArms hfits 0 .start (fun p hp => hp) fuel).2 hfirst
  · intro hselects
    obtain ⟨arm, hsome, -⟩ := hselects.2 _ htakes
    rw [hfirst] at hsome
    cases hsome

end Selection

end NewClLang.MatchSelection
