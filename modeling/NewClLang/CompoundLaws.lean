import NewClLang.CompoundAssignments
import NewClLang.AccessCompilation
import NewClLang.ComparableValues
import Mathlib.Algebra.Ring.Int.Defs

set_option autoImplicit false

/-!
# What compound assignments do

The old value of the target is read after the value on the right is evaluated, unless the operator
is overloaded. So an assignment does what it means where the evaluation does not disturb the
operator.
-/
namespace NewClLang.CompoundLaws
open TypeRefs Comparisons AccessExpressions AccessConditions AccessCompilation CompoundAssignments

section Conditions
variable (d : Declarations)

/-- A place that is not an entry of a map is written by its address, and the instructions are there
for numbers. -/
def placeLowered (a : Compound) : Bool :=
  rooted d a.target && supported d a.target &&
    match a.overload with
    | some overload => overload.path.isEmpty && !overload.fallible
    | none => isNumeric (typeOf d a.target)

/-- The assignments that are compiled. -/
def lowered (a : Compound) : Bool :=
  supported d a.value &&
    match a.target with
    | .index obj index =>
      if isMap (typeOf d obj) then
        rooted d obj && supported d obj && supported d index &&
          (decide (elementType (typeOf d obj) = str ∧ a.op = .add) ||
            isNumeric (elementType (typeOf d obj)))
      else placeLowered d a
    | _ => placeLowered d a

variable {σ V P : Type} (m : Memory σ V P)

/-- The operator comes to the same on the value that the target has before the evaluation of the
value on the right, and on the one that it has after. -/
def Undisturbed (a : Compound) : Prop :=
  ∀ s location s₁ v s₂, locate d m a.target s = some (location, s₁) →
    evaluate d m a.value s₁ = some (v, s₂) →
      ((readLocation m location s₁).bind fun old => operate d m a old v s₂) =
        (readLocation m location s₂).bind fun old => operate d m a old v s₂

end Conditions

section Sequences
variable {σ α β : Type}

theorem run_bind (x : Run σ α) (k : α → Run σ β) (s : σ) :
    (x >>= k) s = (x s).bind fun r => k r.1 r.2 := rfl

theorem reading_bind (f : σ → Option α) (k : α → Run σ β) (s : σ) :
    (reading f >>= k) s = (f s).bind fun v => k v s := by
  rw [run_bind, reading]
  cases f s <;> rfl

/-- Two computations that begin the same agree if they agree from there on. -/
theorem bind_agree (x : Run σ α) (k k' : α → Run σ β) :
    (∀ s, (x >>= k) s = (x >>= k') s) ↔ ∀ s v s₁, x s = some (v, s₁) → k v s₁ = k' v s₁ := by
  constructor
  · intro h s v s₁ hx
    have hs := h s
    rw [run_bind, run_bind, hx] at hs
    exact hs
  · intro h s
    rw [run_bind, run_bind]
    cases hx : x s with
    | none => rfl
    | some r => exact h s r.1 r.2 hx

end Sequences

section Orders
variable {d : Declarations} {σ V P : Type} (m : Memory σ V P)

/-- A compound assignment as it is emitted: the old value is read last. -/
def assignedLate (d : Declarations) (a : Compound) : Run σ Unit := do
  let location ← locate d m a.target
  let v ← evaluate d m a.value
  let old ← reading (readLocation m location)
  let result ← operate d m a old v
  changing (writeLocation m location result)

theorem writeLocation_injective (location : Location V P) {v w : V} {s : σ}
    (h : writeLocation m location v s = writeLocation m location w s) : v = w := by
  cases location with
  | place p =>
    have hload := m.load_store p v s
    have heq : m.store p v s = m.store p w s := h
    rw [heq, m.load_store] at hload
    exact (Option.some.inj hload).symm
  | entry map key =>
    have hget := m.get_mapSet map key v s
    have heq : m.mapSet map key v s = m.mapSet map key w s := h
    rw [heq, m.get_mapSet] at hget
    exact (Option.some.inj hget).symm

/-- An operator that is not overloaded reads the state at most. -/
theorem operate_reading {a : Compound} (h : a.overload = none) (old v : V) :
    ∃ f : σ → Option V, operate d m a old v = reading f := by
  unfold operate
  rw [h]
  dsimp only
  split
  · exact ⟨_, rfl⟩
  · exact ⟨_, rfl⟩

theorem operate_state {a : Compound} (h : a.overload = none) {old v result : V} {s s' : σ}
    (hoperate : operate d m a old v s = some (result, s')) : s' = s := by
  obtain ⟨f, hf⟩ := operate_reading (d := d) m h old v
  rw [hf, reading] at hoperate
  obtain ⟨r, -, heq⟩ := Option.map_eq_some_iff.mp hoperate
  exact (congrArg Prod.snd heq).symm

/-- What is written tells what the operator came to. -/
theorem written_agree {a : Compound} (h : a.overload = none) (location : Location V P) {v : V}
    {s : σ} (before after : Option V) :
    ((before.bind fun old =>
        (operate d m a old v >>= fun result => changing (writeLocation m location result)) s) =
      after.bind fun old =>
        (operate d m a old v >>= fun result => changing (writeLocation m location result)) s) ↔
      (before.bind fun old => operate d m a old v s) =
        after.bind fun old => operate d m a old v s := by
  simp only [run_bind, ← Option.bind_assoc]
  have hstate : ∀ {value : Option V} {r : V × σ},
      (value.bind fun old => operate d m a old v s) = some r → r.2 = s := by
    intro value r hr
    obtain ⟨old, -, hold⟩ := Option.bind_eq_some_iff.mp hr
    exact operate_state m h hold
  generalize hx : (before.bind fun old => operate d m a old v s) = x
  generalize hy : (after.bind fun old => operate d m a old v s) = y
  refine ⟨fun heq => ?_, fun heq => by rw [heq]⟩
  cases x with
  | none =>
    cases y with
    | none => rfl
    | some r => cases heq
  | some q =>
    cases y with
    | none => cases heq
    | some r =>
      obtain ⟨w, t⟩ := q
      obtain ⟨w', t'⟩ := r
      obtain rfl : t = s := hstate hx
      obtain rfl : t' = t := hstate hy
      have hwrite : writeLocation m location w t' = writeLocation m location w' t' :=
        congrArg Prod.snd (Option.some.inj heq)
      rw [writeLocation_injective m location hwrite]

/-- To read the old value late comes to the same if and only if the operator is not disturbed. -/
theorem assignedLate_iff {a : Compound} (h : a.overload = none) :
    (∀ s, assignedLate m d a s = assigned d m a s) ↔ Undisturbed d m a := by
  unfold assignedLate assigned Undisturbed
  rw [bind_agree]
  have hlocation : ∀ (location : Location V P) (s₁ : σ),
      ((do
        let v ← evaluate d m a.value
        let old ← reading (readLocation m location)
        let result ← operate d m a old v
        changing (writeLocation m location result)) : Run σ Unit) s₁ =
      ((do
        let old ← reading (readLocation m location)
        let v ← evaluate d m a.value
        let result ← operate d m a old v
        changing (writeLocation m location result)) : Run σ Unit) s₁ ↔
      ∀ v s₂, evaluate d m a.value s₁ = some (v, s₂) →
        ((readLocation m location s₁).bind fun old => operate d m a old v s₂) =
          (readLocation m location s₂).bind fun old => operate d m a old v s₂ := by
    intro location s₁
    rw [run_bind, reading_bind]
    simp only [run_bind (evaluate d m a.value), reading_bind]
    cases hvalue : evaluate d m a.value s₁ with
    | none =>
      have hnone : ((readLocation m location s₁).bind fun _ => (none : Option (Unit × σ))) =
          none := by
        cases readLocation m location s₁ <;> rfl
      simp [hnone]
    | some r =>
      obtain ⟨v, s₂⟩ := r
      simp only [Option.bind_some, Option.some.injEq, Prod.mk.injEq, and_imp]
      rw [written_agree m h location]
      constructor
      · rintro heq v' s₂' rfl rfl
        exact heq.symm
      · intro heq
        exact (heq v s₂ rfl rfl).symm
  constructor
  · intro hagree s location s₁ v s₂ hloc hval
    exact (hlocation location s₁).mp (hagree s location s₁ hloc) v s₂ hval
  · intro hundisturbed s location s₁ hloc
    exact (hlocation location s₁).mpr fun v s₂ => hundisturbed s location s₁ v s₂ hloc

end Orders

section Emission
variable {d : Declarations}

theorem emitPlaceSet_isSome (a : Compound) :
    (emitPlaceSet d a).isSome = (supported d a.value && placeLowered d a) := by
  have hlvalue := emitLvalue_isSome (d := d) a.target
  have hvalue := emitExpr_isSome (d := d) a.value
  unfold emitPlaceSet placeLowered
  rw [← hlvalue, ← hvalue]
  cases (emitLvalue d a.target).place? with
  | none => simp
  | some p =>
    cases emitExpr d a.value with
    | none => rfl
    | some value =>
      cases a.overload with
      | none =>
        by_cases hnumeric : isNumeric (typeOf d a.target) = true
        · simp [hnumeric]
        · simp [hnumeric]
      | some overload =>
        by_cases hmethod : (overload.path.isEmpty && !overload.fallible) = true
        · simp only [Option.bind_eq_bind, Option.bind_some, hmethod]
          rfl
        · rw [Bool.not_eq_true] at hmethod
          simp only [Option.bind_eq_bind, Option.bind_some, hmethod]
          rfl

theorem emitMapSet_isSome (a : Compound) (map index : Expr) :
    (emitMapSet d a map index).isSome =
      (supported d a.value && (rooted d map && supported d map && supported d index &&
        (decide (elementType (typeOf d map) = str ∧ a.op = .add) ||
          isNumeric (elementType (typeOf d map))))) := by
  unfold emitMapSet
  rw [← emitLvalue_isSome (d := d) map, ← emitExpr_isSome (d := d) index,
    ← emitExpr_isSome (d := d) a.value]
  cases (emitLvalue d map).place? with
  | none => simp
  | some p =>
    cases emitExpr d index with
    | none => simp
    | some key =>
      cases emitExpr d a.value with
      | none => rfl
      | some value =>
        simp only [Option.bind_eq_bind, Option.bind_some, Option.isSome_some, Bool.true_and]
        by_cases happend : elementType (typeOf d map) = str ∧ a.op = .add
        · simp [happend]
        · rw [if_neg happend]
          by_cases hnumeric : isNumeric (elementType (typeOf d map)) = true
          · simp [hnumeric]
          · simp [hnumeric, happend]

theorem emitCompound_isSome (a : Compound) : (emitCompound d a).isSome = lowered d a := by
  unfold emitCompound lowered
  cases htarget : a.target with
  | index obj index =>
    by_cases hmap : isMap (typeOf d obj) = true
    · simp only [if_pos hmap]
      exact emitMapSet_isSome a obj index
    · simp only [if_neg hmap]
      exact emitPlaceSet_isSome a
  | _ => exact emitPlaceSet_isSome a

variable {σ V P : Type} (m : Memory σ V P)

theorem locate_place {a : Compound} {p : Place} (hp : (emitLvalue d a.target).place? = some p)
    (htarget : ∀ obj index, a.target = .index obj index → isMap (typeOf d obj) = false) :
    locate d m a.target = do return .place (← execPlace m.toMachine p) := by
  unfold locate
  split
  next obj index heq =>
    rw [if_neg (by simp [htarget obj index heq]), hp]
  next => rw [hp]

theorem evaluate_emitted {e : Expr} {c : Code} (h : emitExpr d e = some c) :
    evaluate d m e = exec m.toMachine c := by
  rw [evaluate, h]

theorem emitPlaceSet_some {a : Compound} {code : Statement} (h : emitPlaceSet d a = some code) :
    ∃ p value, (emitLvalue d a.target).place? = some p ∧ emitExpr d a.value = some value ∧
      ((a.overload = none ∧ isNumeric (typeOf d a.target) = true ∧ code = .update p a.op value) ∨
        ∃ overload, a.overload = some overload ∧ overload.path = [] ∧
          code = .overloaded p overload.occ value) := by
  obtain ⟨p, hp, h⟩ := Option.bind_eq_some_iff.mp h
  obtain ⟨value, hvalue, h⟩ := Option.bind_eq_some_iff.mp h
  refine ⟨p, value, hp, hvalue, ?_⟩
  cases hoverload : a.overload with
  | none =>
    rw [hoverload] at h
    obtain ⟨hnumeric, hcode⟩ := Option.ite_none_right_eq_some.mp h
    exact Or.inl ⟨rfl, hnumeric, (Option.some.inj hcode).symm⟩
  | some overload =>
    rw [hoverload] at h
    obtain ⟨hmethod, hcode⟩ := Option.ite_none_right_eq_some.mp h
    obtain ⟨hpath, -⟩ := Bool.and_eq_true_iff.mp hmethod
    exact Or.inr ⟨overload, rfl, List.isEmpty_iff.mp hpath, (Option.some.inj hcode).symm⟩

theorem numeric_ne_str {t : TypeRef} (h : isNumeric t = true) : t ≠ str := by
  rintro rfl
  cases h

/-- An assignment through an address. -/
theorem exec_placeSet {a : Compound} {code : Statement} (h : emitPlaceSet d a = some code)
    (htarget : ∀ obj index, a.target = .index obj index → isMap (typeOf d obj) = false) :
    (a.overload = none → execStatement m code = assignedLate m d a) ∧
      (a.overload ≠ none → execStatement m code = assigned d m a) := by
  obtain ⟨p, value, hp, hvalue, ⟨hnone, hnumeric, rfl⟩ | ⟨overload, hsome, hpath, rfl⟩⟩ :=
    emitPlaceSet_some h
  · refine ⟨fun _ => ?_, fun hoverloaded => absurd hnone hoverloaded⟩
    simp only [execStatement, assignedLate, locate_place m hp htarget, evaluate_emitted m hvalue,
      operate, hnone, if_neg (numeric_ne_str hnumeric), bind_assoc, pure_bind, Machine.get,
      readLocation, writeLocation]
  · refine ⟨fun hnone => ?_, fun _ => ?_⟩
    · rw [hsome] at hnone
      cases hnone
    · simp only [execStatement, assigned, locate_place m hp htarget, evaluate_emitted m hvalue,
        operate, hsome, hpath, projectAll, bind_assoc, pure_bind, Machine.get, readLocation,
        writeLocation]

theorem structFields_scalar {t : TypeRef} (h : isNumeric t = true ∨ t = str) :
    structFields d t = none := by
  obtain ⟨name, rfl, hname⟩ : ∃ name, t = .named name ∧ name ∈ builtinTypes := by
    rcases h with hnumeric | rfl
    · cases t with
      | named name =>
        refine ⟨name, rfl, List.mem_append_left _ ?_⟩
        simpa [isNumeric] using hnumeric
      | _ => cases hnumeric
    · exact ⟨"str", rfl, by decide⟩
  exact ComparableValues.structFields_builtin hname

/-- An assignment to an entry of a map. -/
theorem exec_mapSet {a : Compound} {code : Statement} {obj index : Expr}
    (haccepts : acceptsCompound d a = true) (htarget : a.target = .index obj index)
    (hmap : isMap (typeOf d obj) = true) (h : emitMapSet d a obj index = some code) :
    a.overload = none ∧ execStatement m code = assignedLate m d a := by
  have htype : typeOf d a.target = elementType (typeOf d obj) := by rw [htarget, typeOf]
  obtain ⟨p, hp, h⟩ := Option.bind_eq_some_iff.mp h
  obtain ⟨key, hkey, h⟩ := Option.bind_eq_some_iff.mp h
  obtain ⟨value, hvalue, h⟩ := Option.bind_eq_some_iff.mp h
  have hscalar : isNumeric (elementType (typeOf d obj)) = true ∨
      elementType (typeOf d obj) = str := by
    by_cases hstr : elementType (typeOf d obj) = str ∧ a.op = .add
    · exact Or.inr hstr.1
    · rw [if_neg hstr] at h
      exact Or.inl (Option.ite_none_right_eq_some.mp h).1
  have hnone : a.overload = none := by
    cases hoverload : a.overload with
    | none => rfl
    | some overload =>
      simp only [acceptsCompound, hoverload, Bool.and_eq_true] at haccepts
      have hstruct := haccepts.2.1.2
      rw [htype, structFields_scalar hscalar] at hstruct
      cases hstruct
  have hlocate : locate d m a.target = do
      let map ← execPlace m.toMachine p
      let k ← exec m.toMachine key
      return .entry (m.pointer map) k := by
    rw [htarget, locate, if_pos hmap, hp, hkey]
  refine ⟨hnone, ?_⟩
  by_cases hstr : elementType (typeOf d obj) = str ∧ a.op = .add
  · rw [if_pos hstr] at h
    cases h
    have htarget : typeOf d a.target = str := htype.trans hstr.1
    simp only [execStatement, assignedLate, hlocate, evaluate_emitted m hvalue, operate, hnone,
      if_pos htarget, bind_assoc, pure_bind, readLocation, writeLocation]
  · rw [if_neg hstr] at h
    obtain ⟨hnumeric, hcode⟩ := Option.ite_none_right_eq_some.mp h
    cases hcode
    have htarget : typeOf d a.target ≠ str := by
      rw [htype]
      exact numeric_ne_str hnumeric
    simp only [execStatement, assignedLate, hlocate, evaluate_emitted m hvalue, operate, hnone,
      if_neg htarget, bind_assoc, pure_bind, readLocation, writeLocation]

/-- A compound assignment comes to its code with the old value read late, unless its operator is
overloaded. -/
theorem exec_compound {a : Compound} {code : Statement} (haccepts : acceptsCompound d a = true)
    (h : emitCompound d a = some code) :
    (a.overload = none → execStatement m code = assignedLate m d a) ∧
      (a.overload ≠ none → execStatement m code = assigned d m a) := by
  unfold emitCompound at h
  split at h
  next obj index htarget =>
    by_cases hmap : isMap (typeOf d obj) = true
    · rw [if_pos hmap] at h
      obtain ⟨hnone, hlate⟩ := exec_mapSet m haccepts htarget hmap h
      exact ⟨fun _ => hlate, fun hoverloaded => absurd hnone hoverloaded⟩
    · rw [if_neg hmap] at h
      refine exec_placeSet m h fun obj' index' heq => ?_
      rw [htarget] at heq
      cases heq
      simpa using hmap
  next hother => exact exec_placeSet m h fun obj index heq => absurd heq (hother obj index)

end Emission

section Results
variable {d : Declarations} {σ V P : Type} (m : Memory σ V P)

/-- A value that performs nothing leaves the operator as it is. -/
theorem undisturbed_of_still {a : Compound}
    (h : calls d false a.value ++ repeated d a.value = []) : Undisturbed d m a := by
  intro s location s₁ v s₂ _ hvalue
  unfold evaluate at hvalue
  cases hcode : emitExpr d a.value with
  | none =>
    rw [hcode] at hvalue
    cases hvalue
  | some c =>
    rw [hcode] at hvalue
    dsimp only at hvalue
    have heffects := ((emitted (d := d) a.value).value hcode).all
    rw [h] at heffects
    rcases exec_steady (m := m.toMachine) c heffects.eq_nil s₁ with hnone | ⟨v', hv'⟩
    · rw [hnone] at hvalue
      cases hvalue
    · rw [hv'] at hvalue
      cases hvalue
      rfl

/-- An assignment that the type checker lets through does what it means if and only if it is
compiled and, unless its operator is overloaded, the operator is not disturbed. -/
theorem assignsOperation_iff {a : Compound} (haccepts : acceptsCompound d a = true) :
    AssignsOperation d m a ↔
      lowered d a = true ∧ (a.overload = none → Undisturbed d m a) := by
  rw [← emitCompound_isSome, Option.isSome_iff_exists]
  constructor
  · rintro ⟨code, hcode, hmeans⟩
    refine ⟨⟨code, hcode⟩, fun hnone => (assignedLate_iff m hnone).mp fun s => ?_⟩
    rw [← (exec_compound m haccepts hcode).1 hnone]
    exact hmeans s
  · rintro ⟨⟨code, hcode⟩, hundisturbed⟩
    refine ⟨code, hcode, fun s => ?_⟩
    by_cases hnone : a.overload = none
    · rw [(exec_compound m haccepts hcode).1 hnone]
      exact (assignedLate_iff m hnone).mpr (hundisturbed hnone) s
    · rw [(exec_compound m haccepts hcode).2 hnone]

/-- No declarations. -/
def noDeclarations : Declarations where
  declared _ := none
  implements _ _ := false
  orderMethod _ := none
  apart _ _ := rfl

/-- The memory of a program with one variable. Its function sets the variable to 10 and returns
5. -/
def oneVariable : Memory ℤ ℤ Unit where
  constant _ := 1
  slot _ := ()
  fieldPlace p _ := p
  element _ _ := none
  pointee _ := none
  pointer _ := 0
  temporary _ := ()
  fieldOf v _ := v
  load _ s := some s
  compute name vs s := if name = "add" then some vs.sum else some s
  perform _ _ _ := some (5, 10)
  load_field _ _ _ := rfl
  store _ v _ := v
  mapSet _ _ v _ := v
  load_store _ _ _ := rfl
  get_mapSet _ _ _ _ := rfl

/-- `x += 1`. -/
theorem assignsOperation_constant :
    AssignsOperation noDeclarations oneVariable
      ⟨.variable "x" i32, .add, none, .constant "1" i32⟩ :=
  (assignsOperation_iff oneVariable (by decide)).mpr
    ⟨by decide, fun _ => undisturbed_of_still oneVariable rfl⟩

/-- `x += bump()` adds to the value that `bump` has left. -/
theorem not_assignsOperation_call :
    acceptsCompound noDeclarations
        ⟨.variable "x" i32, .add, none, .operation (.perform 0) i32 []⟩ = true ∧
      ¬ AssignsOperation noDeclarations oneVariable
        ⟨.variable "x" i32, .add, none, .operation (.perform 0) i32 []⟩ := by
  refine ⟨by decide, ?_⟩
  rintro ⟨code, hcode, hmeans⟩
  cases hcode
  have hone : some ((), (15 : ℤ)) = some ((), 6) := hmeans 1
  exact absurd (congrArg (Option.map Prod.snd) hone) (by decide)

end Results

end NewClLang.CompoundLaws
