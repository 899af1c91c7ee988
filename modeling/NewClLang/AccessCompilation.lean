import NewClLang.AccessConditions
import Mathlib.Data.List.Forall2

set_option autoImplicit false

/-!
# Compilation of accesses

The code of an expression performs what the expression should and, besides, what it repeats. Where
it repeats nothing, it does on every machine what the expression means.
-/
namespace NewClLang.AccessCompilation
open TypeRefs Comparisons AccessExpressions AccessConditions

section Parts

/-- What an expression means, on each machine. -/
abbrev Meaning := ∀ (σ V P : Type), Machine σ V P → Run σ V

/-- Code performs the operations of `first` in this order, and those of `again` besides. Where there
are none of these, it does what is meant. -/
structure Performs (first again : List ℕ) (c : Code) (f : Meaning) : Prop where
  all : (effects c).Perm (first ++ again)
  order : again = [] → effects c = first
  meaning : again = [] → ∀ (σ V P : Type) (m : Machine σ V P), exec m c = f σ V P m

/-- The code of a place, of which both the place and what is stored there have a meaning. -/
structure Locates (first again : List ℕ) (p : Place)
    (g : ∀ (σ V P : Type), Machine σ V P → Run σ P) (f : Meaning) : Prop where
  all : (effectsPlace p).Perm (first ++ again)
  order : again = [] → effectsPlace p = first
  place : again = [] → ∀ (σ V P : Type) (m : Machine σ V P), execPlace m p = g σ V P m
  stored : again = [] → ∀ (σ V P : Type) (m : Machine σ V P),
    (do m.get (← execPlace m p)) = f σ V P m

structure PerformsAll (first again : List ℕ) (cs : List Code)
    (f : ∀ (σ V P : Type), Machine σ V P → List (Run σ V)) : Prop where
  all : (effectsEach cs).flatten.Perm (first ++ again)
  order : again = [] → (effectsEach cs).flatten = first
  meaning : again = [] → ∀ (σ V P : Type) (m : Machine σ V P),
    execs m cs = AccessExpressions.sequence (f σ V P m)

variable {first again first' again' : List ℕ} {c c' : Code} {p : Place} {f f' : Meaning}
  {g : ∀ (σ V P : Type), Machine σ V P → Run σ P} {cs : List Code}
  {fs : ∀ (σ V P : Type), Machine σ V P → List (Run σ V)}

theorem perm_parts {xs ys : List ℕ} (hx : xs.Perm (first ++ again))
    (hy : ys.Perm (first' ++ again')) :
    (xs ++ ys).Perm ((first ++ first') ++ (again ++ again')) := by
  refine List.perm_iff_count.mpr fun a => ?_
  have hx' := hx.count_eq a
  have hy' := hy.count_eq a
  simp only [List.count_append] at hx' hy' ⊢
  omega

theorem performs_load (h : Locates first again p g f) : Performs first again (.load p) f where
  all := h.all
  order := h.order
  meaning hagain σ V P m := h.stored hagain σ V P m

theorem performs_address (h : Locates first again p g f) :
    Performs first again (.address p) fun σ V P m => do return m.pointer (← g σ V P m) where
  all := h.all
  order := h.order
  meaning hagain σ V P m := by simp only [exec, h.place hagain σ V P m]

theorem performs_temporary (h : Performs first again c f) :
    Performs first again (.temporary c) fun σ V P m =>
      do return m.pointer (m.temporary (← f σ V P m)) where
  all := h.all
  order := h.order
  meaning hagain σ V P m := by simp only [exec, h.meaning hagain σ V P m]

theorem performsAll_nil : PerformsAll [] [] [] fun _ _ _ _ => [] where
  all := List.Perm.nil
  order _ := rfl
  meaning _ _ _ _ _ := rfl

theorem performsAll_cons (h : Performs first again c f) (hs : PerformsAll first' again' cs fs) :
    PerformsAll (first ++ first') (again ++ again') (c :: cs) fun σ V P m =>
      f σ V P m :: fs σ V P m where
  all := by
    rw [effectsEach, List.flatten_cons]
    exact perm_parts h.all hs.all
  order hagain := by
    obtain ⟨hfirst, hrest⟩ := List.append_eq_nil_iff.mp hagain
    rw [effectsEach, List.flatten_cons, h.order hfirst, hs.order hrest]
  meaning hagain σ V P m := by
    obtain ⟨hfirst, hrest⟩ := List.append_eq_nil_iff.mp hagain
    simp only [execs, AccessExpressions.sequence, h.meaning hfirst σ V P m,
      hs.meaning hrest σ V P m]

theorem performs_operation (op : Operation) (hs : PerformsAll first again cs fs) :
    Performs (first ++ Operation.calls op) again (.operation op cs) fun σ V P m => do
      m.act op (← AccessExpressions.sequence (fs σ V P m)) where
  all := by
    have hcalls : (Operation.calls op).Perm (Operation.calls op ++ []) := by simp
    rw [effects]
    simpa using perm_parts hs.all hcalls
  order hagain := by rw [effects, hs.order hagain]
  meaning hagain σ V P m := by simp only [exec, hs.meaning hagain σ V P m]

theorem performs_call (op : Operation) (h : Performs first again c f)
    (hs : PerformsAll first' again' cs fs) :
    Performs (first ++ first' ++ Operation.calls op) (again ++ again') (.operation op (c :: cs))
      fun σ V P m => do
        let v ← f σ V P m
        let vs ← AccessExpressions.sequence (fs σ V P m)
        m.act op (v :: vs) where
  all := (performs_operation op (performsAll_cons h hs)).all
  order := (performs_operation op (performsAll_cons h hs)).order
  meaning hagain σ V P m := by
    rw [(performs_operation op (performsAll_cons h hs)).meaning hagain σ V P m]
    simp only [AccessExpressions.sequence, bind_assoc, pure_bind]

theorem get_fieldPlace {σ V P : Type} (m : Machine σ V P) (q : P) (name : String) :
    m.get (m.fieldPlace q name) = (do return m.fieldOf (← m.get q) name) := by
  funext s
  change reading (m.load (m.fieldPlace q name)) s = StateT.bind (reading (m.load q)) _ s
  simp only [StateT.bind, reading, m.load_field]
  cases m.load q s <;> rfl

theorem locates_variable (name : String) :
    Locates [] [] (.variable name) (fun _ _ _ m => pure (m.slot name))
      fun _ _ _ m => m.get (m.slot name) where
  all := List.Perm.nil
  order _ := rfl
  place _ _ _ _ _ := rfl
  stored _ _ _ _ m := by simp only [execPlace, pure_bind]

/-- A field of a place, and of the value that is stored there. -/
theorem locates_field (t : TypeRef) (name : String) (h : Locates first again p g f) :
    Locates first again (fieldPlace t p name)
      (fun σ V P m =>
        if TypeRefs.isPointer t then do
          let v ← f σ V P m
          let q ← reading fun _ => m.pointee v
          return m.fieldPlace q name
        else do return m.fieldPlace (← g σ V P m) name)
      (fun σ V P m => do project m t name (← f σ V P m)) := by
  unfold fieldPlace
  by_cases hpointer : TypeRefs.isPointer t = true
  · simp only [if_pos hpointer]
    refine ⟨h.all, h.order, fun hagain σ V P m => ?_, fun hagain σ V P m => ?_⟩
    · simp only [execPlace, exec, h.stored hagain σ V P m]
    · simp only [execPlace, exec, h.stored hagain σ V P m, project, if_pos hpointer, bind_assoc,
        pure_bind]
  · simp only [if_neg hpointer]
    refine ⟨h.all, h.order, fun hagain σ V P m => ?_, fun hagain σ V P m => ?_⟩
    · simp only [execPlace, h.place hagain σ V P m]
    · simp only [execPlace, project, if_neg hpointer, bind_assoc, pure_bind, get_fieldPlace,
        ← h.stored hagain σ V P m]

theorem locates_element (h : Performs first again c f) (h' : Performs first' again' c' f') :
    Locates (first ++ first') (again ++ again') (.element c c')
      (fun σ V P m => do
        let v ← f σ V P m
        let i ← f' σ V P m
        reading fun _ => m.element v i)
      fun σ V P m => do
        let v ← f σ V P m
        let i ← f' σ V P m
        m.get (← reading fun _ => m.element v i) where
  all := perm_parts h.all h'.all
  order hagain := by
    obtain ⟨hfirst, hrest⟩ := List.append_eq_nil_iff.mp hagain
    rw [effectsPlace, h.order hfirst, h'.order hrest]
  place hagain σ V P m := by
    obtain ⟨hfirst, hrest⟩ := List.append_eq_nil_iff.mp hagain
    simp only [execPlace, h.meaning hfirst σ V P m, h'.meaning hrest σ V P m]
  stored hagain σ V P m := by
    obtain ⟨hfirst, hrest⟩ := List.append_eq_nil_iff.mp hagain
    simp only [execPlace, h.meaning hfirst σ V P m, h'.meaning hrest σ V P m, bind_assoc]

end Parts

section Attempts
variable {σ V P α β : Type} {m : Machine σ V P}

/-- A computation that leaves the state as it is. -/
def Steady (x : Run σ α) : Prop := ∀ s, x s = none ∨ ∃ v, x s = some (v, s)

theorem steady_pure (v : α) : Steady (pure v : Run σ α) := fun _ => Or.inr ⟨v, rfl⟩

theorem steady_reading (f : σ → Option α) : Steady (reading f) := by
  intro s
  cases hf : f s with
  | none => exact Or.inl (by simp [reading, hf])
  | some v => exact Or.inr ⟨v, by simp [reading, hf]⟩

theorem steady_bind {x : Run σ α} {k : α → Run σ β} (hx : Steady x) (hk : ∀ v, Steady (k v)) :
    Steady (x >>= k) := by
  intro s
  change StateT.bind x k s = none ∨ ∃ v, StateT.bind x k s = some (v, s)
  rcases hx s with hnone | ⟨v, hv⟩
  · exact Or.inl (by simp [StateT.bind, hnone])
  · have hnext : StateT.bind x k s = k v s := by simp [StateT.bind, hv]
    rw [hnext]
    exact hk v s

/-- A second run of a computation that leaves the state as it is comes to the same. -/
theorem repeat_steady {x : Run σ α} (hx : Steady x) (k : α → Run σ β) :
    (do
      let _ ← x
      let v ← x
      k v) = (do
      let v ← x
      k v) := by
  funext s
  change StateT.bind x (fun _ => StateT.bind x k) s = StateT.bind x k s
  rcases hx s with hnone | ⟨v, hv⟩
  · simp [StateT.bind, hnone]
  · simp [StateT.bind, hv]

mutual

theorem exec_steady (c : Code) (h : effects c = []) : Steady (exec m c) := by
  cases c with
  | constant text => exact steady_pure _
  | load p =>
    rw [exec]
    exact steady_bind (execPlace_steady p h) fun _ => steady_reading _
  | address p =>
    rw [exec]
    exact steady_bind (execPlace_steady p h) fun _ => steady_pure _
  | temporary value =>
    rw [exec]
    exact steady_bind (exec_steady value h) fun _ => steady_pure _
  | operation op operands =>
    obtain ⟨hoperands, hop⟩ := List.append_eq_nil_iff.mp h
    rw [exec]
    refine steady_bind (execs_steady operands hoperands) fun vs => ?_
    cases op with
    | compute name => exact steady_reading _
    | perform occ => cases hop
  | afterAttempt attempt value =>
    obtain ⟨hattempt, hvalue⟩ := List.append_eq_nil_iff.mp h
    rw [exec]
    exact steady_bind (execPlace_steady attempt hattempt) fun _ => exec_steady value hvalue

theorem execPlace_steady (p : Place) (h : effectsPlace p = []) : Steady (execPlace m p) := by
  cases p with
  | «variable» name => exact steady_pure _
  | field struct name =>
    rw [execPlace]
    exact steady_bind (execPlace_steady struct h) fun _ => steady_pure _
  | through pointer name =>
    rw [execPlace]
    refine steady_bind (exec_steady pointer h) fun v => ?_
    exact steady_bind (steady_reading _) fun _ => steady_pure _
  | element source index =>
    obtain ⟨hsource, hindex⟩ := List.append_eq_nil_iff.mp h
    rw [execPlace]
    refine steady_bind (exec_steady source hsource) fun v => ?_
    exact steady_bind (exec_steady index hindex) fun i => steady_reading _

theorem execs_steady (cs : List Code) (h : (effectsEach cs).flatten = []) :
    Steady (execs m cs) := by
  cases cs with
  | nil => exact steady_pure _
  | cons c cs =>
    rw [effectsEach, List.flatten_cons] at h
    obtain ⟨hfirst, hrest⟩ := List.append_eq_nil_iff.mp h
    rw [execs]
    refine steady_bind (exec_steady c hfirst) fun v => ?_
    exact steady_bind (execs_steady cs hrest) fun _ => steady_pure _

end

/-- A place that is given up, at which the evaluation begins. -/
structure Attempts (again : List ℕ) (a : Place) (f : Meaning) : Prop where
  all : (effectsPlace a).Perm again
  begins : again = [] → ∀ (σ V P : Type) (m : Machine σ V P),
    ∃ k : P → Run σ V, f σ V P m = (do
      let p ← execPlace m a
      k p)

variable {first again again' : List ℕ} {c : Code} {a : Place} {f : Meaning}

theorem performs_afterAttempt (h : Performs first again c f) (ha : Attempts again' a f) :
    Performs first (again' ++ again) (.afterAttempt a c) f where
  all := by
    refine List.perm_iff_count.mpr fun x => ?_
    have hc := h.all.count_eq x
    have hplace := ha.all.count_eq x
    simp only [effects, List.count_append] at hc hplace ⊢
    omega
  order hagain := by
    obtain ⟨hattempt, hrest⟩ := List.append_eq_nil_iff.mp hagain
    have hnone : effectsPlace a = [] := (hattempt ▸ ha.all).eq_nil
    rw [effects, hnone, h.order hrest, List.nil_append]
  meaning hagain σ V P m := by
    obtain ⟨hattempt, hrest⟩ := List.append_eq_nil_iff.mp hagain
    have hnone : effectsPlace a = [] := (hattempt ▸ ha.all).eq_nil
    obtain ⟨k, hk⟩ := ha.begins hattempt σ V P m
    rw [exec, h.meaning hrest σ V P m, hk]
    exact repeat_steady (execPlace_steady a hnone) k

end Attempts

section Reordering

theorem lookup_zip_map {α β : Type} (f : α → β) (names : List String) (values : List α)
    (name : String) :
    (names.zip (values.map f)).lookup name = ((names.zip values).lookup name).map f := by
  induction names generalizing values with
  | nil => rfl
  | cons n names ih =>
    cases values with
    | nil => rfl
    | cons v values =>
      simp only [List.map_cons, List.zip_cons_cons, List.lookup_cons]
      cases name == n with
      | true => rfl
      | false => exact ih values

theorem reorder_map {α β : Type} (f : α → β) (declared names : List String) (values : List α) :
    reorder declared names (values.map f) = (reorder declared names values).map f := by
  simp only [reorder, lookup_zip_map, List.map_filterMap]

theorem forall₂_lookup {α β : Type} {R : α → β → Prop} {xs : List α} {ys : List β}
    (h : List.Forall₂ R xs ys) (names : List String) (name : String) :
    ((names.zip xs).lookup name = none ∧ (names.zip ys).lookup name = none) ∨
      ∃ x y, (names.zip xs).lookup name = some x ∧ (names.zip ys).lookup name = some y ∧ R x y := by
  induction h generalizing names with
  | nil => simp
  | cons hxy hrest ih =>
    cases names with
    | nil => exact Or.inl ⟨rfl, rfl⟩
    | cons n names =>
      simp only [List.zip_cons_cons, List.lookup_cons]
      cases name == n with
      | true => exact Or.inr ⟨_, _, rfl, rfl, hxy⟩
      | false => exact ih names

theorem forall₂_reorder {α β : Type} {R : α → β → Prop} {xs : List α} {ys : List β}
    (h : List.Forall₂ R xs ys) (declared names : List String) :
    List.Forall₂ R (reorder declared names xs) (reorder declared names ys) := by
  induction declared with
  | nil => exact .nil
  | cons name declared ih =>
    unfold reorder at ih ⊢
    rcases forall₂_lookup h names name with ⟨hx, hy⟩ | ⟨x, y, hx, hy, hxy⟩
    · simp only [List.filterMap_cons, hx, hy]
      exact ih
    · simp only [List.filterMap_cons, hx, hy]
      exact .cons hxy ih

variable {d : Declarations}

theorem callsEach_eq (asWritten : Bool) (es : List Expr) :
    callsEach d asWritten es = es.map (calls d asWritten) := by
  induction es with
  | nil => rfl
  | cons e es ih => rw [callsEach, ih, List.map_cons]

theorem repeatedEach_eq (es : List Expr) : repeatedEach d es = es.map (repeated d) := by
  induction es with
  | nil => rfl
  | cons e es ih => rw [repeatedEach, ih, List.map_cons]

theorem evals_eq {σ V P : Type} (m : Machine σ V P) (es : List Expr) :
    evals d m es = es.map (eval d m) := by
  induction es with
  | nil => rfl
  | cons e es ih => rw [evals, ih, List.map_cons]

end Reordering

section Compilation
variable {d : Declarations}

/-- What is known of the emission of an expression. -/
structure Emitted (d : Declarations) (e : Expr) : Prop where
  value : ∀ {c}, emitExpr d e = some c →
    Performs (calls d false e) (repeated d e) c fun _ _ _ m => eval d m e
  place : ∀ {p}, emitLvalue d e = .place p → isPlaced d e = true ∧ attempted d e = [] ∧
    Locates (calls d false e) (repeated d e) p (fun _ _ _ m => evalPlace d m e)
      fun _ _ _ m => eval d m e
  attempt : ∀ {a c}, emitLvalue d e = .refused (some a) → emitExpr d e = some c →
    isPlaced d e = false ∧ Attempts (attempted d e) a fun _ _ _ m => eval d m e
  nothing : ∀ {c}, emitLvalue d e = .refused none → emitExpr d e = some c →
    isPlaced d e = false ∧ attempted d e = []

variable {e obj receiver index : Expr} {c : Code}

theorem emitted_of_value (hnode : isPlaceNode e = false)
    (hvalue : ∀ {c}, emitExpr d e = some c →
      Performs (calls d false e) (repeated d e) c fun _ _ _ m => eval d m e) : Emitted d e := by
  have hlvalue : emitLvalue d e = .refused none ∧ isPlaced d e = false ∧ attempted d e = [] := by
    cases e with
    | «variable» name type => cases hnode
    | field obj name => cases hnode
    | index obj index => cases hnode
    | _ => simp [emitLvalue, isPlaced, attempted]
  obtain ⟨hlvalue, hplaced, hattempted⟩ := hlvalue
  refine ⟨hvalue, ?_, ?_, fun _ _ => ⟨hplaced, hattempted⟩⟩
  · intro p h
    rw [hlvalue] at h
    cases h
  · intro a c h
    rw [hlvalue] at h
    cases h

theorem performs_mapPointer (h : Emitted d obj)
    (hc : mapPointer (emitLvalue d obj) (emitExpr d obj) = some c) :
    Performs (calls d false obj) (attempted d obj ++ repeated d obj) c fun _ _ _ m =>
      pointing m (isPlaced d obj) (evalPlace d m obj) (eval d m obj) := by
  cases hlvalue : emitLvalue d obj with
  | place p =>
    rw [hlvalue] at hc
    cases hc
    obtain ⟨hplaced, hattempted, hlocates⟩ := h.place hlvalue
    simp only [hplaced, hattempted, pointing, if_true, List.nil_append]
    exact performs_address hlocates
  | refused attempt =>
    cases hvalue : emitExpr d obj with
    | none =>
      rw [hlvalue, hvalue] at hc
      cases attempt <;> cases hc
    | some value =>
      have htemporary := performs_temporary (h.value hvalue)
      rw [hlvalue, hvalue] at hc
      cases attempt with
      | none =>
        cases hc
        obtain ⟨hplaced, hattempted⟩ := h.nothing hlvalue hvalue
        simp only [hplaced, hattempted, pointing, Bool.false_eq_true, if_false, List.nil_append]
        exact htemporary
      | some a =>
        cases hc
        obtain ⟨hplaced, hattempts⟩ := h.attempt hlvalue hvalue
        simp only [hplaced, pointing, Bool.false_eq_true, if_false]
        refine performs_afterAttempt htemporary ⟨hattempts.all, fun hagain σ V P m => ?_⟩
        obtain ⟨k, hk⟩ := hattempts.begins hagain σ V P m
        refine ⟨fun p => do return m.pointer (m.temporary (← k p)), ?_⟩
        simp only [hk, bind_assoc]

theorem performs_receiverArg (h : Emitted d obj)
    (hc : receiverArg obj (emitLvalue d obj) (emitExpr d obj) = some c) :
    Performs (calls d false obj) (repeated d obj) c fun _ _ _ m =>
      pointing m (isPlaced d obj) (evalPlace d m obj) (eval d m obj) := by
  unfold receiverArg at hc
  by_cases hnode : isPlaceNode obj = true
  · rw [if_pos hnode] at hc
    cases hlvalue : emitLvalue d obj with
    | refused attempt =>
      rw [hlvalue] at hc
      cases hc
    | place p =>
      rw [hlvalue] at hc
      cases hc
      obtain ⟨hplaced, -, hlocates⟩ := h.place hlvalue
      simp only [hplaced, pointing, if_true]
      exact performs_address hlocates
  · rw [if_neg hnode] at hc
    obtain ⟨value, hvalue, rfl⟩ := Option.map_eq_some_iff.mp hc
    have hplaced : isPlaced d obj = false := by
      cases obj <;> first | exact absurd rfl hnode | rfl
    simp only [hplaced, pointing, Bool.false_eq_true, if_false]
    exact performs_temporary (h.value hvalue)

theorem performs_methodArg (isStruct : Bool) (h : Emitted d obj)
    (hc : methodArg isStruct obj (emitLvalue d obj) (emitExpr d obj) = some c) :
    Performs (calls d false obj) (repeated d obj) c fun _ _ _ m =>
      methodReceiver m isStruct (isPlaced d obj) (evalPlace d m obj) (eval d m obj) := by
  cases isStruct with
  | false => exact h.value hc
  | true => exact performs_receiverArg h hc

theorem performs_sliceSource (h : Emitted d obj)
    (hc : sliceSource (typeOf d obj) (emitLvalue d obj) (emitExpr d obj) = some c) :
    Performs (calls d false obj) (repeated d obj) c fun _ _ _ m => eval d m obj := by
  unfold sliceSource at hc
  split_ifs at hc
  · cases hlvalue : emitLvalue d obj with
    | refused attempt =>
      rw [hlvalue] at hc
      cases hc
    | place p =>
      rw [hlvalue] at hc
      cases hc
      exact performs_load (h.place hlvalue).2.2
  · exact h.value hc

theorem performs_descend {first again : List ℕ} {p : Place} {f : Meaning}
    {g : ∀ (σ V P : Type), Machine σ V P → Run σ P} (path : List String) (t : TypeRef)
    (h : Locates first again p g f) :
    Performs first again (.load (descend d t p path))
      (fun σ V P m => do projectAll d m t path (← f σ V P m)) := by
  induction path generalizing t p f g with
  | nil =>
    simp only [descend, projectAll, bind_pure]
    exact performs_load h
  | cons name path ih =>
    have hrest := ih ((fieldType d t name).getD (.named "void")) (locates_field t name h)
    simp only [bind_assoc] at hrest
    exact hrest

theorem performs_overloadArg (path : List String) (h : Emitted d obj)
    (hc : overloadArg d obj path (emitLvalue d obj) (emitExpr d obj) = some c) :
    Performs (calls d false obj) (repeated d obj) c fun _ _ _ m =>
      overloadReceiver d m (typeOf d obj) path (isPlaced d obj) (evalPlace d m obj)
        (eval d m obj) := by
  cases path with
  | nil => exact performs_receiverArg h hc
  | cons name path =>
    cases hlvalue : emitLvalue d obj with
    | refused attempt =>
      rw [hlvalue] at hc
      cases hc
    | place p =>
      rw [hlvalue] at hc
      cases hc
      have hload := performs_descend (d := d) (name :: path) (typeOf d obj)
        (h.place hlvalue).2.2
      have htemporary := performs_temporary hload
      simp only [bind_assoc] at htemporary
      exact htemporary

theorem emitted_variable (name : String) (type : TypeRef) :
    Emitted d (.variable name type) where
  value h := by
    cases h
    exact performs_load (locates_variable name)
  place h := by
    cases h
    exact ⟨rfl, rfl, locates_variable name⟩
  attempt h := nomatch h
  nothing h := nomatch h

theorem emitted_field (name : String) (h : Emitted d obj) : Emitted d (.field obj name) := by
  have hplace : ∀ {p}, emitLvalue d (.field obj name) = .place p →
      isPlaced d (.field obj name) = true ∧ attempted d (.field obj name) = [] ∧
        Locates (calls d false (.field obj name)) (repeated d (.field obj name)) p
          (fun _ _ _ m => evalPlace d m (.field obj name))
          fun _ _ _ m => eval d m (.field obj name) := by
    intro p hp
    simp only [emitLvalue] at hp
    cases hlvalue : emitLvalue d obj with
    | refused attempt =>
      rw [hlvalue] at hp
      cases hp
    | place q =>
      rw [hlvalue] at hp
      cases hp
      obtain ⟨hplaced, -, hlocates⟩ := h.place hlvalue
      simp only [isPlaced, hplaced, Bool.or_true, attempted, calls, repeated, evalPlace, eval]
      exact ⟨trivial, trivial, locates_field (typeOf d obj) name hlocates⟩
  have hrefused : ∀ {attempt c}, emitLvalue d (.field obj name) = .refused attempt →
      emitExpr d (.field obj name) = some c → False := by
    intro attempt c hattempt hc
    rw [emitLvalue] at hattempt
    rw [emitExpr, hattempt] at hc
    cases hc
  refine ⟨?_, hplace, fun ha hc => (hrefused ha hc).elim, fun ha hc => (hrefused ha hc).elim⟩
  intro c hc
  rw [emitExpr] at hc
  cases hlvalue : fieldLvalue (typeOf d obj) name (emitLvalue d obj) with
  | refused attempt =>
    rw [hlvalue] at hc
    cases hc
  | place p =>
    rw [hlvalue] at hc
    cases hc
    have hself : emitLvalue d (.field obj name) = .place p := by rw [emitLvalue, hlvalue]
    exact performs_load (hplace hself).2.2

/-- The two kinds of elements that have a place. -/
theorem locates_index (h : Emitted d obj) (hindex : Emitted d index) {p : Place}
    (hp : emitLvalue d (.index obj index) = .place p) :
    (isSlice (typeOf d obj) || isArray (typeOf d obj)) = true ∧
      Locates (calls d false obj ++ calls d false index) (repeated d obj ++ repeated d index) p
        (fun _ _ _ m => evalPlace d m (.index obj index))
        (fun _ _ _ m => do
          let v ← eval d m obj
          let i ← eval d m index
          m.get (← reading fun _ => m.element v i)) := by
  simp only [emitLvalue, elementLvalue] at hp
  by_cases hslice : isSlice (typeOf d obj) = true
  · rw [if_pos hslice] at hp
    cases hsource : emitExpr d obj with
    | none =>
      rw [hsource] at hp
      cases hp
    | some source =>
      cases hi : emitExpr d index with
      | none =>
        rw [hsource, hi] at hp
        cases hp
      | some i =>
        rw [hsource, hi] at hp
        cases hp
        simp only [hslice, Bool.true_or, evalPlace]
        exact ⟨trivial, locates_element (h.value hsource) (hindex.value hi)⟩
  · rw [if_neg hslice] at hp
    cases hlvalue : emitLvalue d obj with
    | refused attempt =>
      rw [hlvalue] at hp
      cases hp
    | place q =>
      rw [hlvalue] at hp
      dsimp only at hp
      by_cases harray : isArray (typeOf d obj) = true
      · rw [if_pos harray] at hp
        cases hi : emitExpr d index with
        | none =>
          rw [hi] at hp
          cases hp
        | some i =>
          rw [hi] at hp
          cases hp
          simp only [harray, Bool.or_true, evalPlace]
          exact ⟨trivial, locates_element (performs_load (h.place hlvalue).2.2) (hindex.value hi)⟩
      · rw [if_neg harray] at hp
        cases hp

theorem element_apart {t : TypeRef} (h : (isSlice t || isArray t) = true) :
    isMap t = false ∧ t ≠ str := by
  constructor
  · by_contra hmap
    obtain ⟨hslice, harray, -⟩ := isMap_apart (by simpa using hmap)
    rw [hslice, harray] at h
    cases h
  · rintro rfl
    cases h

theorem eval_index_element {σ V P : Type} (m : Machine σ V P) (index : Expr)
    (h : (isSlice (typeOf d obj) || isArray (typeOf d obj)) = true) :
    eval d m (.index obj index) = (do
      let v ← eval d m obj
      let i ← eval d m index
      m.get (← reading fun _ => m.element v i)) := by
  obtain ⟨hmap, hstr⟩ := element_apart h
  simp only [eval, hmap, Bool.false_eq_true, if_false, if_neg hstr]

theorem elementLvalue_other {t : TypeRef} (hnone : (isSlice t || isArray t) = false) (l : Lvalue)
    (value index : Option Code) :
    elementLvalue t l value index =
      match l with
      | .place q => .refused (some q)
      | .refused attempt => .refused attempt := by
  obtain ⟨hslice, harray⟩ := Bool.or_eq_false_iff.mp hnone
  cases l <;> simp [elementLvalue, hslice, harray]

/-- Where an element has no place, it is one of a map or of a string. -/
theorem index_refused {attempt : Option Place} (hc : emitExpr d (.index obj index) = some c)
    (hl : emitLvalue d (.index obj index) = .refused attempt) :
    (isSlice (typeOf d obj) || isArray (typeOf d obj)) = false ∧
      ((∃ q, emitLvalue d obj = .place q ∧ attempt = some q) ∨
        (emitLvalue d obj = .refused attempt ∧ ∃ value, emitExpr d obj = some value)) := by
  simp only [emitLvalue] at hl
  simp only [emitExpr] at hc
  by_cases hmap : isMap (typeOf d obj) = true
  · obtain ⟨hslice, harray, -⟩ := isMap_apart hmap
    have hnone : (isSlice (typeOf d obj) || isArray (typeOf d obj)) = false := by
      rw [hslice, harray]
      rfl
    rw [elementLvalue_other hnone] at hl
    rw [if_pos hmap] at hc
    refine ⟨hnone, ?_⟩
    cases hlvalue : emitLvalue d obj with
    | place q =>
      rw [hlvalue] at hl
      cases hl
      exact Or.inl ⟨q, rfl, rfl⟩
    | refused attempt' =>
      rw [hlvalue] at hl hc
      cases hl
      cases hvalue : emitExpr d obj with
      | none =>
        rw [hvalue] at hc
        cases attempt <;> cases hc
      | some value => exact Or.inr ⟨rfl, value, rfl⟩
  · rw [if_neg hmap] at hc
    by_cases hstr : typeOf d obj = str
    · have hnone : (isSlice (typeOf d obj) || isArray (typeOf d obj)) = false := by
        rw [hstr]
        rfl
      rw [elementLvalue_other hnone] at hl
      rw [if_pos hstr] at hc
      refine ⟨hnone, ?_⟩
      cases hlvalue : emitLvalue d obj with
      | place q =>
        rw [hlvalue] at hl
        cases hl
        exact Or.inl ⟨q, rfl, rfl⟩
      | refused attempt' =>
        rw [hlvalue] at hl
        cases hl
        cases hvalue : emitExpr d obj with
        | none =>
          rw [hvalue] at hc
          cases hc
        | some value => exact Or.inr ⟨rfl, value, rfl⟩
    · rw [if_neg hstr, hl] at hc
      cases hc

theorem rooted_of_place {q : Place} (h : emitLvalue d e = .place q) : rooted d e = true := by
  have hsome := emitLvalue_isSome (d := d) e
  rw [h] at hsome
  exact (Bool.and_eq_true_iff.mp hsome.symm).1

theorem not_rooted_of_refused {attempt : Option Place} (h : emitLvalue d e = .refused attempt)
    (hc : emitExpr d e = some c) : rooted d e = false := by
  have hlvalue := emitLvalue_isSome (d := d) e
  have hvalue := emitExpr_isSome (d := d) e
  rw [h, ← hvalue, hc] at hlvalue
  simpa [Lvalue.place?] using hlvalue

/-- An element is evaluated from its object on. -/
theorem eval_index_begins {σ V P : Type} (m : Machine σ V P) {a : Place}
    (hpointing : ∃ k : P → Run σ V,
      pointing m (isPlaced d obj) (evalPlace d m obj) (eval d m obj) = (do
        let p ← execPlace m a
        k p))
    (hvalue : ∃ k : P → Run σ V, eval d m obj = (do
      let p ← execPlace m a
      k p)) :
    ∃ k : P → Run σ V, eval d m (.index obj index) = (do
      let p ← execPlace m a
      k p) := by
  obtain ⟨k, hk⟩ := hpointing
  obtain ⟨k', hk'⟩ := hvalue
  by_cases hmap : isMap (typeOf d obj) = true
  · simp only [eval, if_pos hmap, hk, bind_assoc]
    exact ⟨_, rfl⟩
  · simp only [eval, if_neg hmap, hk', bind_assoc]
    exact ⟨_, rfl⟩

theorem emitted_index (h : Emitted d obj) (hindex : Emitted d index) :
    Emitted d (.index obj index) := by
  have hplace : ∀ {p}, emitLvalue d (.index obj index) = .place p →
      isPlaced d (.index obj index) = true ∧ attempted d (.index obj index) = [] ∧
        Locates (calls d false (.index obj index)) (repeated d (.index obj index)) p
          (fun _ _ _ m => evalPlace d m (.index obj index))
          fun _ _ _ m => eval d m (.index obj index) := by
    intro p hp
    obtain ⟨hkind, hlocates⟩ := locates_index h hindex hp
    have hmeaning := fun σ V P (m : Machine σ V P) => eval_index_element m index hkind
    have hmap := (element_apart hkind).1
    simp only [isPlaced, hkind, attempted, if_true, calls, repeated, hmap, Bool.false_eq_true,
      if_false, List.nil_append, hmeaning]
    exact ⟨trivial, trivial, hlocates⟩
  have hrefused : ∀ {attempt c}, emitLvalue d (.index obj index) = .refused attempt →
      emitExpr d (.index obj index) = some c →
      isPlaced d (.index obj index) = false ∧
        ((attempt = none ∧ attempted d (.index obj index) = []) ∨
          ∃ a, attempt = some a ∧
            Attempts (attempted d (.index obj index)) a fun _ _ _ m =>
              eval d m (.index obj index)) := by
    intro attempt c hattempt hc
    obtain ⟨hkind, hcases⟩ := index_refused hc hattempt
    refine ⟨hkind, ?_⟩
    rcases hcases with ⟨q, hq, rfl⟩ | ⟨hobj, value, hvalue⟩
    · obtain ⟨hplaced, -, hlocates⟩ := h.place hq
      refine Or.inr ⟨q, rfl, ?_⟩
      simp only [attempted, hkind, Bool.false_eq_true, if_false, rooted_of_place hq, if_true]
      refine ⟨hlocates.all, fun hagain σ V P m => ?_⟩
      obtain ⟨-, hrepeated⟩ := List.append_eq_nil_iff.mp hagain
      refine eval_index_begins m ⟨fun p => pure (m.pointer p), ?_⟩ ⟨m.get, ?_⟩
      · simp only [pointing, hplaced, if_true, hlocates.place hrepeated σ V P m]
      · exact (hlocates.stored hrepeated σ V P m).symm
    · have hrooted := not_rooted_of_refused hobj hvalue
      simp only [attempted, hkind, Bool.false_eq_true, if_false, hrooted]
      cases attempt with
      | none => exact Or.inl ⟨rfl, (h.nothing hobj hvalue).2⟩
      | some a =>
        obtain ⟨hplaced, hattempts⟩ := h.attempt hobj hvalue
        refine Or.inr ⟨a, rfl, hattempts.all, fun hagain σ V P m => ?_⟩
        obtain ⟨k, hk⟩ := hattempts.begins hagain σ V P m
        refine eval_index_begins m ⟨fun p => do return m.pointer (m.temporary (← k p)), ?_⟩ ⟨k, hk⟩
        simp only [pointing, hplaced, Bool.false_eq_true, if_false, hk, bind_assoc]
  refine ⟨?_, hplace, ?_, ?_⟩
  · intro c hc
    have hemitted := hc
    simp only [emitExpr] at hc
    by_cases hmap : isMap (typeOf d obj) = true
    · rw [if_pos hmap] at hc
      obtain ⟨pointer, hpointer, hc⟩ := Option.bind_eq_some_iff.mp hc
      obtain ⟨key, hkey, hc⟩ := Option.bind_eq_some_iff.mp hc
      cases hc
      have hkeys := performsAll_cons (hindex.value hkey) performsAll_nil
      have hcall := performs_call (.compute "map.get") (performs_mapPointer h hpointer) hkeys
      simp only [Operation.calls, List.append_nil, AccessExpressions.sequence, Machine.act,
        bind_assoc,
        pure_bind] at hcall
      simp only [calls, repeated, eval, if_pos hmap]
      exact hcall
    · rw [if_neg hmap] at hc
      by_cases hstr : typeOf d obj = str
      · rw [if_pos hstr] at hc
        obtain ⟨value, hvalue, hc⟩ := Option.bind_eq_some_iff.mp hc
        obtain ⟨i, hi, hc⟩ := Option.bind_eq_some_iff.mp hc
        cases hc
        have his := performsAll_cons (hindex.value hi) performsAll_nil
        have hcall := performs_call (.compute "str.byte") (h.value hvalue) his
        simp only [Operation.calls, List.append_nil, AccessExpressions.sequence, Machine.act,
        bind_assoc,
          pure_bind] at hcall
        simp only [calls, repeated, eval, if_neg hmap, if_pos hstr, List.nil_append]
        exact hcall
      · rw [if_neg hstr] at hc
        cases hlvalue : emitLvalue d (.index obj index) with
        | refused attempt =>
          have hself := hlvalue
          rw [emitLvalue] at hself
          rw [hself] at hc
          cases hc
        | place p =>
          have hself := hlvalue
          rw [emitLvalue] at hself
          rw [hself] at hc
          cases hc
          exact performs_load (hplace hlvalue).2.2
  · intro a c ha hc
    obtain ⟨hplaced, ⟨hnone, -⟩ | ⟨a', heq, hattempts⟩⟩ := hrefused ha hc
    · cases hnone
    · cases heq
      exact ⟨hplaced, hattempts⟩
  · intro c ha hc
    obtain ⟨hplaced, ⟨-, hattempted⟩ | ⟨a', heq, -⟩⟩ := hrefused ha hc
    · exact ⟨hplaced, hattempted⟩
    · cases heq

/-- The emission of a list of expressions. -/
def EmittedAll (d : Declarations) (es : List Expr) : Prop :=
  ∀ {cs}, emitExprs d es = some cs → List.Forall₂ (fun e c =>
    Performs (calls d false e) (repeated d e) c fun _ _ _ m => eval d m e) es cs

theorem performsAll_of_forall₂ {es : List Expr} {cs : List Code}
    (h : List.Forall₂ (fun e c =>
      Performs (calls d false e) (repeated d e) c fun _ _ _ m => eval d m e) es cs) :
    PerformsAll (es.map (calls d false)).flatten (es.map (repeated d)).flatten cs
      fun _ _ _ m => es.map (eval d m) := by
  induction h with
  | nil => exact performsAll_nil
  | cons hfirst _ ih => exact performsAll_cons hfirst ih

theorem performsAll_emitted {es : List Expr} {cs : List Code} (h : EmittedAll d es)
    (hcs : emitExprs d es = some cs) :
    PerformsAll (callsEach d false es).flatten (repeatedEach d es).flatten cs
      fun _ _ _ m => evals d m es := by
  simp only [callsEach_eq, repeatedEach_eq, evals_eq]
  exact performsAll_of_forall₂ (h hcs)

mutual

theorem emitted (e : Expr) : Emitted d e := by
  cases e with
  | constant text type =>
    refine emitted_of_value rfl fun h => ?_
    cases h
    exact ⟨List.Perm.nil, fun _ => rfl, fun _ _ _ _ _ => rfl⟩
  | «variable» name type => exact emitted_variable name type
  | operation op type operands =>
    refine emitted_of_value rfl fun h => ?_
    simp only [emitExpr] at h
    obtain ⟨codes, hcodes, h⟩ := Option.bind_eq_some_iff.mp h
    cases h
    exact performs_operation op (performsAll_emitted (emittedAll operands) hcodes)
  | overloaded occ type path derived receiver others =>
    refine emitted_of_value rfl fun h => ?_
    simp only [emitExpr] at h
    obtain ⟨arg, harg, h⟩ := Option.bind_eq_some_iff.mp h
    obtain ⟨codes, hcodes, h⟩ := Option.bind_eq_some_iff.mp h
    cases h
    exact performs_call (.perform occ) (performs_overloadArg path (emitted receiver) harg)
      (performsAll_emitted (emittedAll others) hcodes)
  | structLiteral op name names values =>
    refine emitted_of_value rfl fun h => ?_
    simp only [emitExpr] at h
    obtain ⟨codes, hcodes, h⟩ := Option.bind_eq_some_iff.mp h
    cases h
    have hordered := forall₂_reorder (emittedAll values hcodes) (declaredNames d name) names
    have hperforms := performs_operation op (performsAll_of_forall₂ hordered)
    simp only [← reorder_map, ← callsEach_eq, ← repeatedEach_eq, ← evals_eq] at hperforms
    exact hperforms
  | field obj name => exact emitted_field name (emitted obj)
  | index obj index => exact emitted_index (emitted obj) (emitted index)
  | slice occ obj bounds =>
    refine emitted_of_value rfl fun h => ?_
    simp only [emitExpr] at h
    obtain ⟨source, hsource, h⟩ := Option.bind_eq_some_iff.mp h
    obtain ⟨codes, hcodes, h⟩ := Option.bind_eq_some_iff.mp h
    cases h
    exact performs_call (.perform occ) (performs_sliceSource (emitted obj) hsource)
      (performsAll_emitted (emittedAll bounds) hcodes)
  | method occ type obj args =>
    refine emitted_of_value rfl fun h => ?_
    simp only [emitExpr] at h
    obtain ⟨arg, harg, h⟩ := Option.bind_eq_some_iff.mp h
    obtain ⟨codes, hcodes, h⟩ := Option.bind_eq_some_iff.mp h
    cases h
    exact performs_call (.perform occ) (performs_methodArg _ (emitted obj) harg)
      (performsAll_emitted (emittedAll args) hcodes)
  | mapCall op type map args =>
    refine emitted_of_value rfl fun h => ?_
    simp only [emitExpr] at h
    obtain ⟨pointer, hpointer, h⟩ := Option.bind_eq_some_iff.mp h
    obtain ⟨codes, hcodes, h⟩ := Option.bind_eq_some_iff.mp h
    cases h
    exact performs_call op (performs_mapPointer (emitted map) hpointer)
      (performsAll_emitted (emittedAll args) hcodes)

theorem emittedAll (es : List Expr) : EmittedAll d es := by
  cases es with
  | nil =>
    intro cs h
    cases h
    exact .nil
  | cons e es =>
    intro cs h
    simp only [emitExprs] at h
    obtain ⟨code, hcode, h⟩ := Option.bind_eq_some_iff.mp h
    obtain ⟨codes, hcodes, h⟩ := Option.bind_eq_some_iff.mp h
    cases h
    exact .cons ((emitted e).value hcode) (emittedAll es hcodes)

end

end Compilation

end NewClLang.AccessCompilation
