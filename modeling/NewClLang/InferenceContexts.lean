import NewClLang.ReturnInference

set_option autoImplicit false

/-!
# Walks in different contexts

The walk of a body takes the same course in two settings that give it the same return types, as
long as neither tells it something else than it is told at the top level.
-/
namespace NewClLang.InferenceContexts
open TypeRefs StatefulRuns Lockstep ReturnInference

def Disturbed (s : State) : Prop := s.disturbed = true

/-- Two walks at one place, with what each setting has to keep of the return types. -/
def Alike (I J : Memo → Prop) (s t : State) : Prop := s.frame = t.frame ∧ I s.memo ∧ J t.memo

/-- A setting that answers every question as at the top level. -/
structure AtTop (env : Env) : Prop where
  context : ∀ s, env.context s = s.frame.own
  flag : ∀ s f, env.flag s f = env.directFallible f
  ready : ∀ s f, env.ready s f = true

abbrev Tracks (I J : Memo → Prop) (ql qr : Prop) {α : Type} (x y : Walk α) : Prop :=
  Follows (Alike I J) Disturbed ql qr x y

/-- Two settings of one program. -/
structure Settings (I J : Memo → Prop) (ql qr : Prop) (env env' : Env) : Prop where
  rules : env'.rules = env.rules
  direct : env'.directFallible = env.directFallible
  resolve : ∀ f, Tracks I J ql qr (env.resolve f) (env'.resolve f)
  peek : ∀ f, Tracks I J ql qr (env.peek f) (env'.peek f)
  left : ql → AtTop env
  right : qr → AtTop env'

section Steps
variable {I J : Memo → Prop} {ql qr : Prop} {α β : Type} {env env' : Env}

theorem keeps_onFrame {K : State → Prop} (step : Frame → Except Failure (α × Frame))
    (h : ∀ (s : State) (frame : Frame), K s → K { s with frame := frame }) :
    Keeps K (onFrame step) := by
  intro s hs
  rw [finalState, onFrame]
  cases step s.frame with
  | error failure => exact hs
  | ok result => exact h s result.2 hs

theorem tracks_onFrame (step : Frame → Except Failure (α × Frame)) :
    Tracks I J ql qr (onFrame step) (onFrame step) where
  stays_left := keeps_onFrame step (fun _ _ h => h)
  stays_right := keeps_onFrame step (fun _ _ h => h)
  quiet_left _ := keeps_onFrame step (fun _ _ h => h)
  quiet_right _ := keeps_onFrame step (fun _ _ h => h)
  step s t a s' hst hx _ _ := by
    obtain ⟨hframe, hI, hJ⟩ := hst
    rw [onFrame] at hx ⊢
    rw [← hframe]
    cases hstep : step s.frame with
    | error failure =>
      rw [hstep] at hx
      cases hx
    | ok result =>
      rw [hstep] at hx
      cases hx
      exact ⟨_, rfl, rfl, hI, hJ⟩

theorem keeps_ask_disturbed [DecidableEq β] (answer : State → β) (own : Frame → β) :
    Keeps Disturbed (ask answer own) := by
  intro s hs
  change (s.disturbed || decide (answer s ≠ own s.frame)) = true
  rw [hs]
  rfl

theorem keeps_ask_undisturbed [DecidableEq β] {answer : State → β} {own : Frame → β}
    (h : ∀ s, answer s = own s.frame) : Keeps (fun s => ¬Disturbed s) (ask answer own) := by
  intro s hs
  change ¬(s.disturbed || decide (answer s ≠ own s.frame)) = true
  rw [h s]
  simpa [Disturbed] using hs

theorem ask_undisturbed [DecidableEq β] {answer : State → β} {own : Frame → β} {s : State}
    (h : ¬Disturbed (finalState (ask answer own) s)) : answer s = own s.frame := by
  change ¬(s.disturbed || decide (answer s ≠ own s.frame)) = true at h
  by_contra hne
  exact h (by rw [decide_eq_true hne, Bool.or_true])

/-- The one place where the settings differ: what they answer to a question. -/
theorem tracks_ask [DecidableEq β] {answer answer' : State → β} {own : Frame → β}
    (hl : ql → ∀ s, answer s = own s.frame) (hr : qr → ∀ s, answer' s = own s.frame) :
    Tracks I J ql qr (ask answer own) (ask answer' own) where
  stays_left := keeps_ask_disturbed answer own
  stays_right := keeps_ask_disturbed answer' own
  quiet_left hq := keeps_ask_undisturbed (hl hq)
  quiet_right hq := keeps_ask_undisturbed (hr hq)
  step s t a s' hst hx hs' ht' := by
    obtain ⟨hframe, hI, hJ⟩ := hst
    have hright := ask_undisturbed ht'
    have hleft : answer s = own s.frame := ask_undisturbed (by rwa [finalState_ok hx])
    have hsame : answer' t = answer s := by rw [hright, hleft, hframe]
    rw [ask] at hx
    cases hx
    refine ⟨finalState (ask answer' own) t, ?_, hframe, hI, hJ⟩
    rw [← hsame]
    rfl

theorem tracks_consult [DecidableEq β] (h : Settings I J ql qr env env')
    (question : Context → β) : Tracks I J ql qr (consult env question) (consult env' question) :=
  tracks_ask (fun hq s => by rw [(h.left hq).context]) (fun hq s => by rw [(h.right hq).context])

theorem tracks_flagged (h : Settings I J ql qr env env') (f : ℕ) :
    Tracks I J ql qr (flagged env f) (flagged env' f) := by
  rw [flagged, flagged, h.direct]
  refine tracks_ask (fun hq s => (h.left hq).flag s f) (fun hq s => ?_)
  rw [(h.right hq).flag, h.direct]

theorem tracks_allReady (h : Settings I J ql qr env env') (fs : List ℕ) :
    Tracks I J ql qr (allReady env fs) (allReady env' fs) :=
  tracks_ask (fun hq s => List.all_eq_true.2 (fun f _ => (h.left hq).ready s f))
    (fun hq s => List.all_eq_true.2 (fun f _ => (h.right hq).ready s f))

/-- A step that changes neither the frame nor the return types, nor marks the state. -/
theorem tracks_silent (change : State → State) (hframe : ∀ s, (change s).frame = s.frame)
    (hmemo : ∀ s, (change s).memo = s.memo) (hdisturbed : ∀ s, (change s).disturbed = s.disturbed) :
    Tracks I J ql qr (fun s => .ok () (change s)) (fun s => .ok () (change s)) where
  stays_left s hs := (hdisturbed s).trans hs
  stays_right s hs := (hdisturbed s).trans hs
  quiet_left _ s hs := fun h => hs ((hdisturbed s).symm.trans h)
  quiet_right _ s hs := fun h => hs ((hdisturbed s).symm.trans h)
  step s t a s' hst hx _ _ := by
    obtain ⟨hf, hI, hJ⟩ := hst
    cases hx
    refine ⟨change t, rfl, ?_, ?_, ?_⟩
    · rw [hframe, hframe, hf]
    · rwa [hmemo]
    · rwa [hmemo]

theorem markCurrentFallible_disturbed (node : ℕ) (s : State) :
    (finalState (markCurrentFallible node) s).disturbed = s.disturbed := by
  rw [finalState, markCurrentFallible]
  cases s.frame.callable <;> rfl

theorem tracks_markCurrentFallible (node : ℕ) :
    Tracks I J ql qr (markCurrentFallible node) (markCurrentFallible node) where
  stays_left s hs := (markCurrentFallible_disturbed node s).trans hs
  stays_right s hs := (markCurrentFallible_disturbed node s).trans hs
  quiet_left _ s hs := fun h => hs ((markCurrentFallible_disturbed node s).symm.trans h)
  quiet_right _ s hs := fun h => hs ((markCurrentFallible_disturbed node s).symm.trans h)
  step s t a s' hst hx _ _ := by
    obtain ⟨hf, hI, hJ⟩ := hst
    rw [markCurrentFallible] at hx ⊢
    cases hcallable : s.frame.callable with
    | function f =>
      rw [hcallable] at hx
      cases hx
      rw [hf] at hcallable
      rw [hcallable]
      exact ⟨_, rfl, hf, hI, hJ⟩
    | none =>
      rw [hcallable] at hx
      cases hx
    | expression =>
      rw [hcallable] at hx
      cases hx

end Steps

section Settings
variable {I J : Memo → Prop} {ql qr : Prop} {α : Type} {x y : Walk α}

theorem tracks_around (enter leave : Context → Context) (h : Tracks I J ql qr x y) :
    Tracks I J ql qr (do setOwn enter; let a ← x; setOwn leave; pure a)
      (do setOwn enter; let a ← y; setOwn leave; pure a) :=
  follows_bind (tracks_onFrame _) (fun _ => follows_bind h (fun a =>
    follows_bind (tracks_onFrame _) (fun _ => follows_pure a)))

theorem tracks_inScope (h : Tracks I J ql qr x y) : Tracks I J ql qr (inScope x) (inScope y) :=
  tracks_around _ _ h

theorem tracks_inLoop (h : Tracks I J ql qr x y) : Tracks I J ql qr (inLoop x) (inLoop y) :=
  tracks_around _ _ h

theorem tracks_inDefer (h : Tracks I J ql qr x y) : Tracks I J ql qr (inDefer x) (inDefer y) :=
  tracks_around _ _ h

theorem tracks_inFallibleOp (h : Tracks I J ql qr x y) :
    Tracks I J ql qr (inFallibleOp x) (inFallibleOp y) :=
  tracks_around _ _ h

theorem tracks_inClosure (h : Tracks I J ql qr x y) :
    Tracks I J ql qr (inClosure x) (inClosure y) :=
  tracks_around _ _ h

theorem tracks_narrowedTo (narrowing : Option (String × TypeRef)) (h : Tracks I J ql qr x y) :
    Tracks I J ql qr (narrowedTo narrowing x) (narrowedTo narrowing y) := by
  cases narrowing with
  | none => exact h
  | some e => exact tracks_around _ _ h

/-- A change of the setting that is undone, where the frame decides what becomes of the frame. -/
theorem tracks_within {enter : State → State} {leave : State → State → State}
    (enterFrame : Frame → Frame) (leaveFrame : Frame → Frame → Frame)
    (h : Tracks I J ql qr x y)
    (henter : ∀ s, (enter s).disturbed = s.disturbed ∧ (enter s).memo = s.memo ∧
      (enter s).frame = enterFrame s.frame)
    (hleave : ∀ s s', (leave s s').disturbed = s'.disturbed ∧ (leave s s').memo = s'.memo ∧
      (leave s s').frame = leaveFrame s.frame s'.frame) :
    Tracks I J ql qr (within enter leave x) (within enter leave y) := by
  refine follows_within h ?_ ?_ ?_ ?_
  · intro s
    rw [Disturbed, Disturbed, (henter s).left]
  · intro s s'
    rw [Disturbed, Disturbed, (hleave s s').left]
  · rintro s t ⟨hframe, hI, hJ⟩
    obtain ⟨-, hmemo, hf⟩ := henter s
    obtain ⟨-, hmemo', hf'⟩ := henter t
    refine ⟨?_, ?_, ?_⟩
    · rw [hf, hf', hframe]
    · rwa [hmemo]
    · rwa [hmemo']
  · rintro s t s' t' ⟨hframe, -, -⟩ ⟨hframe', hI, hJ⟩
    obtain ⟨-, hmemo, hf⟩ := hleave s s'
    obtain ⟨-, hmemo', hf'⟩ := hleave t t'
    refine ⟨?_, ?_, ?_⟩
    · rw [hf, hf', hframe, hframe']
    · rwa [hmemo]
    · rwa [hmemo']

def atDepth (depth : ℕ) (f : Frame) : Frame :=
  { f with own := { f.own with fallibleOpDepth := depth } }

theorem tracks_outsideFallibleOp (h : Tracks I J ql qr x y) :
    Tracks I J ql qr (outsideFallibleOp x) (outsideFallibleOp y) :=
  tracks_within (atDepth 0) (fun f f' => atDepth f.own.fallibleOpDepth f') h
    (fun _ => ⟨rfl, rfl, rfl⟩) (fun _ _ => ⟨rfl, rfl, rfl⟩)

theorem tracks_forOmitted (node : ℕ) (h : Tracks I J ql qr x y) :
    Tracks I J ql qr (forOmitted node x) (forOmitted node y) := by
  refine tracks_within (atDepth 0) (fun f f' => atDepth f.own.fallibleOpDepth f') h
    (fun s => ?_) (fun _ _ => ⟨rfl, rfl, rfl⟩)
  by_cases hagain : s.completed.contains node = true
  · rw [if_pos hagain]
    exact ⟨rfl, rfl, rfl⟩
  · rw [if_neg hagain]
    exact ⟨rfl, rfl, rfl⟩

theorem tracks_asCallable (callable : Callable) (returnType : Option TypeRef)
    (h : Tracks I J ql qr x y) :
    Tracks I J ql qr (asCallable callable returnType x) (asCallable callable returnType y) :=
  tracks_within
    (fun f => { f with
      returnType := returnType
      returned := []
      returnedVoid := false
      callable := callable })
    (fun f f' => { f' with
      returnType := f.returnType
      returned := f.returned
      returnedVoid := f.returnedVoid
      callable := f.callable }) h
    (fun _ => ⟨rfl, rfl, rfl⟩) (fun _ _ => ⟨rfl, rfl, rfl⟩)

theorem tracks_onTop (callable : Callable) (returnType : Option TypeRef)
    (h : Tracks I J ql qr x y) :
    Tracks I J ql qr (onTop callable returnType x) (onTop callable returnType y) :=
  tracks_within (fun _ => ⟨Context.empty, returnType, [], false, callable, []⟩) (fun f _ => f) h
    (fun _ => ⟨rfl, rfl, rfl⟩) (fun _ _ => ⟨rfl, rfl, rfl⟩)

theorem tracks_declareAll (names : List String) (types : List TypeRef) :
    Tracks I J ql qr (declareAll names types) (declareAll names types) := by
  induction names generalizing types with
  | nil => exact follows_pure ()
  | cons name names ih =>
    cases types with
    | nil => exact follows_pure ()
    | cons type types => exact follows_bind (tracks_onFrame _) (fun _ => ih types)

end Settings

section Checks
variable {I J : Memo → Prop} {ql qr : Prop} {env env' : Env} (h : Settings I J ql qr env env')
include h

theorem tracks_resolveAll (fs : List ℕ) :
    Tracks I J ql qr (resolveAll env fs) (resolveAll env' fs) := by
  induction fs with
  | nil => exact follows_pure []
  | cons f fs ih =>
    exact follows_bind (h.resolve f) (fun type => follows_bind ih (fun types => follows_pure _))

theorem tracks_check (node : ℕ) (view : View) :
    Tracks I J ql qr (check env node view) (check env' node view) := by
  rw [check, check, h.rules]
  cases env.rules.check node view with
  | none => exact follows_throw _ _
  | some type => exact follows_bind (tracks_onFrame _) (fun _ => follows_pure type)

theorem tracks_finish (node : ℕ) (types : List TypeRef) :
    Tracks I J ql qr (finish env node types) (finish env' node types) := by
  rw [finish, finish, h.rules]
  exact follows_bind (tracks_consult h _) (fun _ =>
    follows_bind (tracks_resolveAll h _) (fun _ =>
      follows_bind (tracks_allReady h _) (fun _ =>
        follows_bind (tracks_onFrame _) (fun _ => tracks_check h node _))))

theorem tracks_bindTypes (node : ℕ) (types : List TypeRef) :
    Tracks I J ql qr (bindTypes env node types) (bindTypes env' node types) := by
  rw [bindTypes, bindTypes, h.rules]
  refine follows_bind (tracks_finish h node types) (fun _ => ?_)
  cases env.rules.binds node types with
  | none => exact follows_throw _ _
  | some bound => exact follows_pure bound

theorem tracks_requireAll (node : ℕ) (first : TypeRef) (types : List TypeRef) :
    Tracks I J ql qr (requireAll env node first types) (requireAll env' node first types) := by
  induction types with
  | nil => exact follows_pure ()
  | cons type types ih => exact follows_bind (tracks_finish h node _) (fun _ => ih)

theorem tracks_mergeReturns (node : ℕ) (tail : Option TypeRef) :
    Tracks I J ql qr (mergeReturns env node tail) (mergeReturns env' node tail) := by
  refine follows_bind (tracks_onFrame _) (fun returned =>
    follows_bind (tracks_onFrame _) (fun void => ?_))
  cases (returned ++ tail.toList).filter (fun type => type ≠ neverType) with
  | nil => exact follows_pure voidType
  | cons first rest =>
    cases void with
    | true => exact follows_throw _ _
    | false =>
      exact follows_bind (tracks_requireAll h node first rest) (fun _ => follows_pure first)

theorem tracks_noteReturn (node : ℕ) (type : TypeRef) :
    Tracks I J ql qr (noteReturn env node type) (noteReturn env' node type) := by
  refine follows_bind (tracks_onFrame _) (fun expected => ?_)
  cases expected with
  | none => exact tracks_onFrame _
  | some expected => exact follows_bind (tracks_finish h node _) (fun _ => follows_pure ())

omit h in
theorem tracks_noteReturnVoid (node : ℕ) :
    Tracks I J ql qr (noteReturnVoid node) (noteReturnVoid node) := by
  refine follows_bind (tracks_onFrame _) (fun expected => ?_)
  cases expected with
  | none => exact tracks_onFrame _
  | some expected =>
    dsimp only
    by_cases hvoid : expected = voidType
    · rw [if_pos hvoid]
      exact follows_pure ()
    · rw [if_neg hvoid]
      exact follows_throw _ _

theorem tracks_checkCall (callee : Option ℕ) :
    Tracks I J ql qr (checkCall env callee) (checkCall env' callee) := by
  cases callee with
  | none => exact follows_pure false
  | some f =>
    refine follows_bind (tracks_flagged h f) (fun fallible => ?_)
    cases fallible with
    | false => exact follows_pure false
    | true =>
      refine follows_bind (tracks_consult h _) (fun handled => ?_)
      cases handled with
      | true => exact follows_pure true
      | false => exact follows_throw _ _

theorem tracks_failInDefer (node : ℕ) :
    Tracks I J ql qr (failInDefer env node) (failInDefer env' node) := by
  refine follows_bind (tracks_consult h _) (fun deferred => ?_)
  cases deferred with
  | true => exact follows_throw _ _
  | false => exact follows_pure ()

theorem tracks_functionValue (node f : ℕ) :
    Tracks I J ql qr (functionValue env node f) (functionValue env' node f) := by
  refine follows_bind (h.resolve f) (fun returned =>
    follows_bind (tracks_flagged h f) (fun fallible => ?_))
  cases fallible with
  | true => exact follows_throw _ _
  | false =>
    exact follows_bind (tracks_onFrame _) (fun _ =>
      follows_bind (tracks_check h node _) (fun type => follows_pure _))

omit h in
theorem tracks_setRead (node : ℕ) (name : String) (seen : Sight) (type : TypeRef) :
    Tracks I J ql qr (setRead node name seen type) (setRead node name seen type) :=
  follows_bind (tracks_onFrame _) (fun _ => follows_pure _)

theorem tracks_walkIdentifier (node : ℕ) (name : String) :
    Tracks I J ql qr (walkIdentifier env node name) (walkIdentifier env' node name) := by
  rw [walkIdentifier, walkIdentifier, h.rules]
  refine follows_bind (tracks_consult h _) (fun seen => ?_)
  cases seen.type with
  | some type => exact tracks_setRead node name seen type
  | none =>
    cases env.rules.function name with
    | some f => exact tracks_functionValue h node f
    | none =>
      cases env.rules.method name with
      | some f => exact follows_bind (h.peek f) (fun type => tracks_setRead node name seen type)
      | none =>
        cases env.rules.typeName name with
        | some type => exact tracks_setRead node name seen type
        | none => exact follows_throw _ _

theorem tracks_checkTarget (node : ℕ) (target : Typed) :
    Tracks I J ql qr (checkTarget env node target) (checkTarget env' node target) := by
  rw [checkTarget, checkTarget]
  cases target.name? with
  | none => exact follows_pure ()
  | some name =>
    refine follows_bind (tracks_consult h _) (fun seen => ?_)
    by_cases hbanned : (seen.immutable || seen.narrowed.isSome || target.captured) = true
    · rw [if_pos hbanned]
      exact follows_throw _ _
    · rw [if_neg hbanned]
      exact follows_pure ()

omit h in
theorem tracks_requireFallible (node : ℕ) (t : Typed) :
    Tracks I J ql qr (requireFallible node t) (requireFallible node t) := by
  rw [requireFallible]
  by_cases hfallible : t.fallible = true
  · rw [if_pos hfallible]
    exact follows_pure ()
  · rw [if_neg hfallible]
    exact follows_throw _ _

omit h in
theorem tracks_ifPropagating (op : FallibleOp) {x y : Walk Unit} (hxy : Tracks I J ql qr x y) :
    Tracks I J ql qr (ifPropagating op x) (ifPropagating op y) := by
  cases op with
  | propagate => exact hxy
  | unwrap => exact follows_pure ()

omit h in
theorem tracks_writtenOr (returnType : Option TypeRef) {x y : Walk TypeRef}
    (hxy : Tracks I J ql qr x y) :
    Tracks I J ql qr (writtenOr returnType x) (writtenOr returnType y) := by
  cases returnType with
  | some type => exact follows_pure type
  | none => exact hxy

theorem tracks_nestedReturnType (head : FunctionHead) :
    Tracks I J ql qr (nestedReturnType env head) (nestedReturnType env' head) :=
  tracks_writtenOr head.returnType (follows_bind (h.resolve head.key) (fun _ => follows_pure voidType))

theorem tracks_returnTypeOf (head : FunctionHead) :
    Tracks I J ql qr (returnTypeOf env head) (returnTypeOf env' head) :=
  tracks_writtenOr head.returnType (h.resolve head.key)

end Checks

section Walks
variable {I J : Memo → Prop} {ql qr : Prop} {env env' : Env}

mutual

/-- Walks of an expression in two settings. -/
theorem walkExpr_tracks (h : Settings I J ql qr env env') :
    ∀ e : Expr, Tracks I J ql qr (walkExpr env e) (walkExpr env' e)
  | .identifier node name => by
    rw [walkExpr, walkExpr]
    exact tracks_walkIdentifier h node name
  | .operation node operands => by
    rw [walkExpr, walkExpr]
    exact follows_bind (walkExprs_tracks h operands) (fun types =>
      follows_bind (tracks_finish h node types) (fun type => follows_pure _))
  | .notEqual node left right => by
    rw [walkExpr, walkExpr]
    exact follows_bind (walkExpr_tracks h left) (fun l =>
      follows_bind (walkExpr_tracks h right) (fun r =>
        follows_bind (tracks_finish h node _) (fun type => follows_pure _)))
  | .call node args omitted => by
    rw [walkExpr, walkExpr, h.rules]
    exact follows_bind (walkArgs_tracks h args) (fun types =>
      follows_bind (tracks_resolveAll h _) (fun _ =>
        follows_bind (tracks_forOmitted node (walkExprs_tracks h omitted)) (fun defaults =>
          follows_bind (tracks_finish h node _) (fun type =>
            follows_bind (tracks_checkCall h _) (fun fallible => follows_pure _)))))
  | .genericFunctionValue node key => by
    rw [walkExpr, walkExpr]
    exact tracks_functionValue h node key
  | .ret node value => by
    rw [walkExpr, walkExpr]
    exact follows_bind (walkExpr_tracks h value) (fun t =>
      follows_bind (tracks_noteReturn h node t.type) (fun _ =>
        follows_bind (tracks_onFrame _) (fun _ => follows_pure _)))
  | .retVoid node => by
    rw [walkExpr, walkExpr]
    exact follows_bind (tracks_noteReturnVoid node) (fun _ =>
      follows_bind (tracks_onFrame _) (fun _ => follows_pure _))
  | .err node value => by
    rw [walkExpr, walkExpr]
    exact follows_bind (tracks_failInDefer h node) (fun _ =>
      follows_bind (walkExpr_tracks h value) (fun t =>
        follows_bind (tracks_finish h node _) (fun _ =>
          follows_bind (tracks_markCurrentFallible node) (fun _ =>
            follows_bind (tracks_onFrame _) (fun _ => follows_pure _)))))
  | .fallibleOp node op operand => by
    rw [walkExpr, walkExpr]
    exact follows_bind (tracks_ifPropagating op (tracks_failInDefer h node)) (fun _ =>
      follows_bind (tracks_inFallibleOp (walkExpr_tracks h operand)) (fun t =>
        follows_bind (tracks_requireFallible node t) (fun _ =>
          follows_bind (tracks_ifPropagating op (tracks_markCurrentFallible node)) (fun _ =>
            follows_bind (tracks_onFrame _) (fun _ => follows_pure _)))))
  | .errorHandler node operand error handler => by
    rw [walkExpr, walkExpr]
    exact follows_bind (tracks_inFallibleOp (walkExpr_tracks h operand)) (fun t =>
      follows_bind (tracks_requireFallible node t) (fun _ =>
        follows_bind (tracks_inScope (follows_bind (tracks_onFrame _) (fun _ =>
          tracks_inScope (walkStmts_tracks h handler)))) (fun tail =>
            follows_bind (tracks_finish h node _) (fun type => follows_pure _))))
  | .errorMatch node operand error arms => by
    rw [walkExpr, walkExpr]
    exact follows_bind (tracks_inFallibleOp (walkExpr_tracks h operand)) (fun t =>
      follows_bind (tracks_requireFallible node t) (fun _ =>
        follows_bind (tracks_inScope (follows_bind (tracks_onFrame _) (fun _ =>
          walkExprs_tracks h arms))) (fun types =>
            follows_bind (tracks_finish h node _) (fun type => follows_pure _))))
  | .functionExpr node returnType body => by
    rw [walkExpr, walkExpr]
    have hinfer := tracks_asCallable .expression none
      (follows_bind (tracks_inScope (walkStmts_tracks h body)) (fun tail =>
        tracks_mergeReturns h node tail))
    refine follows_bind (tracks_writtenOr returnType hinfer) (fun returned => ?_)
    have hcheck := tracks_asCallable .expression (some returned)
      (follows_bind (tracks_inScope (tracks_inClosure (walkStmts_tracks h body))) (fun tail =>
        tracks_finish h node (returned :: tail.toList)))
    exact follows_bind hcheck (fun type => follows_pure _)
  | .ifExpr node condition thenBlock elseBlock => by
    rw [walkExpr, walkExpr]
    exact follows_bind (walkExpr_tracks h condition) (fun c =>
      follows_bind (tracks_finish h node _) (fun _ =>
        follows_bind (tracks_inScope (tracks_narrowedTo _ (walkStmts_tracks h thenBlock)))
          (fun thenTail => follows_bind (tracks_inScope (walkStmts_tracks h elseBlock))
            (fun elseTail => follows_bind (tracks_finish h node _) (fun type =>
              follows_pure _)))))
  | .blockExpr node block => by
    rw [walkExpr, walkExpr]
    exact follows_bind (tracks_inScope (walkStmts_tracks h block)) (fun tail =>
      follows_bind (tracks_finish h node _) (fun type => follows_pure _))

theorem walkExprs_tracks (h : Settings I J ql qr env env') :
    ∀ es : List Expr, Tracks I J ql qr (walkExprs env es) (walkExprs env' es)
  | [] => by
    rw [walkExprs, walkExprs]
    exact follows_pure []
  | e :: es => by
    rw [walkExprs, walkExprs]
    exact follows_bind (walkExpr_tracks h e) (fun t =>
      follows_bind (walkExprs_tracks h es) (fun types => follows_pure _))

theorem walkArgs_tracks (h : Settings I J ql qr env env') :
    ∀ es : List Expr, Tracks I J ql qr (walkArgs env es) (walkArgs env' es)
  | [] => by
    rw [walkArgs, walkArgs]
    exact follows_pure []
  | e :: es => by
    rw [walkArgs, walkArgs]
    exact follows_bind (tracks_outsideFallibleOp (walkExpr_tracks h e)) (fun t =>
      follows_bind (walkArgs_tracks h es) (fun types => follows_pure _))

theorem walkStmt_tracks (h : Settings I J ql qr env env') :
    ∀ s : Stmt, Tracks I J ql qr (walkStmt env s) (walkStmt env' s)
  | .param node name default => by
    rw [walkStmt, walkStmt]
    exact follows_bind (walkExprs_tracks h default) (fun ts =>
      follows_bind (tracks_bindTypes h node ts) (fun types =>
        follows_bind (tracks_declareAll [name] types) (fun _ => follows_pure none)))
  | .variableDecl node name immutable annotated initializer => by
    rw [walkStmt, walkStmt]
    exact follows_bind (walkExpr_tracks h initializer) (fun t =>
      follows_bind (tracks_finish h node _) (fun _ =>
        follows_bind (tracks_onFrame _) (fun _ => follows_pure none)))
  | .assignment node target value => by
    rw [walkStmt, walkStmt]
    exact follows_bind (walkExpr_tracks h target) (fun t =>
      follows_bind (tracks_finish h node _) (fun _ =>
        follows_bind (tracks_checkTarget h node t) (fun _ =>
          follows_bind (walkExpr_tracks h value) (fun v =>
            follows_bind (tracks_finish h node _) (fun _ => follows_pure none)))))
  | .update node target => by
    rw [walkStmt, walkStmt]
    exact follows_bind (walkExpr_tracks h target) (fun t =>
      follows_bind (tracks_finish h node _) (fun _ =>
        follows_bind (tracks_checkTarget h node t) (fun _ => follows_pure none)))
  | .expression node expr => by
    rw [walkStmt, walkStmt, h.rules]
    exact follows_bind (walkExpr_tracks h expr) (fun t => follows_pure _)
  | .loop node heads names body => by
    rw [walkStmt, walkStmt]
    exact follows_bind (walkExprs_tracks h heads) (fun ts =>
      follows_bind (tracks_bindTypes h node ts) (fun types =>
        follows_bind (tracks_inScope (follows_bind (tracks_declareAll names types) (fun _ =>
          tracks_inLoop (walkStmts_tracks h body)))) (fun _ => follows_pure none)))
  | .tryCall node operand success successBlock error errorBlock => by
    rw [walkStmt, walkStmt]
    exact follows_bind (tracks_inFallibleOp (walkExpr_tracks h operand)) (fun t =>
      follows_bind (tracks_requireFallible node t) (fun _ =>
        follows_bind (tracks_bindTypes h node _) (fun types =>
          follows_bind (tracks_inScope (follows_bind (tracks_declareAll success types) (fun _ =>
            walkStmts_tracks h successBlock))) (fun _ =>
              follows_bind (tracks_inScope (follows_bind (tracks_declareAll error [errorType])
                (fun _ => walkStmts_tracks h errorBlock))) (fun _ => follows_pure none)))))
  | .defer body => by
    rw [walkStmt, walkStmt]
    exact follows_bind (tracks_inDefer (walkStmts_tracks h body)) (fun _ => follows_pure none)
  | .breakLoop node => by
    rw [walkStmt, walkStmt]
    refine follows_bind (tracks_consult h _) (fun inside => ?_)
    cases inside with
    | true => exact follows_pure none
    | false => exact follows_throw _ _
  | .function head defaults body => by
    rw [walkStmt, walkStmt]
    refine follows_bind (tracks_nestedReturnType h head) (fun returned => ?_)
    have hbody := tracks_asCallable (.function head.key) (some returned)
      (follows_bind (tracks_inScope (walkStmts_tracks h body)) (fun tail =>
        follows_bind (tracks_finish h head.node (returned :: tail.toList)) (fun _ =>
          follows_pure ())))
    exact follows_bind hbody (fun _ => follows_pure none)
  | .other node => by
    rw [walkStmt, walkStmt]
    exact follows_bind (tracks_finish h node []) (fun _ => follows_pure none)

theorem walkStmts_tracks (h : Settings I J ql qr env env') :
    ∀ ss : List Stmt, Tracks I J ql qr (walkStmts env ss) (walkStmts env' ss)
  | [] => by
    rw [walkStmts, walkStmts]
    exact follows_pure none
  | [s] => by
    rw [walkStmts, walkStmts]
    exact walkStmt_tracks h s
  | s :: next :: rest => by
    rw [walkStmts, walkStmts]
    exact follows_bind (walkStmt_tracks h s) (fun _ => walkStmts_tracks h (next :: rest))

end

theorem inferReturnFromBody_tracks (h : Settings I J ql qr env env') (d : FunctionDecl) :
    Tracks I J ql qr (inferReturnFromBody env d) (inferReturnFromBody env' d) :=
  tracks_onTop _ none (follows_bind (tracks_inScope (walkStmts_tracks h d.body)) (fun tail =>
    tracks_mergeReturns h d.head.node tail))

theorem defaults_tracks (h : Settings I J ql qr env env') (d : FunctionDecl) :
    Tracks I J ql qr (onTop .none (some voidType) (inScope (walkStmts env d.defaults)))
      (onTop .none (some voidType) (inScope (walkStmts env' d.defaults))) :=
  tracks_onTop _ _ (tracks_inScope (walkStmts_tracks h d.defaults))

theorem validateFunctionDefaults_tracks (h : Settings I J ql qr env env')
    (ds : List FunctionDecl) :
    Tracks I J ql qr (validateFunctionDefaults env ds) (validateFunctionDefaults env' ds) := by
  induction ds with
  | nil => exact follows_pure ()
  | cons d ds ih =>
    refine follows_bind (defaults_tracks h d) (fun _ => follows_bind ?_ (fun _ => ih))
    exact tracks_silent (fun s => { s with validated := d.head.key :: s.validated })
      (fun _ => rfl) (fun _ => rfl) (fun _ => rfl)

theorem checkMarker_tracks (h : Settings I J ql qr env env') (head : FunctionHead) :
    Tracks I J ql qr (checkMarker env head) (checkMarker env' head) := by
  rw [checkMarker, checkMarker]
  by_cases hmarker : head.errMarker = true
  · rw [if_pos hmarker, if_pos hmarker]
    refine follows_bind (tracks_flagged h head.key) (fun fallible => ?_)
    cases fallible with
    | true => exact follows_pure ()
    | false => exact follows_throw _ _
  · rw [if_neg hmarker, if_neg hmarker]
    exact follows_pure ()

theorem checkMarkers_tracks (h : Settings I J ql qr env env') (ds : List FunctionDecl) :
    Tracks I J ql qr (checkMarkers env ds) (checkMarkers env' ds) := by
  induction ds with
  | nil => exact follows_pure ()
  | cons d ds ih => exact follows_bind (checkMarker_tracks h d.head) (fun _ => ih)

theorem functionBody_tracks (h : Settings I J ql qr env env') (head : FunctionHead)
    (body : List Stmt) (returned : TypeRef) :
    Tracks I J ql qr
      (do
        let tail ← inScope (walkStmts env body)
        let _ ← finish env head.node (returned :: tail.toList)
        readFrame Frame.types)
      (do
        let tail ← inScope (walkStmts env' body)
        let _ ← finish env' head.node (returned :: tail.toList)
        readFrame Frame.types) :=
  follows_bind (tracks_inScope (walkStmts_tracks h body)) (fun _ =>
    follows_bind (tracks_finish h head.node _) (fun _ => tracks_onFrame _))

theorem walkFunction_tracks (h : Settings I J ql qr env env') (head : FunctionHead)
    (body : List Stmt) :
    Tracks I J ql qr (walkFunction env head body) (walkFunction env' head body) :=
  follows_bind (tracks_returnTypeOf h head) (fun returned =>
    tracks_onTop _ _ (functionBody_tracks h head body returned))

theorem walkOther_tracks (h : Settings I J ql qr env env') (node : ℕ) :
    Tracks I J ql qr (walkOther env node) (walkOther env' node) :=
  tracks_onTop _ _ (follows_bind (tracks_finish h node []) (fun _ => tracks_onFrame _))

theorem walkTop_statement {s : Stmt} (hs : s.isStatement = true) (rest : Program) :
    walkTop env (s :: rest) = (do
      let _ ← walkStmt env s
      walkTop env rest) := by
  cases s with
  | function head defaults body => cases hs
  | other node => cases hs
  | _ => rfl

theorem walkTop_tracks (h : Settings I J ql qr env env') (ss : Program) :
    Tracks I J ql qr (walkTop env ss) (walkTop env' ss) := by
  induction ss with
  | nil => exact follows_pure []
  | cons s rest ih =>
    by_cases hs : s.isStatement = true
    · rw [walkTop_statement hs, walkTop_statement hs]
      exact follows_bind (walkStmt_tracks h s) (fun _ => ih)
    · cases s with
      | function head defaults body =>
        exact follows_bind (walkFunction_tracks h head body) (fun types =>
          follows_bind ih (fun more => follows_pure _))
      | other node =>
        exact follows_bind (walkOther_tracks h node) (fun types =>
          follows_bind ih (fun more => follows_pure _))
      | _ => exact absurd rfl hs

/-- `infer_types` in two settings. -/
theorem passes_tracks (h : Settings I J ql qr env env') (p : Program) :
    Tracks I J ql qr (passes env p) (passes env' p) := by
  refine follows_bind (validateFunctionDefaults_tracks h p.decls) (fun _ =>
    follows_bind ?_ (fun _ => follows_bind (checkMarkers_tracks h p.decls) (fun _ =>
      follows_bind (tracks_resolveAll h p.top) (fun _ =>
        follows_bind (walkTop_tracks h p) (fun _ => follows_pure _)))))
  exact tracks_silent (fun s => { s with fallible := p.top.filter p.directFallible ++ s.fallible })
    (fun _ => rfl) (fun _ => rfl) (fun _ => rfl)

end Walks

end NewClLang.InferenceContexts
