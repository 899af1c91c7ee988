import NewClLang.InferredTypes
import Mathlib.Data.List.Perm.Basic

set_option autoImplicit false

/-!
# The order of declarations

An undisturbed run of `infer_types` accepts what is accepted at the top level and gives the same
types. At the top level neither the order of the declarations nor a return type that is written
where it would be inferred makes a difference.
-/
namespace NewClLang.DeclarationOrder
open TypeRefs StatefulRuns Lockstep ReturnInference InferenceContexts InferredTypes

section Anywhere
variable {α β : Type}

/-- A walk that comes to the same from every state and leaves the frame as it was. -/
def Anywhere (x : Walk α) : Prop :=
  ∀ (s s' t : State) (a : α), ¬Disturbed s → ¬Disturbed t → x s = .ok a s' →
    s'.frame = s.frame ∧ ¬Disturbed s' ∧ ∃ t', x t = .ok a t'

def Gives (x : Walk α) (a : α) : Prop := ∃ s, x initial = .ok a s

theorem anywhere_pure (a : α) : Anywhere (pure a : Walk α) := by
  intro s s' t b hs _ h
  cases h
  exact ⟨rfl, hs, t, rfl⟩

theorem anywhere_throw (failure : Failure) : Anywhere (throw failure : Walk α) := by
  intro s s' t b _ _ h
  cases h

theorem anywhere_bind {x : Walk α} {f : α → Walk β} (hx : Anywhere x) (hf : ∀ a, Anywhere (f a)) :
    Anywhere (x >>= f) := by
  intro s s' t b hs ht h
  cases hfirst : x s with
  | error e s₁ =>
    rw [bind_error f hfirst] at h
    cases h
  | ok a s₁ =>
    rw [bind_ok f hfirst] at h
    obtain ⟨hframe, hs₁, t₁, hother⟩ := hx s s₁ t a hs ht hfirst
    obtain ⟨-, ht₁, -⟩ := hx t t₁ t a ht ht hother
    obtain ⟨hframe', hs', t', hrest⟩ := hf a s₁ s' t₁ b hs₁ ht₁ h
    exact ⟨hframe'.trans hframe, hs', t', (bind_ok f hother).trans hrest⟩

theorem anywhere_onTop {x : Walk α} (hx : Tracks anyMemo anyMemo True True x x)
    (callable : Callable) (returnType : Option TypeRef) :
    Anywhere (onTop callable returnType x) :=
  fun _ _ _ _ hs ht h => onTop_anywhere hx hs ht h

theorem anywhere_silent (change : State → State) (hframe : ∀ s, (change s).frame = s.frame)
    (hdisturbed : ∀ s, (change s).disturbed = s.disturbed) :
    Anywhere (fun s => .ok () (change s) : Walk Unit) := by
  intro s s' t a hs _ h
  cases h
  exact ⟨hframe s, fun hbad => hs ((hdisturbed s).symm.trans hbad), change t, rfl⟩

theorem anywhere_answer (T : ℕ → Option TypeRef) (f : ℕ) : Anywhere (answer T f) := by
  rw [answer]
  cases T f with
  | some type => exact anywhere_pure type
  | none => exact anywhere_throw _

theorem gives_pure (a b : α) : Gives (pure a : Walk α) b ↔ a = b := by
  constructor
  · rintro ⟨s, h⟩
    cases h
    rfl
  · rintro rfl
    exact ⟨initial, rfl⟩

theorem gives_bind {x : Walk α} {f : α → Walk β} (hx : Anywhere x) (hf : ∀ a, Anywhere (f a))
    (b : β) : Gives (x >>= f) b ↔ ∃ a, Gives x a ∧ Gives (f a) b := by
  constructor
  · rintro ⟨s, h⟩
    cases hfirst : x initial with
    | error e s₁ =>
      rw [bind_error f hfirst] at h
      cases h
    | ok a s₁ =>
      rw [bind_ok f hfirst] at h
      obtain ⟨-, hs₁, -⟩ := hx _ _ _ _ initial_undisturbed initial_undisturbed hfirst
      obtain ⟨-, -, t, hrest⟩ := hf a _ _ _ _ hs₁ initial_undisturbed h
      exact ⟨a, ⟨s₁, hfirst⟩, t, hrest⟩
  · rintro ⟨a, ⟨s₁, hfirst⟩, t, hrest⟩
    obtain ⟨-, hs₁, -⟩ := hx _ _ _ _ initial_undisturbed initial_undisturbed hfirst
    obtain ⟨-, -, s, h⟩ := hf a _ _ _ _ initial_undisturbed hs₁ hrest
    exact ⟨s, (bind_ok f hfirst).trans h⟩

theorem gives_answer (T : ℕ → Option TypeRef) (f : ℕ) (type : TypeRef) :
    Gives (answer T f) type ↔ T f = some type := by
  rw [answer]
  cases T f with
  | some type' => exact (gives_pure type' type).trans ⟨fun h => by rw [h], Option.some.inj⟩
  | none =>
    constructor
    · rintro ⟨s, h⟩
      cases h
    · exact fun h => by cases h

end Anywhere

section Top
variable {rules : Rules} {direct : ℕ → Bool} {T : ℕ → Option TypeRef}

theorem settings_self (rules : Rules) (direct : ℕ → Bool) (T : ℕ → Option TypeRef) :
    Settings anyMemo anyMemo True True (topEnv rules direct T) (topEnv rules direct T) :=
  settings_quiet rules direct (fun _ _ h => h)

theorem anywhere_resolveAll (fs : List ℕ) : Anywhere (resolveAll (topEnv rules direct T) fs) := by
  induction fs with
  | nil => exact anywhere_pure []
  | cons f fs ih =>
    exact anywhere_bind (anywhere_answer T f) (fun type =>
      anywhere_bind ih (fun types => anywhere_pure _))

theorem gives_resolveAll (fs : List ℕ) (types : List TypeRef) :
    Gives (resolveAll (topEnv rules direct T) fs) types ↔
      List.Forall₂ (fun f type => T f = some type) fs types := by
  induction fs generalizing types with
  | nil =>
    rw [List.forall₂_nil_left_iff]
    exact (gives_pure [] types).trans eq_comm
  | cons f fs ih =>
    have hrest : ∀ type, Anywhere (do
        let types ← resolveAll (topEnv rules direct T) fs
        pure (type :: types)) :=
      fun type => anywhere_bind (anywhere_resolveAll fs) (fun types => anywhere_pure _)
    refine (gives_bind (anywhere_answer T f) hrest types).trans ?_
    rw [List.forall₂_cons_left_iff]
    constructor
    · rintro ⟨type, htype, hmore⟩
      obtain ⟨more, hmore, hpure⟩ := (gives_bind (anywhere_resolveAll fs)
        (fun types => anywhere_pure _) types).1 hmore
      exact ⟨type, more, (gives_answer T f type).1 htype, (ih more).1 hmore,
        ((gives_pure _ _).1 hpure).symm⟩
    · rintro ⟨type, more, htype, hmore, rfl⟩
      refine ⟨type, (gives_answer T f type).2 htype, ?_⟩
      exact (gives_bind (anywhere_resolveAll fs) (fun types => anywhere_pure _) _).2
        ⟨more, (ih more).2 hmore, (gives_pure _ _).2 rfl⟩

/-- The default values of one function. -/
def walkDefaults (env : Env) (d : FunctionDecl) : Walk (Option TypeRef) :=
  onTop .none (some voidType) (inScope (walkStmts env d.defaults))

theorem anywhere_walkDefaults (d : FunctionDecl) :
    Anywhere (walkDefaults (topEnv rules direct T) d) :=
  anywhere_onTop (tracks_inScope (walkStmts_tracks (settings_self rules direct T) d.defaults)) _ _

theorem anywhere_validate (ds : List FunctionDecl) :
    Anywhere (validateFunctionDefaults (topEnv rules direct T) ds) := by
  induction ds with
  | nil => exact anywhere_pure ()
  | cons d ds ih =>
    refine anywhere_bind (anywhere_walkDefaults d) (fun _ => anywhere_bind ?_ (fun _ => ih))
    exact anywhere_silent (fun s => { s with validated := d.head.key :: s.validated })
      (fun _ => rfl) (fun _ => rfl)

theorem gives_validate (ds : List FunctionDecl) :
    Gives (validateFunctionDefaults (topEnv rules direct T) ds) () ↔
      ∀ d ∈ ds, ∃ a, Gives (walkDefaults (topEnv rules direct T) d) a := by
  induction ds with
  | nil => exact (gives_pure () ()).trans (iff_of_true rfl (fun d hd => absurd hd List.not_mem_nil))
  | cons d ds ih =>
    have hvalidate : Anywhere (validate d.head.key) :=
      anywhere_silent (fun s => { s with validated := d.head.key :: s.validated })
        (fun _ => rfl) (fun _ => rfl)
    refine (gives_bind (anywhere_walkDefaults d) (fun _ =>
      anywhere_bind hvalidate (fun _ => anywhere_validate ds)) ()).trans ?_
    rw [List.forall_mem_cons, ← ih]
    constructor
    · rintro ⟨a, hdefaults, hrest⟩
      obtain ⟨-, -, hrest⟩ := (gives_bind hvalidate (fun _ => anywhere_validate ds) ()).1 hrest
      exact ⟨⟨a, hdefaults⟩, hrest⟩
    · rintro ⟨⟨a, hdefaults⟩, hrest⟩
      exact ⟨a, hdefaults, (gives_bind hvalidate (fun _ => anywhere_validate ds) ()).2
        ⟨(), ⟨_, rfl⟩, hrest⟩⟩

theorem flagged_top (f : ℕ) (s : State) :
    flagged (topEnv rules direct T) f s = .ok (direct f) s := by
  change EStateM.Result.ok (direct f) { s with
    disturbed := s.disturbed || decide (direct f ≠ direct f) } = .ok (direct f) s
  rw [decide_eq_false (fun h => h rfl), Bool.or_false]

theorem anywhere_flagged (f : ℕ) : Anywhere (flagged (topEnv rules direct T) f) := by
  intro s s' t a hs _ h
  rw [flagged_top] at h
  cases h
  exact ⟨rfl, hs, t, flagged_top f t⟩

theorem anywhere_checkMarker (head : FunctionHead) :
    Anywhere (checkMarker (topEnv rules direct T) head) := by
  rw [checkMarker]
  by_cases hmarker : head.errMarker = true
  · rw [if_pos hmarker]
    refine anywhere_bind (anywhere_flagged head.key) (fun fallible => ?_)
    cases fallible with
    | true => exact anywhere_pure ()
    | false => exact anywhere_throw _
  · rw [if_neg hmarker]
    exact anywhere_pure ()

theorem anywhere_checkMarkers (ds : List FunctionDecl) :
    Anywhere (checkMarkers (topEnv rules direct T) ds) := by
  induction ds with
  | nil => exact anywhere_pure ()
  | cons d ds ih => exact anywhere_bind (anywhere_checkMarker d.head) (fun _ => ih)

theorem gives_checkMarkers (ds : List FunctionDecl) :
    Gives (checkMarkers (topEnv rules direct T) ds) () ↔
      ∀ d ∈ ds, Gives (checkMarker (topEnv rules direct T) d.head) () := by
  induction ds with
  | nil => exact (gives_pure () ()).trans (iff_of_true rfl (fun d hd => absurd hd List.not_mem_nil))
  | cons d ds ih =>
    refine (gives_bind (anywhere_checkMarker d.head) (fun _ => anywhere_checkMarkers ds) ()).trans ?_
    rw [List.forall_mem_cons, ← ih]
    exact ⟨fun ⟨_, h⟩ => h, fun h => ⟨(), h⟩⟩

/-- A declaration that is no statement, in its place among the statements. -/
def walkItem (env : Env) : Stmt → Walk (List (ℕ × TypeRef))
  | .function head _ body => walkFunction env head body
  | .other node => walkOther env node
  | _ => pure []

theorem anywhere_walkFunction (head : FunctionHead) (body : List Stmt) :
    Anywhere (walkFunction (topEnv rules direct T) head body) := by
  refine anywhere_bind ?_ (fun returned => anywhere_onTop
    (functionBody_tracks (settings_self rules direct T) head body returned) _ _)
  rw [returnTypeOf]
  cases head.returnType with
  | some type => exact anywhere_pure type
  | none => exact anywhere_answer T head.key

theorem anywhere_walkItem (s : Stmt) : Anywhere (walkItem (topEnv rules direct T) s) := by
  cases s with
  | function head defaults body => exact anywhere_walkFunction head body
  | other node =>
    exact anywhere_onTop (follows_bind (tracks_finish (settings_self rules direct T) node [])
      (fun _ => tracks_onFrame _)) _ _
  | _ => exact anywhere_pure []

theorem walkTop_item {env : Env} {s : Stmt} (hs : s.isStatement = false) (rest : Program) :
    walkTop env (s :: rest) = (do
      let types ← walkItem env s
      let more ← walkTop env rest
      pure (types :: more)) := by
  cases s with
  | function head defaults body => rfl
  | other node => rfl
  | _ => cases hs

theorem gives_anywhere {α : Type} {x : Walk α} {a : α} (hx : Anywhere x) (h : Gives x a) {t : State}
    (ht : ¬Disturbed t) : ∃ t', x t = .ok a t' ∧ t'.frame = t.frame ∧ ¬Disturbed t' := by
  obtain ⟨s, hinitial⟩ := h
  obtain ⟨-, -, t', hrun⟩ := hx _ _ t a initial_undisturbed ht hinitial
  obtain ⟨hframe, ht', -⟩ := hx t t' t a ht ht hrun
  exact ⟨t', hrun, hframe, ht'⟩

end Top

/-- The declarations of a program. -/
def items (p : Program) : List Stmt := p.filter (fun s => !s.isStatement)

def statements (p : Program) : Program := p.filter Stmt.isStatement

section Split
variable {rules : Rules} {direct : ℕ → Bool} {T : ℕ → Option TypeRef}

theorem statements_cons {s : Stmt} (hs : s.isStatement = true) (ss : Program) :
    statements (s :: ss) = s :: statements ss ∧ items (s :: ss) = items ss :=
  ⟨List.filter_cons_of_pos hs, List.filter_cons_of_neg (by rw [hs]; exact Bool.false_ne_true)⟩

theorem items_cons {s : Stmt} (hs : s.isStatement = false) (ss : Program) :
    statements (s :: ss) = statements ss ∧ items (s :: ss) = s :: items ss :=
  ⟨List.filter_cons_of_neg (by rw [hs]; exact Bool.false_ne_true),
    List.filter_cons_of_pos (by rw [hs]; rfl)⟩

/-- The types that each declaration sets. -/
def ItemTypes (env : Env) (p : Program) (types : List (List (ℕ × TypeRef))) : Prop :=
  List.Forall₂ (fun s log => Gives (walkItem env s) log) (items p) types

/-- At the top level the declarations and the other statements do not see each other. -/
theorem walkTop_split (ss : Program) {t u t' : State} {types : List (List (ℕ × TypeRef))}
    (hframe : t.frame = u.frame) (ht : ¬Disturbed t) (hu : ¬Disturbed u)
    (h : walkTop (topEnv rules direct T) ss t = .ok types t') :
    ItemTypes (topEnv rules direct T) ss types ∧
      ∃ u', walkTop (topEnv rules direct T) (statements ss) u = .ok [] u' ∧
        u'.frame = t'.frame := by
  induction ss generalizing t u types with
  | nil =>
    cases h
    exact ⟨List.Forall₂.nil, u, rfl, hframe.symm⟩
  | cons s ss ih =>
    by_cases hs : s.isStatement = true
    · rw [walkTop_statement hs] at h
      rw [ItemTypes, (statements_cons hs ss).left, (statements_cons hs ss).right,
        walkTop_statement hs]
      cases hfirst : walkStmt (topEnv rules direct T) s t with
      | error e t₁ =>
        rw [bind_error _ hfirst] at h
        cases h
      | ok a t₁ =>
        rw [bind_ok _ hfirst] at h
        have halike : Alike anyMemo anyMemo t u := ⟨hframe, trivial, trivial⟩
        obtain ⟨u₁, hother, hmid, ht₁, hu₁⟩ :=
          (walkStmt_tracks (settings_self rules direct T) s).quiet trivial trivial halike ht hu hfirst
        obtain ⟨hitems, u', hrest, hend⟩ := ih hmid.1 ht₁ hu₁ h
        exact ⟨hitems, u', (bind_ok _ hother).trans hrest, hend⟩
    · rw [Bool.not_eq_true] at hs
      rw [walkTop_item hs] at h
      rw [ItemTypes, (items_cons hs ss).left, (items_cons hs ss).right]
      cases hfirst : walkItem (topEnv rules direct T) s t with
      | error e t₁ =>
        rw [bind_error _ hfirst] at h
        cases h
      | ok log t₁ =>
        rw [bind_ok _ hfirst] at h
        obtain ⟨hsame, ht₁, -⟩ := anywhere_walkItem s t t₁ t log ht ht hfirst
        obtain ⟨-, -, hgives⟩ := anywhere_walkItem s t t₁ initial log ht initial_undisturbed hfirst
        cases hmore : walkTop (topEnv rules direct T) ss t₁ with
        | error e t₂ =>
          rw [bind_error _ hmore] at h
          cases h
        | ok more t₂ =>
          rw [bind_ok _ hmore] at h
          cases h
          obtain ⟨hitems, hrest⟩ := ih (hsame.trans hframe) ht₁ hu hmore
          exact ⟨List.Forall₂.cons hgives hitems, hrest⟩

theorem walkTop_join (ss : Program) {t u u' : State} {types : List (List (ℕ × TypeRef))}
    (hframe : t.frame = u.frame) (ht : ¬Disturbed t) (hu : ¬Disturbed u)
    (hitems : ItemTypes (topEnv rules direct T) ss types)
    (h : walkTop (topEnv rules direct T) (statements ss) u = .ok [] u') :
    ∃ t', walkTop (topEnv rules direct T) ss t = .ok types t' ∧ t'.frame = u'.frame := by
  induction ss generalizing t u types with
  | nil =>
    cases hitems
    cases h
    exact ⟨t, rfl, hframe⟩
  | cons s ss ih =>
    by_cases hs : s.isStatement = true
    · rw [ItemTypes, (statements_cons hs ss).right] at hitems
      rw [(statements_cons hs ss).left, walkTop_statement hs] at h
      rw [walkTop_statement hs]
      cases hfirst : walkStmt (topEnv rules direct T) s u with
      | error e u₁ =>
        rw [bind_error _ hfirst] at h
        cases h
      | ok a u₁ =>
        rw [bind_ok _ hfirst] at h
        have halike : Alike anyMemo anyMemo u t := ⟨hframe.symm, trivial, trivial⟩
        obtain ⟨t₁, hother, hmid, hu₁, ht₁⟩ :=
          (walkStmt_tracks (settings_self rules direct T) s).quiet trivial trivial halike hu ht hfirst
        obtain ⟨t', hrest, hend⟩ := ih hmid.1.symm ht₁ hu₁ hitems h
        exact ⟨t', (bind_ok _ hother).trans hrest, hend⟩
    · rw [Bool.not_eq_true] at hs
      rw [ItemTypes, (items_cons hs ss).right, List.forall₂_cons_left_iff] at hitems
      obtain ⟨log, more, hgives, hmore, rfl⟩ := hitems
      rw [(items_cons hs ss).left] at h
      rw [walkTop_item hs]
      obtain ⟨t₁, hfirst, hsame, ht₁⟩ := gives_anywhere (anywhere_walkItem s) hgives ht
      obtain ⟨t', hrest, hend⟩ := ih (hsame.trans hframe) ht₁ hu hmore h
      exact ⟨t', (bind_ok _ hfirst).trans (bind_ok _ hrest), hend⟩

end Split

end NewClLang.DeclarationOrder
