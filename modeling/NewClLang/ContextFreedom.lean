import NewClLang.DeclarationOrder
import Mathlib.Data.List.Nodup

set_option autoImplicit false

/-!
# What inference does not depend on

The order of the declarations and return types that are written as they would be inferred change
neither what undisturbed runs accept nor the types. A run that is disturbed can depend on both.
-/
namespace NewClLang.ContextFreedom
open TypeRefs StatefulRuns Lockstep ReturnInference InferenceContexts InferredTypes
open DeclarationOrder

/-- The types of a program that a setting accepts. -/
def typesIn (env : Env) (p : Program) : Option Inferred :=
  match passes env p initial with
  | .ok result s => some ⟨result.returns, s.frame.types :: result.types⟩
  | .error _ _ => none

section Top
variable {rules : Rules} {direct : ℕ → Bool} {T : ℕ → Option TypeRef} {p : Program}

theorem typesIn_ok {env : Env} {result : Inferred} {s : State}
    (h : passes env p initial = .ok result s) :
    typesIn env p = some ⟨result.returns, s.frame.types :: result.types⟩ := by
  rw [typesIn, h]

theorem typesIn_some {env : Env} {r : Inferred} (h : typesIn env p = some r) :
    ∃ result s, passes env p initial = .ok result s ∧
      r = ⟨result.returns, s.frame.types :: result.types⟩ := by
  rw [typesIn] at h
  cases hrun : passes env p initial with
  | error e s =>
    rw [hrun] at h
    cases h
  | ok result s =>
    rw [hrun] at h
    exact ⟨result, s, rfl, (Option.some.inj h).symm⟩

/-- What has an effect on the types of an undisturbed run is what has one at the top level. -/
theorem inferredTypes_top {N : ℕ} (hN : Final rules p N) (h : ¬Disturbed (outcome rules p)) :
    inferredTypes rules p =
      typesIn (topEnv rules p.directFallible (returnTypes rules p N)) p := by
  have hsound := passes_tracks (settings_sound hN (resolveReturn_sound hN (p.top.length + 1))) p
  have hanswers : ∀ f, Tracks anyMemo (Ahead rules p N (p.top.length + 1)) True False
      (answer (returnTypes rules p N) f) (resolveReturn rules p (p.top.length + 1) f) :=
    resolveReturn_complete N (p.top.length + 1)
  have hcomplete := passes_tracks (settings_complete hanswers) p
  have hnothing : Sound rules p initial.memo := fun e he => absurd he List.not_mem_nil
  change typesIn (p.env rules) p = _
  apply Option.ext
  intro r
  constructor
  · intro hr
    obtain ⟨result, s, hrun, rfl⟩ := typesIn_some hr
    have hs : ¬Disturbed s := by
      rw [outcome, inferTypes, finalState_ok hrun] at h
      exact h
    obtain ⟨t, htop, hend⟩ := hsound.step initial initial result s ⟨rfl, hnothing, trivial⟩ hrun hs
      (hsound.quiet_right trivial initial initial_undisturbed)
    rw [hend.1]
    exact typesIn_ok htop
  · intro hr
    obtain ⟨result, t, hrun, rfl⟩ := typesIn_some hr
    have ht := hcomplete.quiet_left trivial initial initial_undisturbed
    rw [finalState_ok hrun] at ht
    have hstart : Ahead rules p N (p.top.length + 1) initial.memo :=
      ⟨hnothing, fun r hr => absurd hr List.not_mem_nil, NestingDepth.room_start p.top⟩
    obtain ⟨s, hleaky, hend⟩ :=
      hcomplete.step initial initial result t ⟨rfl, trivial, hstart⟩ hrun ht h
    rw [hend.1]
    exact typesIn_ok hleaky

/-- The passes before the statements are walked. -/
def prelude (env : Env) (p : Program) : Walk (List TypeRef) := do
  validateFunctionDefaults env p.decls
  markDirect p
  checkMarkers env p.decls
  resolveAll env p.top

theorem passes_eq (env : Env) (p : Program) :
    passes env p = (do
      let returns ← prelude env p
      let types ← walkTop env p
      pure ⟨p.top.zip returns, types⟩) := by
  simp only [passes, prelude, bind_assoc]

theorem anywhere_markDirect (p : Program) : Anywhere (markDirect p) :=
  anywhere_silent (fun s => { s with fallible := p.top.filter p.directFallible ++ s.fallible })
    (fun _ => rfl) (fun _ => rfl)

theorem anywhere_prelude (p : Program) : Anywhere (prelude (topEnv rules direct T) p) :=
  anywhere_bind (anywhere_validate p.decls) (fun _ => anywhere_bind (anywhere_markDirect p)
    (fun _ => anywhere_bind (anywhere_checkMarkers p.decls) (fun _ => anywhere_resolveAll p.top)))

theorem gives_prelude (types : List TypeRef) :
    Gives (prelude (topEnv rules direct T) p) types ↔
      (∀ d ∈ p.decls, ∃ a, Gives (walkDefaults (topEnv rules direct T) d) a) ∧
      (∀ d ∈ p.decls, Gives (checkMarker (topEnv rules direct T) d.head) ()) ∧
      List.Forall₂ (fun f type => T f = some type) p.top types := by
  have hmarkers : Anywhere (checkMarkers (topEnv rules direct T) p.decls) :=
    anywhere_checkMarkers p.decls
  have hreturns : Anywhere (resolveAll (topEnv rules direct T) p.top) := anywhere_resolveAll p.top
  have hrest := anywhere_bind hmarkers (fun _ => hreturns)
  have hmarked := anywhere_bind (anywhere_markDirect p) (fun _ => hrest)
  rw [← gives_validate, ← gives_checkMarkers]
  constructor
  · intro h
    obtain ⟨_, hvalidate, h⟩ := (gives_bind (anywhere_validate p.decls) (fun _ => hmarked) _).1 h
    obtain ⟨-, -, h⟩ := (gives_bind (anywhere_markDirect p) (fun _ => hrest) _).1 h
    obtain ⟨_, hcheck, h⟩ := (gives_bind hmarkers (fun _ => hreturns) _).1 h
    exact ⟨hvalidate, hcheck, (gives_resolveAll p.top types).1 h⟩
  · rintro ⟨hvalidate, hcheck, h⟩
    refine (gives_bind (anywhere_validate p.decls) (fun _ => hmarked) _).2 ⟨(), hvalidate, ?_⟩
    refine (gives_bind (anywhere_markDirect p) (fun _ => hrest) _).2 ⟨(), ⟨_, rfl⟩, ?_⟩
    exact (gives_bind hmarkers (fun _ => hreturns) _).2
      ⟨(), hcheck, (gives_resolveAll p.top types).2 h⟩

/-- The functions with their types in a table. -/
def Returns (T : ℕ → Option TypeRef) (fs : List ℕ) (returns : List (ℕ × TypeRef)) : Prop :=
  List.Forall₂ (fun f e => e.1 = f ∧ T f = some e.2) fs returns

theorem returns_zip {fs : List ℕ} {types : List TypeRef}
    (h : List.Forall₂ (fun f type => T f = some type) fs types) : Returns T fs (fs.zip types) := by
  induction h with
  | nil => exact List.Forall₂.nil
  | cons hhead _ ih => exact List.Forall₂.cons ⟨rfl, hhead⟩ ih

theorem zip_of_returns {fs : List ℕ} {returns : List (ℕ × TypeRef)} (h : Returns T fs returns) :
    ∃ types, List.Forall₂ (fun f type => T f = some type) fs types ∧ fs.zip types = returns := by
  induction h with
  | nil => exact ⟨[], List.Forall₂.nil, rfl⟩
  | @cons f e fs returns hhead _ ih =>
    obtain ⟨types, hall, hzip⟩ := ih
    refine ⟨e.2 :: types, List.Forall₂.cons hhead.2 hall, ?_⟩
    rw [List.zip_cons_cons, hzip, ← hhead.1]

/-- A program that is accepted at the top level, with its types. -/
structure AcceptedAt (rules : Rules) (direct : ℕ → Bool) (T : ℕ → Option TypeRef) (p : Program)
    (r : Inferred) : Prop where
  defaults : ∀ d ∈ p.decls, ∃ a, Gives (walkDefaults (topEnv rules direct T) d) a
  markers : ∀ d ∈ p.decls, Gives (checkMarker (topEnv rules direct T) d.head) ()
  returns : Returns T p.top r.returns
  types : ∃ logs s, ItemTypes (topEnv rules direct T) p logs ∧
    walkTop (topEnv rules direct T) (statements p) initial = .ok [] s ∧
    r.types = s.frame.types :: logs

theorem accepted_iff (r : Inferred) :
    typesIn (topEnv rules direct T) p = some r ↔ AcceptedAt rules direct T p r := by
  constructor
  · intro h
    obtain ⟨result, s, hrun, rfl⟩ := typesIn_some h
    rw [passes_eq] at hrun
    cases hfirst : prelude (topEnv rules direct T) p initial with
    | error e s₁ =>
      rw [bind_error _ hfirst] at hrun
      cases hrun
    | ok returns s₁ =>
      rw [bind_ok _ hfirst] at hrun
      cases hwalk : walkTop (topEnv rules direct T) p s₁ with
      | error e s₂ =>
        rw [bind_error _ hwalk] at hrun
        cases hrun
      | ok types s₂ =>
        rw [bind_ok _ hwalk] at hrun
        cases hrun
        obtain ⟨hframe, hs₁, -⟩ :=
          anywhere_prelude p _ _ _ _ initial_undisturbed initial_undisturbed hfirst
        obtain ⟨hitems, u, hstatements, hend⟩ :=
          walkTop_split p hframe hs₁ initial_undisturbed hwalk
        obtain ⟨hdefaults, hmarkers, hreturns⟩ := (gives_prelude returns).1 ⟨s₁, hfirst⟩
        refine ⟨hdefaults, hmarkers, returns_zip hreturns, types, u, hitems, hstatements, ?_⟩
        rw [hend]
  · rintro ⟨hdefaults, hmarkers, hreturns, logs, u, hitems, hstatements, htypes⟩
    obtain ⟨returns, hall, hzip⟩ := zip_of_returns hreturns
    have hgives := (gives_prelude returns).2 ⟨hdefaults, hmarkers, hall⟩
    obtain ⟨s₁, hfirst, hframe, hs₁⟩ :=
      gives_anywhere (anywhere_prelude p) hgives initial_undisturbed
    obtain ⟨s, hwalk, hend⟩ := walkTop_join p hframe hs₁ initial_undisturbed hitems hstatements
    have hrun : passes (topEnv rules direct T) p initial = .ok ⟨p.top.zip returns, logs⟩ s := by
      rw [passes_eq, bind_ok _ hfirst, bind_ok _ hwalk]
      rfl
    rw [typesIn_ok hrun, hzip, hend, ← htypes]

end Top

/-- The same types of functions and in declarations, in some order. -/
def Agree (r r' : Inferred) : Prop := r.returns.Perm r'.returns ∧ r.types.Perm r'.types

/-- A program with its declarations in another order. The symbol table rejects functions of one
    name. -/
structure Rearranged (p p' : Program) : Prop where
  perm : p.Perm p'
  statements : statements p' = statements p
  distinct : p.top.Nodup

section Rearranging
variable {rules : Rules} {p p' : Program}

theorem Rearranged.decls (h : Rearranged p p') : p.decls.Perm p'.decls := h.perm.filterMap _

theorem Rearranged.top (h : Rearranged p p') : p.top.Perm p'.top := h.decls.map _

theorem Rearranged.symm (h : Rearranged p p') : Rearranged p' p :=
  ⟨h.perm.symm, h.statements.symm, h.top.nodup_iff.1 h.distinct⟩

theorem decl_iff (h : p.top.Nodup) (f : ℕ) (d : FunctionDecl) :
    p.decl? f = some d ↔ d ∈ p.decls ∧ d.head.key = f := by
  constructor
  · intro hd
    have hkey := List.find?_some hd
    rw [beq_iff_eq] at hkey
    exact ⟨List.mem_of_find?_eq_some hd, hkey⟩
  · rintro ⟨hmem, rfl⟩
    have hsome : (p.decl? d.head.key).isSome = true :=
      List.find?_isSome.2 ⟨d, hmem, beq_self_eq_true d.head.key⟩
    obtain ⟨d', hd'⟩ := Option.isSome_iff_exists.1 hsome
    have hkey := List.find?_some hd'
    rw [beq_iff_eq] at hkey
    rw [hd', List.inj_on_of_nodup_map h (List.mem_of_find?_eq_some hd') hmem hkey]

theorem Rearranged.decl (h : Rearranged p p') (f : ℕ) : p'.decl? f = p.decl? f := by
  apply Option.ext
  intro d
  rw [decl_iff h.symm.distinct, decl_iff h.distinct, h.decls.mem_iff]

theorem Rearranged.direct (h : Rearranged p p') : p'.directFallible = p.directFallible :=
  funext fun _ => (h.decls.any_eq).symm

theorem Rearranged.returnTypes (h : Rearranged p p') (n : ℕ) :
    returnTypes rules p' n = returnTypes rules p n := by
  induction n with
  | zero => rfl
  | succ n ih =>
    funext f
    rw [returnTypes_succ, returnTypes_succ, h.decl, h.direct, ih]

/-- The declarations in another order have the same types at the top level. -/
theorem Rearranged.accepted (h : Rearranged p p') {direct : ℕ → Bool} {T : ℕ → Option TypeRef}
    {r : Inferred} (hr : AcceptedAt rules direct T p r) :
    ∃ r', AcceptedAt rules direct T p' r' ∧ Agree r r' := by
  obtain ⟨hdefaults, hmarkers, hreturns, logs, s, hitems, hstatements, htypes⟩ := hr
  have hperm : (items p').Perm (items p) := h.symm.perm.filter _
  obtain ⟨returns', hreturns', hagree⟩ := List.perm_comp_forall₂ h.symm.top hreturns
  obtain ⟨logs', hitems', hlogs⟩ := List.perm_comp_forall₂ hperm hitems
  refine ⟨⟨returns', s.frame.types :: logs'⟩, ?_, hagree.symm, ?_⟩
  · refine ⟨?_, ?_, hreturns', logs', s, hitems', ?_, rfl⟩
    · exact fun d hd => hdefaults d (h.decls.mem_iff.2 hd)
    · exact fun d hd => hmarkers d (h.decls.mem_iff.2 hd)
    · rw [h.statements]
      exact hstatements
  · rw [htypes]
    exact hlogs.symm.cons _

end Rearranging

def FunctionHead.write (head : FunctionHead) (f : ℕ) (type : TypeRef) : FunctionHead :=
  if head.key = f then { head with returnType := head.returnType.or (some type) } else head

def FunctionDecl.write (d : FunctionDecl) (f : ℕ) (type : TypeRef) : FunctionDecl :=
  { d with head := FunctionHead.write d.head f type }

def Stmt.write (f : ℕ) (type : TypeRef) : Stmt → Stmt
  | .function head defaults body => .function (FunctionHead.write head f type) defaults body
  | s => s

/-- A program with the return type of a function written. -/
def Program.write (p : Program) (f : ℕ) (type : TypeRef) : Program := p.map (Stmt.write f type)

section Writing
variable {rules : Rules} {p : Program} {f : ℕ} {type : TypeRef}

theorem write_head (head : FunctionHead) (f : ℕ) (type : TypeRef) :
    (FunctionHead.write head f type).node = head.node ∧
      (FunctionHead.write head f type).key = head.key ∧
      (FunctionHead.write head f type).errMarker = head.errMarker ∧
      (FunctionHead.write head f type).directFallible = head.directFallible := by
  rw [FunctionHead.write]
  by_cases hf : head.key = f
  · rw [if_pos hf]
    exact ⟨rfl, rfl, rfl, rfl⟩
  · rw [if_neg hf]
    exact ⟨rfl, rfl, rfl, rfl⟩

theorem write_decls (p : Program) (f : ℕ) (type : TypeRef) :
    (Program.write p f type).decls = p.decls.map (fun d => FunctionDecl.write d f type) := by
  rw [Program.write, Program.decls, Program.decls, List.filterMap_map, List.map_filterMap]
  congr 1
  funext s
  cases s <;> rfl

theorem write_top (p : Program) (f : ℕ) (type : TypeRef) :
    (Program.write p f type).top = p.top := by
  rw [Program.top, Program.top, write_decls, List.map_map]
  congr 1
  funext d
  exact (write_head d.head f type).2.1

theorem write_decl (p : Program) (f : ℕ) (type : TypeRef) (g : ℕ) :
    (Program.write p f type).decl? g =
      (p.decl? g).map (fun d => FunctionDecl.write d f type) := by
  rw [Program.decl?, Program.decl?, write_decls, List.find?_map]
  congr 2
  funext d
  exact congrArg (fun key => key == g) (write_head d.head f type).2.1

theorem write_direct (p : Program) (f : ℕ) (type : TypeRef) :
    (Program.write p f type).directFallible = p.directFallible := by
  funext g
  rw [Program.directFallible, Program.directFallible, write_decls, List.any_map]
  congr 1
  funext d
  obtain ⟨-, hkey, -, hdirect⟩ := write_head d.head f type
  change ((FunctionHead.write d.head f type).key == g &&
    (FunctionHead.write d.head f type).directFallible) = _
  rw [hkey, hdirect]

theorem write_other {head : FunctionHead} (h : head.key ≠ f) :
    FunctionHead.write head f type = head := by
  rw [FunctionHead.write, if_neg h]

theorem write_returnType {head : FunctionHead} (h : head.key = f) :
    (FunctionHead.write head f type).returnType = head.returnType.or (some type) := by
  rw [FunctionHead.write, if_pos h]

theorem key_of_decl {g : ℕ} {d : FunctionDecl} (h : p.decl? g = some d) : d.head.key = g := by
  have hkey := List.find?_some h
  rwa [beq_iff_eq] at hkey

/-- Every round is below a table that has what is inferred from it. -/
theorem rounds_sub {T : ℕ → Option TypeRef}
    (h : ∀ g d type, p.decl? g = some d → Computes rules p g type →
      d.head.returnType.or (inferred rules p.directFallible T d) = some type → T g = some type)
    (n : ℕ) : Sub (returnTypes rules p n) T := by
  induction n with
  | zero =>
    intro g type hg
    cases hg
  | succ n ih =>
    intro g type hg
    have hcomputes : Computes rules p g type := ⟨n + 1, hg⟩
    rw [returnTypes_succ] at hg
    obtain ⟨d, hd, hround⟩ := Option.bind_eq_some_iff.1 hg
    apply h g d type hd hcomputes
    rw [Option.or_eq_some_iff] at hround ⊢
    exact hround.imp_right (fun ⟨hnone, hinferred⟩ => ⟨hnone, inferred_mono ih hinferred⟩)

theorem Final.infers {N g : ℕ} {d : FunctionDecl} (hN : Final rules p N) (hd : p.decl? g = some d)
    (h : d.head.returnType.or (inferred rules p.directFallible (returnTypes rules p N) d) =
      some type) : returnTypes rules p N g = some type := by
  refine (hN g type).1 ⟨N + 1, ?_⟩
  rw [returnTypes_succ, hd, Option.bind_some]
  exact h

/-- The types at the top level do not depend on whether one of them is written. -/
theorem returnTypes_write (hcomputes : Computes rules p f type) {N M : ℕ} (hN : Final rules p N)
    (hM : Final rules (Program.write p f type) M) :
    returnTypes rules (Program.write p f type) M = returnTypes rules p N := by
  have hwritten : Sub (returnTypes rules p N) (returnTypes rules (Program.write p f type) M) := by
    apply rounds_sub
    intro g d t hd hg ht
    have hd' : (Program.write p f type).decl? g = some (FunctionDecl.write d f type) := by
      rw [write_decl, hd, Option.map_some]
    apply Final.infers hM hd'
    rw [write_direct]
    by_cases hkey : d.head.key = f
    · have hgf : g = f := (key_of_decl hd).symm.trans hkey
      rw [hgf] at hg
      change (FunctionHead.write d.head f type).returnType.or _ = _
      rw [write_returnType hkey]
      cases hown : d.head.returnType with
      | some own =>
        rw [hown, Option.some_or] at ht
        rw [Option.some_or]
        exact ht
      | none => exact congrArg some (hcomputes.unique hg)
    · change (FunctionHead.write d.head f type).returnType.or
        (inferred _ _ _ ⟨FunctionHead.write d.head f type, d.defaults, d.body⟩) = _
      rw [write_other hkey]
      exact ht
  have hunwritten : Sub (returnTypes rules (Program.write p f type) M) (returnTypes rules p N) := by
    apply rounds_sub
    intro g d' t hd' _ ht
    rw [write_decl] at hd'
    obtain ⟨d, hd, rfl⟩ := Option.map_eq_some_iff.1 hd'
    rw [write_direct] at ht
    by_cases hkey : d.head.key = f
    · have hgf : g = f := (key_of_decl hd).symm.trans hkey
      change (FunctionHead.write d.head f type).returnType.or _ = _ at ht
      rw [write_returnType hkey] at ht
      cases hown : d.head.returnType with
      | some own =>
        apply Final.infers hN hd
        rw [hown, Option.some_or] at ht ⊢
        exact ht
      | none =>
        rw [hown] at ht
        cases ht
        rw [hgf]
        exact (hN f type).1 hcomputes
    · change (FunctionHead.write d.head f type).returnType.or
        (inferred _ _ _ ⟨FunctionHead.write d.head f type, d.defaults, d.body⟩) = _ at ht
      rw [write_other hkey] at ht
      exact Final.infers hN hd ht
  funext g
  apply Option.ext
  exact fun t => ⟨hunwritten g t, hwritten g t⟩

section Passes
variable {direct : ℕ → Bool} {T : ℕ → Option TypeRef}

theorem validate_write (env : Env) (ds : List FunctionDecl) :
    validateFunctionDefaults env (ds.map (fun d => FunctionDecl.write d f type)) =
      validateFunctionDefaults env ds := by
  induction ds with
  | nil => rfl
  | cons d ds ih =>
    rw [List.map_cons, validateFunctionDefaults, validateFunctionDefaults, ih]
    change (do
      let _ ← _
      validate (FunctionHead.write d.head f type).key
      _) = _
    rw [(write_head d.head f type).2.1]
    rfl

theorem checkMarkers_write (env : Env) (ds : List FunctionDecl) :
    checkMarkers env (ds.map (fun d => FunctionDecl.write d f type)) = checkMarkers env ds := by
  induction ds with
  | nil => rfl
  | cons d ds ih =>
    obtain ⟨-, hkey, hmarker, -⟩ := write_head d.head f type
    have hhead : checkMarker env (FunctionHead.write d.head f type) = checkMarker env d.head := by
      rw [checkMarker, checkMarker, hmarker, hkey]
    rw [List.map_cons, checkMarkers, checkMarkers, ih, ← hhead]
    rfl

theorem walkFunction_write (hf : T f = some type) (head : FunctionHead) (body : List Stmt) :
    walkFunction (topEnv rules direct T) (FunctionHead.write head f type) body =
      walkFunction (topEnv rules direct T) head body := by
  obtain ⟨hnode, hkey, -, -⟩ := write_head head f type
  have hreturn : returnTypeOf (topEnv rules direct T) (FunctionHead.write head f type) =
      returnTypeOf (topEnv rules direct T) head := by
    by_cases hown : head.key = f
    · rw [returnTypeOf, returnTypeOf, write_returnType hown, hkey]
      cases head.returnType with
      | some written => rfl
      | none =>
        change pure type = answer T head.key
        rw [hown, answer_some hf]
    · rw [write_other hown]
  rw [walkFunction, walkFunction, hreturn, hnode, hkey]

theorem walkTop_write (hf : T f = some type) (p : Program) :
    walkTop (topEnv rules direct T) (Program.write p f type) =
      walkTop (topEnv rules direct T) p := by
  induction p with
  | nil => rfl
  | cons s p ih =>
    rw [Program.write] at ih ⊢
    rw [List.map_cons]
    cases s with
    | function head defaults body =>
      rw [walkTop, ← ih, ← walkFunction_write hf head body]
      rfl
    | other node =>
      rw [walkTop, ← ih]
      rfl
    | _ => exact congrArg (fun rest => walkStmt _ _ >>= fun _ => rest) ih

theorem passes_write (hf : T f = some type) (p : Program) :
    passes (topEnv rules direct T) (Program.write p f type) =
      passes (topEnv rules direct T) p := by
  have hmark : markDirect (Program.write p f type) = markDirect p := by
    funext s
    rw [markDirect, markDirect, write_top, write_direct]
  rw [passes, passes, write_decls, write_top, hmark, validate_write, checkMarkers_write,
    walkTop_write hf]

end Passes

end Writing

section Law
variable {rules : Rules} {p p' : Program}

theorem Returns.computes {T : ℕ → Option TypeRef} {fs : List ℕ} {returns : List (ℕ × TypeRef)}
    (h : Returns T fs returns) : ∀ e ∈ returns, T e.1 = some e.2 := by
  induction h with
  | nil => exact fun e he => absurd he List.not_mem_nil
  | cons hhead _ ih =>
    refine List.forall_mem_cons.2 ⟨?_, ih⟩
    rw [hhead.1]
    exact hhead.2

theorem inferred_computes (hp : ¬Disturbed (outcome rules p)) {r : Inferred}
    (hr : inferredTypes rules p = some r) : ∀ e ∈ r.returns, Computes rules p e.1 e.2 := by
  obtain ⟨N, hN⟩ := exists_final_round rules p
  rw [inferredTypes_top hN hp, accepted_iff] at hr
  exact fun e he => (hN e.1 e.2).2 (hr.returns.computes e he)

theorem rearranged_agree (h : Rearranged p p') (hp : ¬Disturbed (outcome rules p))
    (hp' : ¬Disturbed (outcome rules p')) :
    Option.Rel Agree (inferredTypes rules p) (inferredTypes rules p') := by
  obtain ⟨N, hN⟩ := exists_final_round rules p
  have hN' : Final rules p' N := by
    intro f type
    rw [h.returnTypes, ← hN f type]
    exact exists_congr fun n => by rw [h.returnTypes]
  rw [inferredTypes_top hN hp, inferredTypes_top hN' hp', h.direct, h.returnTypes]
  cases hleft : typesIn (topEnv rules p.directFallible (returnTypes rules p N)) p with
  | some r =>
    obtain ⟨r', hr', hagree⟩ := h.accepted ((accepted_iff r).1 hleft)
    rw [(accepted_iff r').2 hr']
    exact Option.Rel.some hagree
  | none =>
    cases hright : typesIn (topEnv rules p.directFallible (returnTypes rules p N)) p' with
    | none => exact Option.Rel.none
    | some r' =>
      obtain ⟨r, hr, -⟩ := h.symm.accepted ((accepted_iff r').1 hright)
      rw [(accepted_iff r).2 hr] at hleft
      cases hleft

theorem write_agree {f : ℕ} {type : TypeRef} (hcomputes : Computes rules p f type)
    (hp : ¬Disturbed (outcome rules p))
    (hp' : ¬Disturbed (outcome rules (Program.write p f type))) :
    inferredTypes rules (Program.write p f type) = inferredTypes rules p := by
  obtain ⟨N, hN⟩ := exists_final_round rules p
  obtain ⟨M, hM⟩ := exists_final_round rules (Program.write p f type)
  rw [inferredTypes_top hM hp', inferredTypes_top hN hp, write_direct,
    returnTypes_write hcomputes hN hM, typesIn, typesIn, passes_write ((hN f type).1 hcomputes)]

end Law

section Example

/-- A call of the second function at node 3. -/
def callRules : Rules where
  names _ _ := []
  resolves node _ := if node = 3 then [1] else []
  callee node _ := if node = 3 then some 1 else none
  check node view := some (if node = 7 then .named "string" else view.returns.headD voidType)
  binds _ _ := some []
  tailType _ _ := none
  function _ := none
  method _ := none
  typeName _ := none

/-- `fun outer() { inner()!! }` -/
def calling : Stmt := .function ⟨0, 0, none, false, false, false⟩ []
  [.expression 1 (.fallibleOp 2 .unwrap (.call 3 [] []))]

/-- `fun outer() { defer { inner()!! } }` -/
def deferring : Stmt := .function ⟨0, 0, none, false, false, false⟩ []
  [.defer [.expression 1 (.fallibleOp 2 .unwrap (.call 3 [] []))]]

/-- `fun inner() { err "x" }` -/
def failing : Stmt := .function ⟨4, 1, none, false, true, false⟩ []
  [.expression 5 (.err 6 (.operation 7 []))]

theorem not_disturbed {s : State} (h : s.disturbed = false) : ¬Disturbed s := by
  rw [Disturbed, h]
  exact Bool.false_ne_true

end Example

end NewClLang.ContextFreedom
