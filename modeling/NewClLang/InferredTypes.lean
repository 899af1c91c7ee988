import NewClLang.InferenceContexts
import NewClLang.NestingDepth

set_option autoImplicit false

/-!
# Return types at the top level

The return types of a program, each inferred at the top level from those of the functions that its
body asks for. A run that is never disturbed knows these types and no others, and asks for none in
vain that has one.
-/
namespace NewClLang.InferredTypes
open TypeRefs StatefulRuns Lockstep ReturnInference InferenceContexts NestingDepth

def answer (T : ℕ → Option TypeRef) (f : ℕ) : Walk TypeRef :=
  match T f with
  | some type => pure type
  | none => throw (.unknownFunction f)

/-- The setting of a walk at the top level, where the return types are those of a table. -/
def topEnv (rules : Rules) (directFallible : ℕ → Bool) (T : ℕ → Option TypeRef) : Env where
  rules := rules
  directFallible := directFallible
  context s := s.frame.own
  flag _ f := directFallible f
  ready _ _ := true
  resolve := answer T
  peek := answer T

def inferred (rules : Rules) (directFallible : ℕ → Bool) (T : ℕ → Option TypeRef)
    (d : FunctionDecl) : Option TypeRef :=
  match inferReturnFromBody (topEnv rules directFallible T) d initial with
  | .ok type _ => some type
  | .error _ _ => none

/-- The return types that are known after `n` rounds in which each function is inferred from the
    types of the round before. -/
def returnTypes (rules : Rules) (p : Program) : ℕ → ℕ → Option TypeRef
  | 0, _ => none
  | n + 1, f => (p.decl? f).bind fun d =>
      d.head.returnType.or (inferred rules p.directFallible (returnTypes rules p n) d)

def Sub (T T' : ℕ → Option TypeRef) : Prop := ∀ f type, T f = some type → T' f = some type

section Tables
variable {rules : Rules} {direct : ℕ → Bool} {T T' : ℕ → Option TypeRef}

theorem topEnv_atTop (rules : Rules) (direct : ℕ → Bool) (T : ℕ → Option TypeRef) :
    AtTop (topEnv rules direct T) :=
  ⟨fun _ => rfl, fun _ _ => rfl, fun _ _ => rfl⟩

theorem keeps_answer (K : State → Prop) (T : ℕ → Option TypeRef) (f : ℕ) : Keeps K (answer T f) := by
  rw [answer]
  cases T f with
  | some type => exact keeps_pure type
  | none => exact keeps_throw _

theorem answer_some {f : ℕ} {type : TypeRef} (h : T f = some type) : answer T f = pure type := by
  rw [answer, h]

/-- An answer of one table is one of another that has more. -/
theorem tracks_answer {I J : Memo → Prop} {ql qr : Prop} (h : Sub T T') (f : ℕ) :
    Tracks I J ql qr (answer T f) (answer T' f) := by
  cases hT : T f with
  | some type =>
    rw [answer_some hT, answer_some (h f type hT)]
    exact follows_pure type
  | none =>
    rw [answer, hT]
    exact follows_fails _ (keeps_answer _ T' f) (fun _ => keeps_answer _ T' f)

theorem settings_top {I J : Memo → Prop} {ql qr : Prop} (h : Sub T T') :
    Settings I J ql qr (topEnv rules direct T) (topEnv rules direct T') where
  rules := rfl
  direct := rfl
  resolve := tracks_answer h
  peek := tracks_answer h
  left _ := topEnv_atTop rules direct T
  right _ := topEnv_atTop rules direct T'

def anyMemo (_ : Memo) : Prop := True

/-- Two settings of the top level. -/
theorem settings_quiet (rules : Rules) (direct : ℕ → Bool) (h : Sub T T') :
    Settings anyMemo anyMemo True True (topEnv rules direct T) (topEnv rules direct T') :=
  settings_top h

theorem initial_undisturbed : ¬Disturbed initial := fun h => by cases h

theorem alike_initial : Alike anyMemo anyMemo initial initial :=
  ⟨rfl, trivial, trivial⟩

theorem inferred_eq {d : FunctionDecl} {type : TypeRef} {s : State}
    (h : inferReturnFromBody (topEnv rules direct T) d initial = .ok type s) :
    inferred rules direct T d = some type := by
  rw [inferred, h]

theorem inferred_some {d : FunctionDecl} {type : TypeRef}
    (h : inferred rules direct T d = some type) :
    ∃ s, inferReturnFromBody (topEnv rules direct T) d initial = .ok type s := by
  rw [inferred] at h
  cases hrun : inferReturnFromBody (topEnv rules direct T) d initial with
  | ok a s =>
    rw [hrun] at h
    cases h
    exact ⟨s, rfl⟩
  | error e s =>
    rw [hrun] at h
    cases h

/-- The run of a top-level function does not depend on where it is started from. -/
theorem onTop_anywhere {α : Type} {x : Walk α} (hx : Tracks anyMemo anyMemo True True x x)
    {callable : Callable} {returnType : Option TypeRef} {s s' t : State} {a : α}
    (hs : ¬Disturbed s) (ht : ¬Disturbed t) (h : onTop callable returnType x s = .ok a s') :
    s'.frame = s.frame ∧ ¬Disturbed s' ∧ ∃ t', onTop callable returnType x t = .ok a t' := by
  rw [onTop] at h ⊢
  cases hrun : x (enterTop callable returnType s) with
  | error e mid =>
    rw [within_error hrun] at h
    cases h
  | ok b mid =>
    rw [within_ok hrun] at h
    cases h
    have halike : Alike anyMemo anyMemo (enterTop callable returnType s)
        (enterTop callable returnType t) := ⟨rfl, trivial, trivial⟩
    obtain ⟨mid', hother, -, hmid, -⟩ := hx.quiet trivial trivial halike hs ht hrun
    exact ⟨rfl, hmid, _, within_ok hother⟩

theorem inferred_mono (h : Sub T T') {d : FunctionDecl} {type : TypeRef}
    (hd : inferred rules direct T d = some type) : inferred rules direct T' d = some type := by
  obtain ⟨s, hrun⟩ := inferred_some hd
  have htracks := inferReturnFromBody_tracks (settings_quiet rules direct h) d
  obtain ⟨t, hother, -⟩ := htracks.quiet trivial trivial alike_initial initial_undisturbed
    initial_undisturbed hrun
  exact inferred_eq hother

end Tables

section Rounds
variable {rules : Rules} {p : Program} {n m f : ℕ} {type : TypeRef}

theorem returnTypes_succ (n f : ℕ) :
    returnTypes rules p (n + 1) f = (p.decl? f).bind fun d =>
      d.head.returnType.or (inferred rules p.directFallible (returnTypes rules p n) d) := rfl

theorem returnTypes_step (n : ℕ) : Sub (returnTypes rules p n) (returnTypes rules p (n + 1)) := by
  induction n with
  | zero =>
    intro f type h
    cases h
  | succ n ih =>
    intro f type h
    rw [returnTypes_succ] at h ⊢
    cases hd : p.decl? f with
    | none =>
      rw [hd] at h
      cases h
    | some d =>
      rw [hd] at h
      rw [Option.bind_some] at h ⊢
      cases hwritten : d.head.returnType with
      | some written =>
        rw [hwritten, Option.some_or] at h
        rw [Option.some_or]
        exact h
      | none =>
        rw [hwritten, Option.none_or] at h
        rw [Option.none_or]
        exact inferred_mono ih h

theorem returnTypes_mono (h : n ≤ m) : Sub (returnTypes rules p n) (returnTypes rules p m) := by
  induction h with
  | refl => exact fun _ _ h => h
  | step _ ih => exact fun f type h => returnTypes_step _ f type (ih f type h)

theorem returnTypes_unique {type' : TypeRef} (h : returnTypes rules p n f = some type)
    (h' : returnTypes rules p m f = some type') : type = type' := by
  rcases Nat.le_total n m with hle | hle
  · exact Option.some.inj ((returnTypes_mono hle f type h).symm.trans h')
  · exact Option.some.inj (h.symm.trans (returnTypes_mono hle f type' h'))

/-- What inference at the top level computes for a function. -/
def Computes (rules : Rules) (p : Program) (f : ℕ) (type : TypeRef) : Prop :=
  ∃ n, returnTypes rules p n f = some type

theorem Computes.unique {type' : TypeRef} (h : Computes rules p f type)
    (h' : Computes rules p f type') : type = type' := by
  obtain ⟨n, hn⟩ := h
  obtain ⟨m, hm⟩ := h'
  exact returnTypes_unique hn hm

theorem decl_of_computes (h : Computes rules p f type) : ∃ d, p.decl? f = some d := by
  obtain ⟨n, hn⟩ := h
  cases n with
  | zero => cases hn
  | succ n =>
    rw [returnTypes_succ] at hn
    obtain ⟨d, hd, -⟩ := Option.bind_eq_some_iff.1 hn
    exact ⟨d, hd⟩

theorem mem_top_of_decl {d : FunctionDecl} (h : p.decl? f = some d) : f ∈ p.top := by
  have hkey := List.find?_some h
  rw [beq_iff_eq] at hkey
  exact List.mem_map.2 ⟨d, List.mem_of_find?_eq_some h, hkey⟩

/-- After enough rounds no function gets a type any more. -/
theorem exists_final (rules : Rules) (p : Program) :
    ∃ n, ∀ f type, Computes rules p f type → returnTypes rules p n f = some type := by
  have hsome : ∀ fs : List ℕ, ∃ n, ∀ f ∈ fs, ∀ type, Computes rules p f type →
      returnTypes rules p n f = some type := by
    intro fs
    induction fs with
    | nil => exact ⟨0, fun f hf => absurd hf List.not_mem_nil⟩
    | cons g fs ih =>
      obtain ⟨n, hn⟩ := ih
      by_cases hg : ∃ type, Computes rules p g type
      · obtain ⟨type, m, hm⟩ := hg
        refine ⟨max n m, List.forall_mem_cons.2 ⟨?_, ?_⟩⟩
        · rintro type' ⟨k, hk⟩
          rw [returnTypes_unique hk hm]
          exact returnTypes_mono (Nat.le_max_right n m) g type hm
        · intro f hf type' hcomputes
          exact returnTypes_mono (Nat.le_max_left n m) f type' (hn f hf type' hcomputes)
      · refine ⟨n, List.forall_mem_cons.2 ⟨?_, hn⟩⟩
        exact fun type hcomputes => absurd ⟨type, hcomputes⟩ hg
  obtain ⟨n, hn⟩ := hsome p.top
  refine ⟨n, fun f type hcomputes => ?_⟩
  obtain ⟨d, hd⟩ := decl_of_computes hcomputes
  exact hn f (mem_top_of_decl hd) type hcomputes

/-- A round after which no function gets a type any more. -/
def Final (rules : Rules) (p : Program) (n : ℕ) : Prop :=
  ∀ f type, Computes rules p f type ↔ returnTypes rules p n f = some type

theorem exists_final_round (rules : Rules) (p : Program) : ∃ n, Final rules p n := by
  obtain ⟨n, hn⟩ := exists_final rules p
  exact ⟨n, fun f type => ⟨hn f type, fun h => ⟨n, h⟩⟩⟩

/-- A type that is inferred from the final ones is one of them. -/
theorem Final.closed {d : FunctionDecl} (h : Final rules p n) (hd : p.decl? f = some d)
    (hwritten : d.head.returnType = none)
    (hinferred : inferred rules p.directFallible (returnTypes rules p n) d = some type) :
    returnTypes rules p n f = some type := by
  refine (h f type).1 ⟨n + 1, ?_⟩
  rw [returnTypes_succ, hd, Option.bind_some, hwritten, Option.none_or]
  exact hinferred

theorem Final.written {d : FunctionDecl} (h : Final rules p n) (hd : p.decl? f = some d)
    (hwritten : d.head.returnType = some type) : returnTypes rules p n f = some type := by
  refine (h f type).1 ⟨1, ?_⟩
  rw [returnTypes_succ, hd, Option.bind_some, hwritten, Option.some_or]

end Rounds

section Resolution
variable {rules : Rules} {p : Program} {n f : ℕ} {s : State} {type : TypeRef}

def started (f : ℕ) (s : State) : State :=
  { s with memo := { s.memo with resolving := f :: s.memo.resolving } }

/-- Inference of a function from a state in which it is not under way. -/
def inferOnce (rules : Rules) (p : Program) (n f : ℕ) (d : FunctionDecl) (s : State) :
    EStateM.Result Failure State TypeRef :=
  (do
    let type ← inferReturnFromBody (leakyEnv rules p (resolveReturn rules p n)) d
    endInference f type s.memo.resolving
    pure type : Walk TypeRef) (started f s)

/-- What a request for a return type can come to. -/
inductive Requested (rules : Rules) (p : Program) (n f : ℕ) (s : State) : Prop where
  | unknown (hdecl : p.decl? f = none)
      (hrun : resolveReturn rules p (n + 1) f s = .error (.unknownFunction f) s)
  | known (type : TypeRef) (hknown : p.known s f = some type)
      (hrun : resolveReturn rules p (n + 1) f s = .ok type s)
  | cycle (hmem : f ∈ s.memo.resolving) (hknown : p.known s f = none)
      (hrun : resolveReturn rules p (n + 1) f s = .error (.inferenceCycle f) s)
  | infer (d : FunctionDecl) (hdecl : p.decl? f = some d) (hknown : p.known s f = none)
      (hfresh : f ∉ s.memo.resolving)
      (hrun : resolveReturn rules p (n + 1) f s = inferOnce rules p n f d s)

theorem requested (rules : Rules) (p : Program) (n f : ℕ) (s : State) :
    Requested rules p n f s := by
  cases hdecl : p.decl? f with
  | none =>
    refine .unknown hdecl ?_
    rw [resolveReturn, hdecl]
    rfl
  | some d =>
    have hrun : resolveReturn rules p (n + 1) f s = (match p.known s f with
        | some type => pure type
        | none =>
            if s.memo.resolving.contains f then throw (.inferenceCycle f)
            else do
              startInference f
              let type ← inferReturnFromBody (leakyEnv rules p (resolveReturn rules p n)) d
              endInference f type s.memo.resolving
              pure type : Walk TypeRef) s := by
      rw [resolveReturn, hdecl]
      rfl
    cases hknown : p.known s f with
    | some type =>
      rw [hknown] at hrun
      exact .known type hknown hrun
    | none =>
      rw [hknown] at hrun
      dsimp only at hrun
      by_cases hcycle : s.memo.resolving.contains f = true
      · rw [if_pos hcycle] at hrun
        exact .cycle (List.mem_of_elem_eq_true hcycle) hknown hrun
      · rw [if_neg hcycle] at hrun
        exact .infer d hdecl hknown (fun h => hcycle (List.elem_eq_true_of_mem h)) hrun

theorem written_none {d : FunctionDecl} (hdecl : p.decl? f = some d) (hknown : p.known s f = none) :
    d.head.returnType = none := by
  rw [Program.known, hdecl, Option.bind_some, Option.or_eq_none_iff] at hknown
  exact hknown.left

/-- Every type that is known is what inference at the top level computes. -/
def Sound (rules : Rules) (p : Program) (m : Memo) : Prop :=
  ∀ e ∈ m.returns, Computes rules p e.1 e.2

theorem known_computes (hs : Sound rules p s.memo) (h : p.known s f = some type) :
    Computes rules p f type := by
  rw [Program.known, Option.or_eq_some_iff] at h
  rcases h with h | ⟨-, h⟩
  · obtain ⟨d, hd, hwritten⟩ := Option.bind_eq_some_iff.1 h
    refine ⟨1, ?_⟩
    rw [returnTypes_succ, hd, Option.bind_some, hwritten, Option.some_or]
  · obtain ⟨before, after, hreturns, -⟩ := List.lookup_eq_some_iff.1 h
    apply hs (f, type)
    rw [hreturns]
    exact List.mem_append_right before List.mem_cons_self

theorem keeps_peekReturn : Keeps Disturbed (peekReturn p f) := by
  intro s hs
  rw [finalState, peekReturn]
  cases p.known s f with
  | some type => exact hs
  | none => rfl

/-- A type that a method has so far is its own, unless it has none yet. -/
theorem peekReturn_tracks {N : ℕ} (hN : Final rules p N) (f : ℕ) :
    Tracks (Sound rules p) anyMemo False True (peekReturn p f)
      (answer (returnTypes rules p N) f) where
  stays_left := keeps_peekReturn
  stays_right := keeps_answer _ _ f
  quiet_left hq := hq.elim
  quiet_right _ := keeps_answer _ _ f
  step s t a s' hst hx hs' _ := by
    rw [peekReturn] at hx
    cases hknown : p.known s f with
    | some type =>
      rw [hknown] at hx
      cases hx
      rw [answer_some ((hN f _).1 (known_computes hst.2.1 hknown))]
      exact ⟨t, rfl, hst⟩
    | none =>
      rw [hknown] at hx
      cases hx
      exact absurd rfl hs'

theorem settings_sound {N : ℕ} (hN : Final rules p N) {resolve : ℕ → Walk TypeRef}
    (h : ∀ f, Tracks (Sound rules p) anyMemo False True (resolve f)
      (answer (returnTypes rules p N) f)) :
    Settings (Sound rules p) anyMemo False True (leakyEnv rules p resolve)
      (topEnv rules p.directFallible (returnTypes rules p N)) where
  rules := rfl
  direct := rfl
  resolve := h
  peek := peekReturn_tracks hN
  left hq := hq.elim
  right _ := topEnv_atTop rules p.directFallible _

theorem inferOnce_ok {d : FunctionDecl} {s' : State}
    (h : inferOnce rules p n f d s = .ok type s') :
    ∃ mid, inferReturnFromBody (leakyEnv rules p (resolveReturn rules p n)) d (started f s) =
        .ok type mid ∧
      s' = { mid with memo := ⟨(f, type) :: mid.memo.returns, s.memo.resolving⟩ } := by
  rw [inferOnce] at h
  cases hinfer : inferReturnFromBody (leakyEnv rules p (resolveReturn rules p n)) d
      (started f s) with
  | error e mid =>
    rw [bind_error _ hinfer] at h
    cases h
  | ok a mid =>
    rw [bind_ok _ hinfer] at h
    cases h
    exact ⟨mid, rfl, rfl⟩

theorem inferOnce_of_ok {d : FunctionDecl} {mid : State}
    (h : inferReturnFromBody (leakyEnv rules p (resolveReturn rules p n)) d (started f s) =
      .ok type mid) :
    inferOnce rules p n f d s =
      .ok type { mid with memo := ⟨(f, type) :: mid.memo.returns, s.memo.resolving⟩ } := by
  rw [inferOnce, bind_ok _ h]
  rfl

theorem inferOnce_disturbed {d : FunctionDecl}
    (h : Disturbed (finalState
      (inferReturnFromBody (leakyEnv rules p (resolveReturn rules p n)) d) (started f s)))
    (hresult : resolveReturn rules p (n + 1) f s = inferOnce rules p n f d s) :
    Disturbed (finalState (resolveReturn rules p (n + 1) f) s) := by
  rw [finalState, hresult, inferOnce]
  cases hbody : inferReturnFromBody (leakyEnv rules p (resolveReturn rules p n)) d
      (started f s) with
  | error e mid =>
    rw [finalState_error hbody] at h
    rw [bind_error _ hbody]
    exact h
  | ok a mid =>
    rw [finalState_ok hbody] at h
    rw [bind_ok _ hbody]
    exact h

theorem inferReturnFromBody_quiet (rules : Rules) (direct : ℕ → Bool) (T : ℕ → Option TypeRef)
    (d : FunctionDecl) {s s' t : State} {type : TypeRef} (hs : ¬Disturbed s) (ht : ¬Disturbed t)
    (h : inferReturnFromBody (topEnv rules direct T) d s = .ok type s') :
    s'.frame = s.frame ∧ ¬Disturbed s' ∧
      ∃ t', inferReturnFromBody (topEnv rules direct T) d t = .ok type t' := by
  have hsettings := settings_quiet rules direct (T := T) (fun _ _ h => h)
  exact onTop_anywhere
    (follows_bind (tracks_inScope (walkStmts_tracks hsettings d.body)) (fun tail =>
      tracks_mergeReturns hsettings d.head.node tail)) hs ht h

/-- A request that is answered in an undisturbed run is answered as at the top level. -/
theorem resolveReturn_sound {N : ℕ} (hN : Final rules p N) (n : ℕ) :
    ∀ f, Tracks (Sound rules p) anyMemo False True (resolveReturn rules p n f)
      (answer (returnTypes rules p N) f) := by
  induction n with
  | zero => exact fun f => follows_fails _ (keeps_answer _ _ f) (fun _ => keeps_answer _ _ f)
  | succ n ih =>
    intro f
    have hinfer := inferReturnFromBody_tracks (settings_sound hN ih)
    constructor
    case stays_left =>
      intro s hs
      cases requested rules p n f s with
      | unknown hdecl hrun => rwa [finalState_error hrun]
      | known type hknown hrun => rwa [finalState_ok hrun]
      | cycle hmem hknown hrun => rwa [finalState_error hrun]
      | infer d hdecl hknown hfresh hrun =>
        exact inferOnce_disturbed ((hinfer d).stays_left (started f s) hs) hrun
    case stays_right => exact keeps_answer _ _ f
    case quiet_left => exact fun hq => hq.elim
    case quiet_right => exact fun _ => keeps_answer _ _ f
    case step =>
      rintro s t a s' ⟨hframe, hsound, -⟩ hx hs' ht'
      have ht : ¬Disturbed t := fun h => ht' (keeps_answer _ _ f t h)
      cases requested rules p n f s with
      | unknown hdecl hrun =>
        rw [hrun] at hx
        cases hx
      | cycle hmem hknown hrun =>
        rw [hrun] at hx
        cases hx
      | known type hknown hrun =>
        rw [hrun] at hx
        cases hx
        rw [answer_some ((hN f _).1 (known_computes hsound hknown))]
        exact ⟨t, rfl, hframe, hsound, trivial⟩
      | infer d hdecl hknown hfresh hrun =>
        rw [hrun] at hx
        obtain ⟨mid, hbody, rfl⟩ := inferOnce_ok hx
        have halike : Alike (Sound rules p) anyMemo (started f s) t := ⟨hframe, hsound, trivial⟩
        obtain ⟨t', hown, hmid⟩ := (hinfer d).step _ t a mid halike hbody hs'
          ((hinfer d).quiet_right trivial t ht)
        obtain ⟨hsame, -, u, hinitial⟩ :=
          inferReturnFromBody_quiet _ _ _ d ht initial_undisturbed hown
        have hfinal := hN.closed hdecl (written_none hdecl hknown) (inferred_eq hinitial)
        rw [answer_some hfinal]
        refine ⟨t, rfl, hmid.1.trans hsame, ?_, trivial⟩
        exact List.forall_mem_cons.2 ⟨⟨N, hfinal⟩, hmid.2.1⟩

/-- None of the functions under inference has a type after `h` rounds. -/
def Ahead (rules : Rules) (p : Program) (h n : ℕ) (m : Memo) : Prop :=
  Sound rules p m ∧ (∀ r ∈ m.resolving, returnTypes rules p h r = none) ∧
    Room p.top n m.resolving

theorem answer_ok {T : ℕ → Option TypeRef} {s' : State} (h : answer T f s = .ok type s') :
    T f = some type ∧ s' = s := by
  rw [answer] at h
  cases hT : T f with
  | some type' =>
    rw [hT] at h
    cases h
    exact ⟨rfl, rfl⟩
  | none =>
    rw [hT] at h
    cases h

theorem peekReturn_known {h N : ℕ} (f : ℕ) :
    Tracks anyMemo (Ahead rules p h N) True False (answer (returnTypes rules p h) f)
      (peekReturn p f) where
  stays_left := keeps_answer _ _ f
  stays_right := keeps_peekReturn
  quiet_left _ := keeps_answer _ _ f
  quiet_right hq := hq.elim
  step s t a s' hst hx _ ht' := by
    obtain ⟨hround, rfl⟩ := answer_ok hx
    rw [finalState, peekReturn] at ht'
    rw [peekReturn]
    cases hknown : p.known t f with
    | some type =>
      have hsame := (known_computes hst.2.2.1 hknown).unique ⟨h, hround⟩
      rw [hsame]
      exact ⟨t, rfl, hst⟩
    | none =>
      rw [hknown] at ht'
      exact absurd rfl ht'

theorem settings_complete {h n : ℕ} (hresolve : ∀ f, Tracks anyMemo (Ahead rules p h n) True False
      (answer (returnTypes rules p h) f) (resolveReturn rules p n f)) :
    Settings anyMemo (Ahead rules p h n) True False
      (topEnv rules p.directFallible (returnTypes rules p h))
      (leakyEnv rules p (resolveReturn rules p n)) where
  rules := rfl
  direct := rfl
  resolve := hresolve
  peek := peekReturn_known
  left _ := topEnv_atTop rules p.directFallible _
  right hq := hq.elim

/-- The round in which a function gets its type. -/
theorem exists_first_round {h : ℕ} (hround : returnTypes rules p h f = some type) :
    ∃ m < h, returnTypes rules p m f = none ∧ returnTypes rules p (m + 1) f = some type := by
  induction h with
  | zero => cases hround
  | succ h ih =>
    cases hbefore : returnTypes rules p h f with
    | none => exact ⟨h, Nat.lt_succ_self h, hbefore, hround⟩
    | some type' =>
      have hsame := returnTypes_unique hbefore hround
      rw [hsame] at hbefore
      obtain ⟨m, hm, hnone, hsome⟩ := ih hbefore
      exact ⟨m, Nat.lt_succ_of_lt hm, hnone, hsome⟩

theorem Ahead.start {h m n : ℕ} {memo : Memo} (hahead : Ahead rules p h (n + 1) memo) (hm : m ≤ h)
    (hnone : returnTypes rules p m f = none) (hmem : f ∈ p.top) (hfresh : f ∉ memo.resolving) :
    Ahead rules p m n { memo with resolving := f :: memo.resolving } := by
  obtain ⟨hsound, hresolving, hroom⟩ := hahead
  refine ⟨hsound, List.forall_mem_cons.2 ⟨hnone, fun r hr => ?_⟩, hroom.call hmem hfresh⟩
  cases hearly : returnTypes rules p m r with
  | none => rfl
  | some type =>
    have hlate := returnTypes_mono hm r type hearly
    rw [hresolving r hr] at hlate
    cases hlate

/-- A request for a type that a function has at the top level is answered with it, whatever the
    functions under inference, as none of them is asked for again on the way. -/
theorem resolveReturn_complete (h : ℕ) :
    ∀ n f, Tracks anyMemo (Ahead rules p h n) True False (answer (returnTypes rules p h) f)
      (resolveReturn rules p n f) := by
  obtain ⟨N, hN⟩ := exists_final_round rules p
  induction h using Nat.strongRecOn with
  | ind h ih =>
    intro n f
    constructor
    case stays_left => exact keeps_answer _ _ f
    case stays_right => exact (resolveReturn_sound hN n f).stays_left
    case quiet_left => exact fun _ => keeps_answer _ _ f
    case quiet_right => exact fun hq => hq.elim
    case step =>
      rintro s t a s' ⟨hframe, -, hahead⟩ hx hs' ht'
      obtain ⟨hround, rfl⟩ := answer_ok hx
      cases n with
      | zero => exact absurd hahead.2.2 not_room_zero
      | succ n =>
        cases requested rules p n f t with
        | unknown hdecl hrun =>
          obtain ⟨d, hd⟩ := decl_of_computes ⟨h, hround⟩
          rw [hdecl] at hd
          cases hd
        | cycle hmem hknown hrun =>
          have hnone := hahead.2.1 f hmem
          rw [hround] at hnone
          cases hnone
        | known type hknown hrun =>
          have hsame := (known_computes hahead.1 hknown).unique ⟨h, hround⟩
          rw [hsame] at hrun
          exact ⟨t, hrun, hframe, trivial, hahead⟩
        | infer d hdecl hknown hfresh hrun =>
          obtain ⟨m, hm, hnone, hsome⟩ := exists_first_round hround
          rw [returnTypes_succ, hdecl, Option.bind_some, written_none hdecl hknown,
            Option.none_or] at hsome
          obtain ⟨u, hinitial⟩ := inferred_some hsome
          obtain ⟨-, -, v, hown⟩ :=
            inferReturnFromBody_quiet _ _ _ d initial_undisturbed hs' hinitial
          obtain ⟨hsame, hv, -⟩ := inferReturnFromBody_quiet _ _ _ d hs' hs' hown
          have hinfer := inferReturnFromBody_tracks (settings_complete (ih m hm n)) d
          have halike : Alike anyMemo (Ahead rules p m n) s' (started f t) :=
            ⟨hframe, trivial, hahead.start (Nat.le_of_lt hm) hnone (mem_top_of_decl hdecl) hfresh⟩
          have hbody : ¬Disturbed (finalState
              (inferReturnFromBody (leakyEnv rules p (resolveReturn rules p n)) d)
              (started f t)) := fun hbad => ht' (inferOnce_disturbed hbad hrun)
          obtain ⟨mid, hleaky, hmid⟩ := hinfer.step _ _ a v halike hown hv hbody
          rw [hrun]
          refine ⟨_, inferOnce_of_ok hleaky, hsame.symm.trans hmid.1, trivial, ?_⟩
          obtain ⟨-, hresolving, hroom⟩ := hahead
          exact ⟨List.forall_mem_cons.2 ⟨⟨h, hround⟩, hmid.2.2.1⟩, hresolving, hroom⟩

end Resolution

end NewClLang.InferredTypes
