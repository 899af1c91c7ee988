import NewClLang.FallibleCalls
import NewClLang.NestingDepth

set_option autoImplicit false

/-!
# Marks of fallible functions

The walk of an accepted program marks the functions that have an `err` or a `??` of their own. A
call that is not under a fallible operator is checked against the marks of the first pass, except
in a function expression that stands for an omitted argument under such an operator.
-/
namespace NewClLang.FallibleMarks
open FallibleCalls NestingDepth

/-- What a piece of a function body contains: an `err` or `??` of the function itself, the functions
    declared in it that have one, the targets of the calls that are not operands, and those of the
    calls that are not either but stand in an omitted argument of an operand. -/
structure Facts where
  raises : Bool
  declared : List ℕ
  bare : List ℕ
  shielded : List ℕ

namespace Facts

def none : Facts := ⟨false, [], [], []⟩

def append (a b : Facts) : Facts :=
  ⟨a.raises || b.raises, a.declared ++ b.declared, a.bare ++ b.bare, a.shielded ++ b.shielded⟩

instance : Append Facts := ⟨append⟩

def raising : Facts := ⟨true, [], [], []⟩

def calls (target : Option ℕ) : Facts := ⟨false, [], target.toList, []⟩

def shield (a : Facts) : Facts := { a with bare := [], shielded := a.bare ++ a.shielded }

def inFunctionExpr (a : Facts) : Facts := { a with raises := false }

def inFunction (a : Facts) (f : ℕ) : Facts :=
  { a with raises := false, declared := if a.raises then f :: a.declared else a.declared }

end Facts

mutual

/-- The facts of an expression, as the operand of a fallible operator or not. -/
def exprFacts : Expr → Bool → Facts
  | .operation operands _, _ => exprsFacts operands
  | .interpolatedString parts, _ => exprsFacts parts
  | .call _ args omitted, true => exprsFacts args ++ (exprsFacts omitted).shield
  | .call target args omitted, false =>
      exprsFacts args ++ (exprsFacts omitted ++ Facts.calls target)
  | .functionValue _, _ => Facts.none
  | .functionExpr _ body, _ => (stmtsFacts body).inFunctionExpr
  | .ifExpr condition thenBlock elseBlock, _ =>
      exprFacts condition false ++ (stmtsFacts thenBlock ++ stmtsFacts elseBlock)
  | .blockExpr block, _ => stmtsFacts block
  | .matchExpr scrutinee bodies, _ => exprFacts scrutinee false ++ exprsFacts bodies
  | .fallibleOp .propagate operand, _ => exprFacts operand true ++ Facts.raising
  | .fallibleOp .unwrap operand, _ => exprFacts operand true
  | .errorHandler operand handler, _ => exprFacts operand true ++ stmtsFacts handler
  | .errorMatch operand bodies, _ => exprFacts operand true ++ exprsFacts bodies
  | .exit .err value, _ => exprFacts value false ++ Facts.raising
  | .exit .ret value, _ => exprFacts value false

def exprsFacts : List Expr → Facts
  | [] => Facts.none
  | e :: es => exprFacts e false ++ exprsFacts es

def stmtFacts : Stmt → Facts
  | .variableDecl initializer => exprFacts initializer false
  | .assignment target value => exprFacts target false ++ exprFacts value false
  | .update target => exprFacts target false
  | .expression expr => exprFacts expr false
  | .exit .err value => exprFacts value false ++ Facts.raising
  | .exit .ret value => exprFacts value false
  | .forCondition condition body => exprFacts condition false ++ stmtsFacts body
  | .forIn iterated body => exprsFacts iterated ++ stmtsFacts body
  | .tryCall operand successBlock errorBlock =>
      exprFacts operand true ++ (stmtsFacts successBlock ++ stmtsFacts errorBlock)
  | .defer body => stmtsFacts body
  | .spawn _ body => (stmtsFacts body).inFunctionExpr
  | .function head defaults body => (exprsFacts defaults ++ stmtsFacts body).inFunction head.key
  | .other => Facts.none

def stmtsFacts : List Stmt → Facts
  | [] => Facts.none
  | s :: rest => stmtFacts s ++ stmtsFacts rest

end

/-- A function of the program with an `err` or a `??` outside its function expressions and the
    functions declared in it. -/
def Raises (p : Program) (f : ℕ) : Prop := f ∈ (stmtsFacts p).declared

/-- A function at the top with an `err` or a `??` in a form that `mark_direct_fallible` visits. -/
def Seen (p : Program) (f : ℕ) : Prop :=
  ∃ d ∈ p.decls, d.head.key = f ∧ markDirectFallibleBlock d.body = true

/-- The calls that are not operands of `??`, `!!`, `err?`, `match?` or `try`. -/
def unhandledCalls (p : Program) : List ℕ := (stmtsFacts p).bare ++ (stmtsFacts p).shielded

def AllHandled (p : Program) (s : State) : Prop :=
  ∀ f ∈ unhandledCalls p, ¬(f ∈ s.premarked ∨ f ∈ s.walked)

section Walks
variable (p : Program) (ready : List ℕ → Prop)

/-- What the walk of a piece does when the program is accepted. -/
structure Effect (c : Context) (a : Facts) (s s' : State) : Prop where
  premarked_same : s'.premarked = s.premarked
  resolving_same : s'.resolving = s.resolving
  grows : ∀ f ∈ s.walked, f ∈ s'.walked
  sound : ∀ f ∈ s'.walked, f ∈ s.walked ∨ Raises p f
  raised : a.raises = true → ∃ f, c.callable = .function f ∧ f ∈ s'.walked
  declared_walked : ∀ f ∈ a.declared, f ∈ s'.walked
  bare_unmarked : c.depth = 0 → ∀ f ∈ a.bare, flagged p.top s f = false

/-- What a piece raises is raised by the function that it belongs to. -/
structure Within (c : Context) (a : Facts) : Prop where
  raises : a.raises = true → ∀ f, c.callable = .function f → Raises p f
  declared : ∀ f ∈ a.declared, Raises p f

/-- The walk of a piece of the program, where inference does not nest too deep. -/
def Meets (c : Context) (a : Facts) (x : Walk) : Prop :=
  Within p c a → ∀ s, ready s.resolving →
    (∀ s', x s = .ok s' → Effect p c a s s') ∧ x s ≠ .error .depthExhausted

variable {p : Program} {ready : List ℕ → Prop} {c : Context} {a b : Facts} {x y : Walk}

theorem Within.left (h : Within p c (a ++ b)) : Within p c a where
  raises hr := h.raises (by rw [show (a ++ b).raises = (a.raises || b.raises) from rfl, hr]; rfl)
  declared f hf := h.declared f (List.mem_append_left _ hf)

theorem Within.right (h : Within p c (a ++ b)) : Within p c b where
  raises hr := h.raises (by
    rw [show (a ++ b).raises = (a.raises || b.raises) from rfl, hr, Bool.or_true])
  declared f hf := h.declared f (List.mem_append_right _ hf)

theorem flagged_mono {s s' : State} (hp : s'.premarked = s.premarked)
    (hw : ∀ f ∈ s.walked, f ∈ s'.walked) {f : ℕ} (h : flagged p.top s' f = false) :
    flagged p.top s f = false := by
  rw [flagged, Bool.and_eq_false_iff, Bool.or_eq_false_iff] at h ⊢
  refine h.imp_right (fun h => ?_)
  rw [hp] at h
  refine ⟨h.1, ?_⟩
  have hnot := h.2
  rw [List.contains_eq_mem, decide_eq_false_iff_not] at hnot ⊢
  exact fun hmem => hnot (hw f hmem)

/-- What has happened for one piece has happened for a piece whose own facts hold as well. -/
theorem Effect.relate {c' : Context} {s s' : State} (effect : Effect p c' a s s')
    (hraised : b.raises = true → ∃ f, c.callable = .function f ∧ f ∈ s'.walked)
    (hdeclared : ∀ f ∈ b.declared, f ∈ s'.walked)
    (hbare : c.depth = 0 → ∀ f ∈ b.bare, flagged p.top s f = false) : Effect p c b s s' where
  premarked_same := effect.premarked_same
  resolving_same := effect.resolving_same
  grows := effect.grows
  sound := effect.sound
  raised := hraised
  declared_walked := hdeclared
  bare_unmarked := hbare

theorem meets_relate {c' : Context} (h : Meets p ready c' a x)
    (hwithin : Within p c b → Within p c' a)
    (heffect : ∀ s s', Effect p c' a s s' → Effect p c b s s') : Meets p ready c b x := by
  intro hin s hs
  obtain ⟨hok, hfuel⟩ := h (hwithin hin) s hs
  exact ⟨fun s' hs' => heffect s s' (hok s' hs'), hfuel⟩

theorem andThen_ok {s mid : State} (h : x s = .ok mid) : andThen x y s = y mid := by
  rw [andThen, h]

theorem andThen_error {s : State} {failure : Failure} (h : x s = .error failure) :
    andThen x y s = .error failure := by
  rw [andThen, h]

theorem meets_andThen (hx : Meets p ready c a x) (hy : Meets p ready c b y) :
    Meets p ready c (a ++ b) (andThen x y) := by
  intro hin s hs
  obtain ⟨hok, hfuel⟩ := hx hin.left s hs
  cases hxs : x s with
  | error failure =>
    rw [andThen_error hxs]
    rw [hxs] at hfuel
    exact ⟨fun s' h => (by cases h), hfuel⟩
  | ok mid =>
    have first := hok mid hxs
    obtain ⟨hok', hfuel'⟩ := hy hin.right mid (by rw [first.resolving_same]; exact hs)
    rw [andThen_ok hxs]
    refine ⟨fun s' h => ?_, hfuel'⟩
    have second := hok' s' h
    constructor
    case premarked_same => exact second.premarked_same.trans first.premarked_same
    case resolving_same => exact second.resolving_same.trans first.resolving_same
    case grows => exact fun f hf => second.grows f (first.grows f hf)
    case sound =>
      intro f hf
      rcases second.sound f hf with hf | hf
      · exact first.sound f hf
      · exact Or.inr hf
    case raised =>
      intro hr
      rcases (Bool.or_eq_true_iff).1 hr with hr | hr
      · obtain ⟨f, hf, hmem⟩ := first.raised hr
        exact ⟨f, hf, second.grows f hmem⟩
      · exact second.raised hr
    case declared_walked =>
      intro f hf
      rcases List.mem_append.1 hf with hf | hf
      · exact second.grows f (first.declared_walked f hf)
      · exact second.declared_walked f hf
    case bare_unmarked =>
      intro hdepth f hf
      rcases List.mem_append.1 hf with hf | hf
      · exact first.bare_unmarked hdepth f hf
      · exact flagged_mono first.premarked_same first.grows (second.bare_unmarked hdepth f hf)

/-- A step that leaves the marks alone. -/
theorem effect_refl (c : Context) (s : State) : Effect p c Facts.none s s where
  premarked_same := rfl
  resolving_same := rfl
  grows _ hf := hf
  sound _ hf := Or.inl hf
  raised hr := by cases hr
  declared_walked _ hf := absurd hf List.not_mem_nil
  bare_unmarked _ _ hf := absurd hf List.not_mem_nil

theorem meets_pass : Meets p ready c Facts.none pass := by
  intro _ s _
  refine ⟨fun s' h => ?_, fun h => by cases h⟩
  cases h
  exact effect_refl c s

theorem meets_fail (a : Facts) {failure : Failure} (h : failure ≠ .depthExhausted) :
    Meets p ready c a (fun _ => .error failure) := by
  intro _ s _
  exact ⟨fun s' hs => (by cases hs), fun hs => h (Except.error.inj hs)⟩

theorem meets_failIf (condition : State → Bool) {failure : Failure}
    (h : failure ≠ .depthExhausted) : Meets p ready c Facts.none (failIf condition failure) := by
  intro hin s hs
  rw [failIf]
  by_cases hc : condition s = true
  · rw [if_pos hc]
    exact meets_fail Facts.none h hin s hs
  · rw [if_neg hc]
    exact meets_pass hin s hs

theorem meets_mark : Meets p ready c Facts.raising (markCurrentFallible c) := by
  intro hin s _
  rw [markCurrentFallible]
  cases hc : c.callable with
  | none => exact ⟨fun s' h => (by cases h), fun h => by cases h⟩
  | expression => exact ⟨fun s' h => (by cases h), fun h => by cases h⟩
  | function f =>
    refine ⟨fun s' h => ?_, fun h => by cases h⟩
    cases h
    constructor
    case premarked_same => rfl
    case resolving_same => rfl
    case grows => exact fun g hg => List.mem_cons_of_mem f hg
    case sound =>
      intro g hg
      rcases List.mem_cons.1 hg with rfl | hg
      · exact Or.inr (hin.raises rfl g hc)
      · exact Or.inl hg
    case raised => exact fun _ => ⟨f, hc, List.mem_cons_self⟩
    case declared_walked => exact fun g hg => absurd hg List.not_mem_nil
    case bare_unmarked => exact fun _ g hg => absurd hg List.not_mem_nil

theorem meets_checkCall (env : Env) (henv : env.top = p.top) (target : Option ℕ) :
    Meets p ready c (Facts.calls target) (checkCall env c target) := by
  cases target with
  | none =>
    intro hin s hs
    exact meets_pass hin s hs
  | some f =>
    intro hin s hs
    rw [checkCall, failIf]
    by_cases hc : (flagged env.top s f && c.depth == 0) = true
    · rw [if_pos hc]
      have hfailure : Failure.unhandledCall f ≠ .depthExhausted := by simp
      exact meets_fail _ hfailure hin s hs
    · rw [if_neg hc]
      refine ⟨fun s' h => ?_, fun h => by cases h⟩
      cases h
      have same := effect_refl (p := p) c s
      refine same.relate (fun hr => by cases hr) (fun g hg => absurd hg List.not_mem_nil) ?_
      intro hdepth g hg
      cases List.mem_singleton.1 hg
      rw [hdepth, henv] at hc
      simpa using hc

theorem append_none (a : Facts) : a ++ Facts.none = a := by
  change Facts.mk _ _ _ _ = a
  simp [Facts.none]

/-- The walk of a piece in the context of the piece around it. -/
theorem meets_context {c' : Context} (h : Meets p ready c' a x)
    (hcallable : c'.callable = c.callable) (hdepth : c.depth = 0 → c'.depth = 0) :
    Meets p ready c a x := by
  apply meets_relate h
  · intro hin
    exact ⟨fun hr f hf => hin.raises hr f (hcallable ▸ hf), hin.declared⟩
  · intro s s' effect
    have hraised := effect.raised
    rw [hcallable] at hraised
    exact effect.relate hraised effect.declared_walked fun hc => effect.bare_unmarked (hdepth hc)

/-- The calls of a piece that is walked under an operator need not be handled. -/
theorem meets_shield {c' : Context} (h : Meets p ready c' a x)
    (hcallable : c'.callable = c.callable) : Meets p ready c a.shield x := by
  apply meets_relate h
  · intro hin
    exact ⟨fun hr f hf => hin.raises hr f (hcallable ▸ hf), hin.declared⟩
  · intro s s' effect
    have hraised := effect.raised
    rw [hcallable] at hraised
    exact effect.relate hraised effect.declared_walked fun _ f hf => absurd hf List.not_mem_nil

theorem meets_inFunctionExpr {c' : Context} (h : Meets p ready c' a x)
    (hcallable : c'.callable = .expression) (hdepth : c.depth = 0 → c'.depth = 0) :
    Meets p ready c a.inFunctionExpr x := by
  apply meets_relate h
  · intro hin
    exact ⟨fun _ f hf => (by rw [hcallable] at hf; cases hf), hin.declared⟩
  · intro s s' effect
    exact effect.relate (fun hr => by cases hr) effect.declared_walked
      fun hc => effect.bare_unmarked (hdepth hc)

theorem meets_inFunction {c' : Context} {f : ℕ} (h : Meets p ready c' a x)
    (hcallable : c'.callable = .function f) (hdepth : c.depth = 0 → c'.depth = 0) :
    Meets p ready c (a.inFunction f) x := by
  have hdeclared : ∀ g, g ∈ (a.inFunction f).declared ↔
      (a.raises = true ∧ g = f) ∨ g ∈ a.declared := by
    intro g
    rw [Facts.inFunction]
    cases a.raises <;> simp
  apply meets_relate h
  · intro hin
    constructor
    · intro hr g hg
      rw [hcallable] at hg
      cases hg
      exact hin.declared f ((hdeclared f).2 (Or.inl ⟨hr, rfl⟩))
    · exact fun g hg => hin.declared g ((hdeclared g).2 (Or.inr hg))
  · intro s s' effect
    apply effect.relate (fun hr => by cases hr)
    · intro g hg
      rcases (hdeclared g).1 hg with ⟨hr, rfl⟩ | hg
      · obtain ⟨k, hk, hmem⟩ := effect.raised hr
        rw [hcallable] at hk
        cases hk
        exact hmem
      · exact effect.declared_walked g hg
    · exact fun hc => effect.bare_unmarked (hdepth hc)

/-- Facts that ask for no more. -/
theorem meets_congr (hraises : a.raises = b.raises)
    (hdeclared : ∀ f, f ∈ a.declared ↔ f ∈ b.declared) (hbare : ∀ f ∈ b.bare, f ∈ a.bare)
    (h : Meets p ready c a x) : Meets p ready c b x := by
  apply meets_relate h
  · intro hin
    constructor
    · rw [hraises]
      exact hin.raises
    · exact fun f hf => hin.declared f ((hdeclared f).1 hf)
  · intro s s' effect
    have hraised := effect.raised
    rw [hraises] at hraised
    exact effect.relate hraised (fun f hf => effect.declared_walked f ((hdeclared f).2 hf))
      fun hc f hf => effect.bare_unmarked hc f (hbare f hf)

/-- A check under an operator lets every call pass. -/
theorem meets_checkOperandCall (env : Env) (c' : Context) (target : Option ℕ) :
    Meets p ready c Facts.none (checkCall env c' target) := by
  cases target with
  | none => exact meets_pass
  | some f => exact meets_failIf _ (by simp)

theorem meets_twice (hx : Meets p ready c a x) (hy : Meets p ready c a y) :
    Meets p ready c a (andThen x y) := by
  refine meets_congr ?_ ?_ ?_ (meets_andThen hx hy)
  · exact Bool.or_self a.raises
  · intro f
    exact List.mem_append.trans or_self_iff
  · exact fun f hf => List.mem_append_left _ hf

theorem meets_before (hx : Meets p ready c Facts.none x) (hy : Meets p ready c a y) :
    Meets p ready c a (andThen x y) := meets_andThen hx hy

theorem meets_after (hx : Meets p ready c a x) (hy : Meets p ready c Facts.none y) :
    Meets p ready c a (andThen x y) := by
  have h := meets_andThen hx hy
  rw [append_none] at h
  exact h

theorem meets_failInDefer : Meets p ready c Facts.none (failInDefer c) :=
  meets_failIf _ (by simp)

end Walks

section Bodies
variable {p : Program} {ready : List ℕ → Prop} {env : Env}

theorem meets_resolveTarget (htop : env.top = p.top)
    (hresolve : ∀ f ∈ p.top, ∀ c, Meets p ready c Facts.none (env.resolve f c)) (c : Context)
    (f : ℕ) : Meets p ready c Facts.none (resolveTarget env c f) := by
  rw [resolveTarget]
  split_ifs with hf
  · rw [htop, List.contains_eq_mem, decide_eq_true_iff] at hf
    exact hresolve f hf c
  · exact meets_pass

theorem meets_resolveDeclared (htop : env.top = p.top)
    (hresolve : ∀ f ∈ p.top, ∀ c, Meets p ready c Facts.none (env.resolve f c)) (c : Context)
    (f : ℕ) : Meets p ready c Facts.none (resolveDeclared env c f) := by
  rw [resolveDeclared]
  split_ifs with hf
  · rw [htop, List.contains_eq_mem, decide_eq_true_iff] at hf
    exact hresolve f hf c
  · exact meets_fail _ (by simp)

theorem meets_resolveTargets (htop : env.top = p.top)
    (hresolve : ∀ f ∈ p.top, ∀ c, Meets p ready c Facts.none (env.resolve f c)) (c : Context)
    (fs : List ℕ) : Meets p ready c Facts.none (resolveTargets env c fs) := by
  induction fs with
  | nil => exact meets_pass
  | cons f fs ih => exact meets_before (meets_resolveTarget htop hresolve c f) ih

theorem forOmitted_callable (c : Context) : c.forOmitted.callable = c.callable := by
  rw [Context.forOmitted]
  split_ifs <;> rfl

theorem forOmitted_depth (c : Context) (h : c.depth = 0) : c.forOmitted.depth = 0 := by
  rw [Context.forOmitted]
  split_ifs
  · rfl
  · exact h

/-- An operand that is not a call is rejected. -/
theorem operand_rejected {e : Expr} (hrejected : ∀ s, isFallible env s e = false)
    (hfacts : exprFacts e true = exprFacts e false)
    (h : ∀ c, Meets p ready c (exprFacts e false) (walkExpr env c e)) :
    (∀ c, Meets p ready c (exprFacts e false) (walkExpr env c e)) ∧
      ∀ c, Meets p ready c (exprFacts e true)
        (andThen (walkExpr env c.insideFallibleOp e) (checkOperand env e)) := by
  refine ⟨h, fun c hin s hs => ?_⟩
  rw [hfacts] at hin
  have hin' : Within p c.insideFallibleOp (exprFacts e false) := ⟨hin.raises, hin.declared⟩
  obtain ⟨-, hfuel⟩ := h c.insideFallibleOp hin' s hs
  cases hwalk : walkExpr env c.insideFallibleOp e s with
  | error failure =>
    rw [andThen_error hwalk]
    rw [hwalk] at hfuel
    exact ⟨fun s' hs' => (by cases hs'), hfuel⟩
  | ok mid =>
    have hcheck : checkOperand env e mid = .error .notFallible := by
      rw [checkOperand, failIf, hrejected]
      rfl
    rw [andThen_ok hwalk, hcheck]
    exact ⟨fun s' hs' => (by cases hs'), fun hs' => by cases hs'⟩

theorem meets_functionExpr {c : Context} {a : Facts} (explicit : Bool) (walk : Context → Walk)
    (h : ∀ c', Meets p ready c' a (walk c')) :
    Meets p ready c a.inFunctionExpr
      (andThen (if explicit then pass else walk c.inFunctionExpr)
        (walk (c.inFunctionExpr.walkedBefore !explicit))) := by
  have hsecond : Meets p ready c a.inFunctionExpr (walk (c.inFunctionExpr.walkedBefore !explicit)) :=
    meets_inFunctionExpr (h _) rfl (fun hc => hc)
  cases explicit with
  | true => exact meets_before meets_pass hsecond
  | false =>
    exact meets_twice (meets_inFunctionExpr (h _) rfl (fun hc => hc)) hsecond

mutual

theorem walkExpr_meets (htop : env.top = p.top)
    (hresolve : ∀ f ∈ p.top, ∀ c, Meets p ready c Facts.none (env.resolve f c)) :
    ∀ e : Expr, (∀ c, Meets p ready c (exprFacts e false) (walkExpr env c e)) ∧
      ∀ c, Meets p ready c (exprFacts e true)
        (andThen (walkExpr env c.insideFallibleOp e) (checkOperand env e))
  | .operation operands resolves => by
    refine operand_rejected (fun _ => rfl) (by rw [exprFacts, exprFacts]) (fun c => ?_)
    rw [exprFacts, walkExpr]
    exact meets_after (walkExprs_meets htop hresolve operands c)
      (meets_resolveTargets htop hresolve c resolves)
  | .interpolatedString parts => by
    refine operand_rejected (fun _ => rfl) (by rw [exprFacts, exprFacts]) (fun c => ?_)
    rw [exprFacts, walkExpr]
    exact walkExprs_meets htop hresolve parts c
  | .call target args omitted => by
    have hargs := walkExprs_meets htop hresolve args
    have homitted := walkExprs_meets htop hresolve omitted
    have hresolves := meets_resolveTargets htop hresolve
    constructor
    · intro c
      rw [exprFacts, walkExpr]
      refine meets_andThen (meets_context (hargs _) rfl (fun _ => rfl)) ?_
      refine meets_before (hresolves c target.toList) ?_
      refine meets_andThen ?_ (meets_checkCall env htop target)
      exact meets_context (homitted _) (forOmitted_callable c) (forOmitted_depth c)
    · intro c
      rw [exprFacts, walkExpr]
      refine meets_after ?_ (meets_failIf _ (by simp))
      refine meets_andThen (meets_context (hargs _) rfl (fun _ => rfl)) ?_
      refine meets_before (meets_shield (hresolves c.insideFallibleOp target.toList) rfl) ?_
      refine meets_after ?_ (meets_checkOperandCall env _ target)
      exact meets_shield (homitted _) (forOmitted_callable c.insideFallibleOp)
  | .functionValue f => by
    refine operand_rejected (fun _ => rfl) (by rw [exprFacts, exprFacts]) (fun c => ?_)
    rw [exprFacts, walkExpr]
    exact meets_before (meets_resolveDeclared htop hresolve c f) (meets_failIf _ (by simp))
  | .functionExpr explicit body => by
    refine operand_rejected (fun _ => rfl) (by rw [exprFacts, exprFacts]) (fun c => ?_)
    rw [exprFacts, walkExpr]
    exact meets_functionExpr explicit (fun c' => walkStmts env c' body)
      (walkStmts_meets htop hresolve body)
  | .ifExpr condition thenBlock elseBlock => by
    refine operand_rejected (fun _ => rfl) (by rw [exprFacts, exprFacts]) (fun c => ?_)
    rw [exprFacts, walkExpr]
    exact meets_andThen ((walkExpr_meets htop hresolve condition).1 c)
      (meets_andThen (walkStmts_meets htop hresolve thenBlock c)
        (walkStmts_meets htop hresolve elseBlock c))
  | .blockExpr block => by
    refine operand_rejected (fun _ => rfl) (by rw [exprFacts, exprFacts]) (fun c => ?_)
    rw [exprFacts, walkExpr]
    exact walkStmts_meets htop hresolve block c
  | .matchExpr scrutinee bodies => by
    refine operand_rejected (fun _ => rfl) (by rw [exprFacts, exprFacts]) (fun c => ?_)
    rw [exprFacts, walkExpr]
    exact meets_andThen ((walkExpr_meets htop hresolve scrutinee).1 c)
      (walkExprs_meets htop hresolve bodies c)
  | .fallibleOp .propagate operand => by
    refine operand_rejected (fun _ => rfl) (by rw [exprFacts, exprFacts]) (fun c => ?_)
    rw [exprFacts, walkExpr]
    exact meets_before meets_failInDefer
      (meets_andThen ((walkExpr_meets htop hresolve operand).2 c) meets_mark)
  | .fallibleOp .unwrap operand => by
    refine operand_rejected (fun _ => rfl) (by rw [exprFacts, exprFacts]) (fun c => ?_)
    rw [exprFacts, walkExpr]
    exact (walkExpr_meets htop hresolve operand).2 c
  | .errorHandler operand handler => by
    refine operand_rejected (fun _ => rfl) (by rw [exprFacts, exprFacts]) (fun c => ?_)
    rw [exprFacts, walkExpr]
    exact meets_andThen ((walkExpr_meets htop hresolve operand).2 c)
      (walkStmts_meets htop hresolve handler c)
  | .errorMatch operand bodies => by
    refine operand_rejected (fun _ => rfl) (by rw [exprFacts, exprFacts]) (fun c => ?_)
    rw [exprFacts, walkExpr]
    exact meets_andThen ((walkExpr_meets htop hresolve operand).2 c)
      (walkExprs_meets htop hresolve bodies c)
  | .exit .err value => by
    refine operand_rejected (fun _ => rfl) (by rw [exprFacts, exprFacts]) (fun c => ?_)
    rw [exprFacts, walkExpr]
    exact meets_before meets_failInDefer
      (meets_andThen ((walkExpr_meets htop hresolve value).1 c) meets_mark)
  | .exit .ret value => by
    refine operand_rejected (fun _ => rfl) (by rw [exprFacts, exprFacts]) (fun c => ?_)
    rw [exprFacts, walkExpr]
    exact (walkExpr_meets htop hresolve value).1 c

theorem walkExprs_meets (htop : env.top = p.top)
    (hresolve : ∀ f ∈ p.top, ∀ c, Meets p ready c Facts.none (env.resolve f c)) :
    ∀ (es : List Expr) (c : Context), Meets p ready c (exprsFacts es) (walkExprs env c es)
  | [], c => by
    rw [exprsFacts, walkExprs]
    exact meets_pass
  | e :: es, c => by
    rw [exprsFacts, walkExprs]
    exact meets_andThen ((walkExpr_meets htop hresolve e).1 c) (walkExprs_meets htop hresolve es c)

theorem walkStmt_meets (htop : env.top = p.top)
    (hresolve : ∀ f ∈ p.top, ∀ c, Meets p ready c Facts.none (env.resolve f c)) :
    ∀ (s : Stmt) (c : Context), Meets p ready c (stmtFacts s) (walkStmt env c s)
  | .variableDecl initializer, c => by
    rw [stmtFacts, walkStmt]
    exact (walkExpr_meets htop hresolve initializer).1 c
  | .assignment target value, c => by
    rw [stmtFacts, walkStmt]
    exact meets_andThen ((walkExpr_meets htop hresolve target).1 c)
      ((walkExpr_meets htop hresolve value).1 c)
  | .update target, c => by
    rw [stmtFacts, walkStmt]
    exact (walkExpr_meets htop hresolve target).1 c
  | .expression expr, c => by
    rw [stmtFacts, walkStmt]
    exact (walkExpr_meets htop hresolve expr).1 c
  | .exit .err value, c => by
    rw [stmtFacts, walkStmt]
    exact meets_before meets_failInDefer
      (meets_andThen ((walkExpr_meets htop hresolve value).1 c) meets_mark)
  | .exit .ret value, c => by
    rw [stmtFacts, walkStmt]
    exact (walkExpr_meets htop hresolve value).1 c
  | .forCondition condition body, c => by
    rw [stmtFacts, walkStmt]
    exact meets_andThen ((walkExpr_meets htop hresolve condition).1 c)
      (walkStmts_meets htop hresolve body c)
  | .forIn iterated body, c => by
    rw [stmtFacts, walkStmt]
    exact meets_andThen (walkExprs_meets htop hresolve iterated c)
      (walkStmts_meets htop hresolve body c)
  | .tryCall operand successBlock errorBlock, c => by
    rw [stmtFacts, walkStmt]
    exact meets_andThen ((walkExpr_meets htop hresolve operand).2 c)
      (meets_andThen (walkStmts_meets htop hresolve successBlock c)
        (walkStmts_meets htop hresolve errorBlock c))
  | .defer body, c => by
    rw [stmtFacts, walkStmt]
    exact meets_context (walkStmts_meets htop hresolve body c.inDefer) rfl (fun hc => hc)
  | .spawn explicit body, c => by
    rw [stmtFacts, walkStmt]
    exact meets_functionExpr explicit (fun c' => walkStmts env c' body)
      (walkStmts_meets htop hresolve body)
  | .function head defaults body, c => by
    rw [stmtFacts, walkStmt]
    have hinferred : Meets p ready c Facts.none
        (if head.returnTypeExplicit then pass else resolveDeclared env c head.key) := by
      split_ifs
      · exact meets_pass
      · exact meets_resolveDeclared htop hresolve c head.key
    have hdefaults : Meets p ready (c.inFunction head.key) (exprsFacts defaults)
        (walkExprs env ((c.inFunction head.key).walkedBefore true) defaults) :=
      meets_context (walkExprs_meets htop hresolve defaults _) rfl (fun hc => hc)
    have hbody : Meets p ready (c.inFunction head.key) (stmtsFacts body)
        (walkStmts env ((c.inFunction head.key).walkedBefore !head.returnTypeExplicit) body) :=
      meets_context (walkStmts_meets htop hresolve body _) rfl (fun hc => hc)
    exact meets_before hinferred
      (meets_inFunction (meets_andThen hdefaults hbody) rfl (fun hc => hc))
  | .other, c => by
    rw [stmtFacts, walkStmt]
    exact meets_pass

theorem walkStmts_meets (htop : env.top = p.top)
    (hresolve : ∀ f ∈ p.top, ∀ c, Meets p ready c Facts.none (env.resolve f c)) :
    ∀ (ss : List Stmt) (c : Context), Meets p ready c (stmtsFacts ss) (walkStmts env c ss)
  | [], c => by
    rw [stmtsFacts, walkStmts]
    exact meets_pass
  | s :: ss, c => by
    rw [stmtsFacts, walkStmts]
    exact meets_andThen (walkStmt_meets htop hresolve s c) (walkStmts_meets htop hresolve ss c)

end

end Bodies

section Inference
variable {p : Program}

theorem mem_decls {d : FunctionDecl} :
    d ∈ p.decls ↔ .function d.head d.defaults d.body ∈ p := by
  rw [Program.decls, List.mem_filterMap]
  constructor
  · rintro ⟨s, hs, hd⟩
    cases s with
    | function head defaults body =>
      cases hd
      exact hs
    | _ => cases hd
  · intro h
    exact ⟨_, h, rfl⟩

theorem declared_of_mem {s : Stmt} :
    ∀ {ss : List Stmt}, s ∈ ss → ∀ f ∈ (stmtFacts s).declared, f ∈ (stmtsFacts ss).declared
  | [], h, _, _ => absurd h List.not_mem_nil
  | s' :: ss, h, f, hf => by
    rw [stmtsFacts]
    rcases List.mem_cons.1 h with rfl | h
    · exact List.mem_append_left _ hf
    · exact List.mem_append_right _ (declared_of_mem h f hf)

/-- The body of a declared function is a part of the program. -/
theorem within_decl {d : FunctionDecl} (hd : d ∈ p.decls) {c : Context}
    (hc : c.callable = .function d.head.key) :
    Within p c (exprsFacts d.defaults ++ stmtsFacts d.body) := by
  have hdeclared := declared_of_mem (mem_decls.1 hd)
  rw [stmtFacts, Facts.inFunction] at hdeclared
  constructor
  · intro hr f hf
    rw [hc] at hf
    cases hf
    apply hdeclared
    rw [hr]
    exact List.mem_cons_self
  · intro f hf
    apply hdeclared
    split_ifs
    · exact List.mem_cons_of_mem _ hf
    · exact hf

theorem decl_of_mem_top {f : ℕ} (hf : f ∈ p.top) :
    ∃ d, p.decls.find? (fun d => d.head.key == f) = some d ∧ d ∈ p.decls ∧ d.head.key = f := by
  obtain ⟨d, hd, hkey⟩ := List.mem_map.1 hf
  cases hfind : p.decls.find? (fun d => d.head.key == f) with
  | none =>
    have hnone := List.find?_eq_none.1 hfind d hd
    exact absurd (beq_iff_eq.2 hkey) hnone
  | some d' =>
    have hkey' := List.find?_some hfind
    exact ⟨d', rfl, List.mem_of_find?_eq_some hfind, beq_iff_eq.1 hkey'⟩

theorem infer_meets {ready : List ℕ → Prop} (env : Env) (htop : env.top = p.top)
    (hresolve : ∀ f ∈ p.top, ∀ c, Meets p ready c Facts.none (env.resolve f c)) (c : Context)
    (d : FunctionDecl) :
    Meets p ready (c.inFunction d.head.key) (exprsFacts d.defaults ++ stmtsFacts d.body)
      (inferReturnFromBody env c d) :=
  meets_andThen (meets_context (walkExprs_meets htop hresolve d.defaults _) rfl (fun hc => hc))
    (meets_context (walkStmts_meets htop hresolve d.body _) rfl (fun hc => hc))

/-- Inference of a return type marks only functions that raise, and ends. -/
theorem resolveReturn_meets (n : ℕ) :
    ∀ f ∈ p.top, ∀ c, Meets p (Room p.top n) c Facts.none (resolveReturn p n f c) := by
  induction n with
  | zero =>
    intro f _ c _ s hs
    exact absurd hs not_room_zero
  | succ n ih =>
    intro f hf c hin s hs
    obtain ⟨d, hfind, hd, hkey⟩ := decl_of_mem_top hf
    rw [resolveReturn, hfind]
    dsimp only
    by_cases hknown : (d.head.returnTypeExplicit || s.resolved.contains f) = true
    · rw [if_pos hknown]
      exact meets_pass hin s hs
    · rw [if_neg hknown]
      by_cases hcycle : s.resolving.contains f = true
      · rw [if_pos hcycle]
        exact ⟨fun s' h => (by cases h), fun h => by cases h⟩
      · rw [if_neg hcycle]
        have hfresh : f ∉ s.resolving := fun h => hcycle (List.elem_eq_true_of_mem h)
        have hroom : Room p.top n (f :: s.resolving) := hs.call hf hfresh
        have hwithin := within_decl (c := c.inFunction d.head.key) hd rfl
        obtain ⟨hok, hfuel⟩ := infer_meets ⟨p.top, resolveReturn p n⟩ rfl ih c d hwithin
          { s with resolving := f :: s.resolving } hroom
        cases hbody : inferReturnFromBody ⟨p.top, resolveReturn p n⟩ c d
            { s with resolving := f :: s.resolving } with
        | error failure =>
          rw [hbody] at hfuel
          exact ⟨fun s' h => (by cases h), fun h => hfuel (by rw [Except.error.inj h])⟩
        | ok mid =>
          refine ⟨fun s' h => ?_, fun h => by cases h⟩
          cases h
          have effect := hok mid hbody
          constructor
          case premarked_same => exact effect.premarked_same
          case resolving_same => rfl
          case grows => exact effect.grows
          case sound => exact effect.sound
          case raised => exact fun hr => by cases hr
          case declared_walked => exact fun g hg => absurd hg List.not_mem_nil
          case bare_unmarked => exact fun _ g hg => absurd hg List.not_mem_nil

end Inference

section Programs
variable {p : Program} {ready : List ℕ → Prop} {c : Context} {a : Facts} {x : Walk} {s : State}

theorem meets_forget (hin : Within p c a) (h : Meets p ready c a x) :
    Meets p ready c Facts.none x := by
  apply meets_relate h (fun _ => hin)
  intro s s' effect
  exact effect.relate (fun hr => by cases hr) (fun f hf => absurd hf List.not_mem_nil)
    fun _ f hf => absurd hf List.not_mem_nil

theorem env_meets (p : Program) :
    ∀ f ∈ p.top, ∀ c, Meets p (Room p.top (p.top.length + 1)) c Facts.none (p.env.resolve f c) :=
  resolveReturn_meets (p.top.length + 1)

theorem validate_meets {ds : List FunctionDecl} (hds : ∀ d ∈ ds, d ∈ p.decls) :
    Meets p (Room p.top (p.top.length + 1)) outermost Facts.none (validateFunctionDefaults p ds) := by
  induction ds with
  | nil => exact meets_pass
  | cons d ds ih =>
    obtain ⟨hd, hds⟩ := List.forall_mem_cons.1 hds
    have hdecl := (within_decl (c := outermost.inFunction d.head.key) hd rfl).left
    have hin : Within p outermost (exprsFacts d.defaults) :=
      ⟨fun _ f hf => (by cases hf), hdecl.declared⟩
    exact meets_before (meets_forget hin (walkExprs_meets rfl (env_meets p) d.defaults outermost))
      (ih hds)

theorem checkMarkers_meets (ds : List FunctionDecl) :
    Meets p ready c Facts.none (checkMarkers ds) := by
  induction ds with
  | nil => exact meets_pass
  | cons d ds ih => exact meets_before (meets_failIf _ (by simp)) ih

theorem within_program (p : Program) : Within p outermost (stmtsFacts p) :=
  ⟨fun _ f hf => (by cases hf), fun _ hf => hf⟩

/-- The passes after the first marks. -/
theorem passes_meets (p : Program) :
    Meets p (Room p.top (p.top.length + 1)) outermost (stmtsFacts p) (markedPasses p) :=
  meets_before (checkMarkers_meets p.decls)
    (meets_before (meets_resolveTargets rfl (env_meets p) outermost p.top)
      (walkStmts_meets rfl (env_meets p) p outermost))

theorem mem_premarks {f : ℕ} : f ∈ (markDirect p s).premarked ↔ Seen p f := by
  rw [markDirect, List.mem_map]
  constructor
  · rintro ⟨d, hd, rfl⟩
    obtain ⟨hmem, hmark⟩ := List.mem_filter.1 hd
    exact ⟨d, hmem, rfl, hmark⟩
  · rintro ⟨d, hmem, rfl, hmark⟩
    exact ⟨d, List.mem_filter.2 ⟨hmem, hmark⟩, rfl⟩

/-- The default values are walked before the first marks. -/
theorem inferTypes_cases (p : Program) :
    (∃ failure, inferTypes p = .error failure ∧ failure ≠ .depthExhausted) ∨
      ∃ start, inferTypes p = markedPasses p (markDirect p start) ∧ start.resolving = [] ∧
        ∀ f ∈ start.walked, Raises p f := by
  have hin : Within p outermost Facts.none :=
    ⟨fun hr => (by cases hr), fun f hf => absurd hf List.not_mem_nil⟩
  obtain ⟨hok, hfuel⟩ := validate_meets (p := p) (fun _ hd => hd) hin initial (room_start p.top)
  cases hstart : validateFunctionDefaults p p.decls initial with
  | error failure =>
    rw [hstart] at hfuel
    exact Or.inl ⟨failure, andThen_error hstart, fun h => hfuel (by rw [h])⟩
  | ok start =>
    have first := hok start hstart
    refine Or.inr ⟨start, andThen_ok hstart, first.resolving_same, fun f hf => ?_⟩
    rcases first.sound f hf with hf | hf
    · exact absurd hf List.not_mem_nil
    · exact hf

theorem room_marked {start : State} (h : start.resolving = []) :
    Room p.top (p.top.length + 1) (markDirect p start).resolving := by
  change Room p.top (p.top.length + 1) start.resolving
  rw [h]
  exact room_start p.top

/-- Inference never nests deeper than the model follows it. -/
theorem inferTypes_not_exhausted (p : Program) : inferTypes p ≠ .error .depthExhausted := by
  rcases inferTypes_cases p with ⟨failure, hfails, hother⟩ | ⟨start, heq, hresolving, -⟩
  · rw [hfails]
    exact fun h => hother (Except.error.inj h)
  · rw [heq]
    exact (passes_meets p (within_program p) _ (room_marked hresolving)).2

/-- The state after the first marks, and what the later passes do to it. -/
theorem inferTypes_ok (h : inferTypes p = .ok s) :
    ∃ mid, (∀ f ∈ mid.walked, Raises p f) ∧ (∀ f, f ∈ mid.premarked ↔ Seen p f) ∧
      Effect p outermost (stmtsFacts p) mid s := by
  rcases inferTypes_cases p with ⟨failure, hfails, -⟩ | ⟨start, heq, hresolving, hwalked⟩
  · rw [hfails] at h
    cases h
  · rw [heq] at h
    exact ⟨markDirect p start, hwalked, fun f => mem_premarks,
      (passes_meets p (within_program p) _ (room_marked hresolving)).1 s h⟩

theorem walked_iff (h : inferTypes p = .ok s) (f : ℕ) : f ∈ s.walked ↔ Raises p f := by
  obtain ⟨mid, hmid, -, effect⟩ := inferTypes_ok h
  constructor
  · intro hf
    rcases effect.sound f hf with hf | hf
    · exact hmid f hf
    · exact hf
  · exact effect.declared_walked f

theorem premarked_iff (h : inferTypes p = .ok s) (f : ℕ) : f ∈ s.premarked ↔ Seen p f := by
  obtain ⟨mid, -, hmarks, effect⟩ := inferTypes_ok h
  rw [effect.premarked_same]
  exact hmarks f

/-- A call that is walked outside every operator is not of a function marked before the walk. -/
theorem not_seen_of_bare (h : inferTypes p = .ok s) {f : ℕ} (hf : f ∈ (stmtsFacts p).bare) :
    ¬Seen p f := by
  obtain ⟨mid, -, hmarks, effect⟩ := inferTypes_ok h
  intro hseen
  have hunmarked := effect.bare_unmarked rfl f hf
  rw [flagged, Bool.and_eq_false_iff, Bool.or_eq_false_iff] at hunmarked
  rcases hunmarked with htop | ⟨hpre, -⟩
  · obtain ⟨d, hd, rfl, -⟩ := hseen
    rw [List.contains_eq_mem, decide_eq_false_iff_not] at htop
    exact htop (List.mem_map_of_mem hd)
  · rw [List.contains_eq_mem, decide_eq_false_iff_not] at hpre
    exact hpre ((hmarks f).2 hseen)

/-- In an accepted program the two passes mark the same functions and every fallible call is
    handled exactly when each function with an `err` or a `??` has one in a form that the first pass
    visits, none has one only in a function declared in it, and no function expression that stands
    for an omitted argument under an operator calls such a function. -/
theorem fallible_calls_handled_iff (p : Program) (s : State) (h : inferTypes p = .ok s) :
    ((∀ f, f ∈ s.premarked ↔ f ∈ s.walked) ∧ AllHandled p s) ↔
      (∀ f, Seen p f ↔ Raises p f) ∧ ∀ f ∈ (stmtsFacts p).shielded, ¬Raises p f := by
  constructor
  · rintro ⟨hmarks, hhandled⟩
    refine ⟨fun f => ?_, fun f hf hraises => ?_⟩
    · rw [← premarked_iff h, ← walked_iff h]
      exact hmarks f
    · exact hhandled f (List.mem_append_right _ hf) (Or.inr ((walked_iff h f).2 hraises))
  · rintro ⟨hseen, hshielded⟩
    refine ⟨fun f => ?_, fun f hf hmarked => ?_⟩
    · rw [premarked_iff h, walked_iff h]
      exact hseen f
    · have hraises : Raises p f := by
        rcases hmarked with hf | hf
        · exact (hseen f).1 ((premarked_iff h f).1 hf)
        · exact (walked_iff h f).1 hf
      rcases List.mem_append.1 hf with hbare | hf
      · exact not_seen_of_bare h hbare ((hseen f).2 hraises)
      · exact hshielded f hf hraises

end Programs

section Examples

def literal : Expr := .operation [] []

/-- `fun next(): str { err "end" }`. -/
def next : Stmt := .function ⟨2, true, false⟩ [] [.exit .err literal]

/-- `fun first(): str { ret next()?? }`. -/
def first : Stmt :=
  .function ⟨1, true, false⟩ [] [.exit .ret (.fallibleOp .propagate (.call (some 2) [] []))]

/-- `fun first(): str { ret "${next()??}" }`. -/
def firstInterpolated : Stmt :=
  .function ⟨1, true, false⟩ []
    [.exit .ret (.interpolatedString [.fallibleOp .propagate (.call (some 2) [] [])])]

/-- `fun main() { first()!! }`. -/
def unwrappingMain : Stmt :=
  .function ⟨0, false, false⟩ [] [.expression (.fallibleOp .unwrap (.call (some 1) [] []))]

/-- `fun main() { first() }`. -/
def bareMain : Stmt := .function ⟨0, false, false⟩ [] [.expression (.call (some 1) [] [])]

theorem fallible_calls_handled_propagated :
    ∃ s, inferTypes [unwrappingMain, first, next] = .ok s ∧
      (((∀ f, f ∈ s.premarked ↔ f ∈ s.walked) ∧ AllHandled [unwrappingMain, first, next] s) ↔
        (∀ f, Seen [unwrappingMain, first, next] f ↔ Raises [unwrappingMain, first, next] f) ∧
          ∀ f ∈ (stmtsFacts [unwrappingMain, first, next]).shielded,
            ¬Raises [unwrappingMain, first, next] f) :=
  ⟨_, rfl, fallible_calls_handled_iff _ _ rfl⟩

/-- The call is accepted before the function that it calls and rejected after it. -/
theorem interpolated_raise_unseen :
    (∃ s, inferTypes [bareMain, firstInterpolated, next] = .ok s ∧ 1 ∈ s.walked ∧
        1 ∉ s.premarked ∧ ¬AllHandled [bareMain, firstInterpolated, next] s) ∧
      inferTypes [next, firstInterpolated, bareMain] = .error (.unhandledCall 1) := by
  refine ⟨⟨_, rfl, by decide, by decide, fun h => ?_⟩, rfl⟩
  exact h 1 (by decide) (Or.inr (by decide))

end Examples

end NewClLang.FallibleMarks
