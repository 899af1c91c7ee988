import NewClLang.BreakTargets

set_option autoImplicit false

/-!
# Break statements in emitted code

Where each `break` has a loop in its own body and deferred block, the code generator branches to the
end of that loop, wherever it emits the body.
-/
namespace NewClLang.BreakEmission
open Syntax CompiledCode CodeEmission BreakTargets

section Codes
variable {l : Bool}

theorem allTargeted_append {cs cs' : List Code} (h : AllTargeted l cs = true)
    (h' : AllTargeted l cs' = true) : AllTargeted l (cs ++ cs') = true := by
  induction cs with
  | nil => exact h'
  | cons c cs ih =>
    simp only [List.cons_append, AllTargeted, Bool.and_eq_true] at h ⊢
    exact ⟨h.1, ih h.2⟩

theorem allTargeted_singleton {c : Code} (h : Targeted l c = true) : AllTargeted l [c] = true := by
  simp [AllTargeted, h]

theorem targeted_asLvalue {c : Code} (h : Targeted l c = true) :
    Targeted l (asLvalue c) = true := by
  cases c with
  | act a operands => exact h
  | _ => exact h

theorem targeted_errorBranch (error : Option Binder) {cs : List Code}
    (h : AllTargeted l cs = true) : Targeted l (errorBranch error cs) = true := by
  cases error with
  | none => rfl
  | some b => simpa [errorBranch, Targeted, AllTargeted] using h

theorem allTargeted_binders (a : Binder → Action) (bs : List Binder) :
    AllTargeted l (bs.map (fun b => .act (a b) [])) = true := by
  induction bs with
  | nil => rfl
  | cons b bs ih => simp [AllTargeted, Targeted, ih]

end Codes

/-- Emission keeps the deferred blocks that are known in order, and yields what satisfies `Q`. -/
def Emits {α : Type} (x : Emit α) (Q : α → Prop) : Prop :=
  ∀ b : Builder, AllTargeted false b.sites = true →
    Q (x b).1 ∧ AllTargeted false (x b).2.sites = true

section Emissions
variable {α β : Type} {l : Bool} {Q : α → Prop} {R : β → Prop}

theorem emits_pure {a : α} (h : Q a) : Emits (pure a) Q := fun _ hb => ⟨h, hb⟩

theorem emits_bind {x : Emit α} {f : α → Emit β} (hx : Emits x Q)
    (hf : ∀ a, Q a → Emits (f a) R) : Emits (x >>= f) R := by
  intro b hb
  obtain ⟨hQ, hsites⟩ := hx b hb
  exact hf _ hQ _ hsites

theorem emits_beginBlock : Emits beginBlock (fun _ => True) := fun _ hb => ⟨trivial, hb⟩

theorem emits_terminate : Emits terminate (fun _ => True) := fun _ hb => ⟨trivial, hb⟩

theorem emits_branches {x : Emit α} {y : Emit β} (hx : Emits x Q) (hy : Emits y R) :
    Emits (branches x y) (fun c => Q c.1 ∧ R c.2) := by
  intro b hb
  obtain ⟨hQ, hfirst⟩ := hx { b with terminated := false } hb
  obtain ⟨hR, hsecond⟩ := hy { (x { b with terminated := false }).2 with terminated := false } hfirst
  exact ⟨⟨hQ, hR⟩, hsecond⟩

theorem emits_unlessTerminated {x : Emit α} {skipped : α} (checked : Bool) (hskipped : Q skipped)
    (hx : Emits x Q) : Emits (unlessTerminated checked skipped x) Q := by
  intro b hb
  rw [unlessTerminated]
  split
  · exact ⟨hskipped, hb⟩
  · exact hx b hb

theorem emits_emitExit (m : Bool) : Emits (emitExit m) (fun c => Targeted l c = true) := by
  intro b hb
  cases m with
  | true => exact ⟨rfl, hb⟩
  | false => exact ⟨hb, hb⟩

theorem emits_emitDefer (m : Bool) {body : Emit (List Code)}
    (h : Emits body (fun cs => AllTargeted false cs = true)) :
    Emits (emitDefer m body) (fun c => Targeted l c = true) := by
  intro b hb
  cases m with
  | true => exact h b hb
  | false =>
    have hblock := (h { sites := [], terminated := false } rfl).1
    exact ⟨hblock, allTargeted_append hb (allTargeted_singleton hblock)⟩

end Emissions

section Induction

/-- A loop is around. -/
def Inside (d : ℕ) : Bool := decide (0 < d)

theorem inside_succ (d : ℕ) : Inside (d + 1) = true := by simp [Inside]

mutual

theorem emitExpr_targeted {d : ℕ} (m : Bool) (e : Expr) (h : breaksExpr (fun _ => 0) d e = true) :
    Emits (emitExpr m e) (fun c => Targeted (Inside d) c = true) := by
  cases e with
  | literal => exact emits_pure rfl
  | identifier occ name => exact emits_pure rfl
  | operation op operands =>
    rw [emitExpr]
    apply emits_bind (emitExprs_targeted m operands h)
    exact fun codes hcodes => emits_pure hcodes
  | ifExpr condition thenBlock elseBlock =>
    simp only [breaksExpr, Bool.and_eq_true] at h
    rw [emitExpr]
    apply emits_bind (emitExpr_targeted m condition h.1.1)
    intro c hc
    apply emits_bind (emits_branches (emitStmts_targeted m false thenBlock h.1.2)
      (emitStmts_targeted m false elseBlock h.2))
    exact fun codes hcodes => emits_pure (by simp [Targeted, hc, hcodes.1, hcodes.2])
  | blockExpr block =>
    rw [emitExpr]
    apply emits_bind (emitStmts_targeted m false block h)
    exact fun codes hcodes => emits_pure hcodes
  | matchExpr scrutinee bodies =>
    simp only [breaksExpr, Bool.and_eq_true] at h
    rw [emitExpr]
    apply emits_bind (emitExpr_targeted m scrutinee h.1)
    intro c hc
    apply emits_bind (emitArms_targeted m bodies h.2)
    exact fun codes hcodes => emits_pure (by simp [Targeted, hc, hcodes])
  | fallibleOp op call =>
    cases op with
    | propagate =>
      rw [emitExpr]
      apply emits_bind (emitExpr_targeted m call h)
      intro c hc
      apply emits_bind (emits_emitExit (l := Inside d) m)
      intro exit hexit
      apply emits_bind emits_beginBlock
      exact fun _ _ => emits_pure (by simp [Targeted, AllTargeted, hc, hexit])
    | unwrap =>
      rw [emitExpr]
      apply emits_bind (emitExpr_targeted m call h)
      intro c hc
      apply emits_bind emits_beginBlock
      exact fun _ _ => emits_pure (by simp [Targeted, AllTargeted, hc])
  | errorHandler call error handler =>
    simp only [breaksExpr, Bool.and_eq_true] at h
    rw [emitExpr]
    apply emits_bind (emitExpr_targeted m call h.1)
    intro c hc
    apply emits_bind emits_beginBlock
    intro _ _
    apply emits_bind (emitStmts_targeted m false handler h.2)
    intro codes hcodes
    apply emits_bind emits_beginBlock
    exact fun _ _ => emits_pure (by simp [Targeted, AllTargeted, hc, hcodes])
  | errorMatch call error bodies =>
    simp only [breaksExpr, Bool.and_eq_true] at h
    rw [emitExpr]
    apply emits_bind (emitExpr_targeted m call h.1)
    intro c hc
    apply emits_bind (emitArms_targeted m bodies h.2)
    intro codes hcodes
    apply emits_bind emits_beginBlock
    exact fun _ _ => emits_pure (by simp [Targeted, AllTargeted, hc, hcodes])
  | functionExpr captures params body tail => exact emits_pure rfl
  | exit kind value =>
    rw [emitExpr]
    apply emits_bind (emitExpr_targeted m value h)
    intro c hc
    apply emits_bind (emits_emitExit (l := Inside d) m)
    exact fun exit hexit => emits_pure (by simp [Targeted, AllTargeted, hc, hexit])

theorem emitExprs_targeted {d : ℕ} (m : Bool) (es : List Expr)
    (h : breaksExprs (fun _ => 0) d es = true) :
    Emits (emitExprs m es) (fun cs => AllTargeted (Inside d) cs = true) := by
  cases es with
  | nil => exact emits_pure rfl
  | cons e es =>
    simp only [breaksExprs, Bool.and_eq_true] at h
    rw [emitExprs]
    apply emits_bind (emitExpr_targeted m e h.1)
    intro c hc
    apply emits_bind (emitExprs_targeted m es h.2)
    exact fun cs hcs => emits_pure (by simp [AllTargeted, hc, hcs])

theorem emitArms_targeted {d : ℕ} (m : Bool) (es : List Expr)
    (h : breaksExprs (fun _ => 0) d es = true) :
    Emits (emitArms m es) (fun cs => AllTargeted (Inside d) cs = true) := by
  cases es with
  | nil =>
    rw [emitArms]
    apply emits_bind emits_terminate
    exact fun _ _ => emits_pure rfl
  | cons e es =>
    simp only [breaksExprs, Bool.and_eq_true] at h
    rw [emitArms]
    apply emits_bind (emits_branches (emitExpr_targeted m e h.1) (emitArms_targeted m es h.2))
    exact fun codes hcodes => emits_pure (by simp [AllTargeted, hcodes.1, hcodes.2])

theorem emitStmt_targeted {d : ℕ} (m : Bool) (s : Stmt) (h : breaksStmt (fun _ => 0) d s = true) :
    Emits (emitStmt m s) (fun c => Targeted (Inside d) c = true) := by
  have hinside := inside_succ d
  cases s with
  | variableDecl binder initializer =>
    rw [emitStmt]
    apply emits_bind (emitExpr_targeted m initializer h)
    exact fun c hc => emits_pure (allTargeted_singleton hc)
  | expression expr => exact emitExpr_targeted m expr h
  | assignment target value =>
    simp only [breaksStmt, Bool.and_eq_true] at h
    rw [emitStmt]
    apply emits_bind (emitExpr_targeted m target h.1)
    intro c₁ hc₁
    apply emits_bind (emitExpr_targeted m value h.2)
    exact fun c₂ hc₂ => emits_pure (by simp [Targeted, AllTargeted, targeted_asLvalue hc₁, hc₂])
  | forCondition condition body =>
    simp only [breaksStmt, Bool.and_eq_true] at h
    rw [emitStmt]
    apply emits_bind (emitExpr_targeted m condition h.1)
    intro c hc
    apply emits_bind emits_beginBlock
    intro _ _
    apply emits_bind (emitStmts_targeted m true body h.2)
    intro codes hcodes
    rw [hinside] at hcodes
    apply emits_bind emits_beginBlock
    exact fun _ _ => emits_pure (by simp [Targeted, hc, hcodes])
  | forRange index start stop body =>
    simp only [breaksStmt, Bool.and_eq_true] at h
    rw [emitStmt]
    apply emits_bind (emitExpr_targeted m start h.1.1)
    intro c₁ hc₁
    apply emits_bind (emitExpr_targeted m stop h.1.2)
    intro c₂ hc₂
    apply emits_bind emits_beginBlock
    intro _ _
    apply emits_bind (emitStmts_targeted m true body h.2)
    intro codes hcodes
    rw [hinside] at hcodes
    apply emits_bind emits_beginBlock
    have hbody : AllTargeted true (codes ++ [.act (.advance index) []]) = true :=
      allTargeted_append hcodes rfl
    exact fun _ _ => emits_pure (by simp [Targeted, AllTargeted, hc₁, hc₂, hbody])
  | forIn index value iterable body =>
    simp only [breaksStmt, Bool.and_eq_true] at h
    rw [emitStmt]
    apply emits_bind (emitExpr_targeted m iterable h.1)
    intro c hc
    apply emits_bind emits_beginBlock
    intro _ _
    apply emits_bind (emitStmts_targeted m true body h.2)
    intro codes hcodes
    rw [hinside] at hcodes
    apply emits_bind emits_beginBlock
    have hbody : AllTargeted true (codes ++ [.act (.advance index) []]) = true :=
      allTargeted_append hcodes rfl
    exact fun _ _ => emits_pure (by simp [Targeted, AllTargeted, hc, hbody])
  | tryCall call success successBlock error errorBlock =>
    simp only [breaksStmt, Bool.and_eq_true] at h
    rw [emitStmt]
    apply emits_bind (emitExpr_targeted m call h.1.1)
    intro c hc
    apply emits_bind emits_beginBlock
    intro _ _
    apply emits_bind (emitStmts_targeted m true errorBlock h.2)
    intro onError hError
    apply emits_bind emits_beginBlock
    intro _ _
    apply emits_bind (emitStmts_targeted m true successBlock h.1.2)
    intro onSuccess hSuccess
    apply emits_bind emits_beginBlock
    have hok := allTargeted_append (allTargeted_binders (l := Inside d) Action.bindValue
      success.toList) hSuccess
    have herr := targeted_errorBranch error hError
    exact fun _ _ => emits_pure (by simp only [Targeted, AllTargeted, hc, herr, hok, Bool.and_self])
  | defer body =>
    rw [emitStmt]
    exact emits_emitDefer m (emitStmts_targeted (d := 0) true true body h)
  | spawn function =>
    rw [emitStmt]
    apply emits_bind (emitExpr_targeted m function h)
    exact fun c hc => emits_pure (allTargeted_singleton hc)
  | breakStmt =>
    rw [emitStmt]
    apply emits_bind emits_terminate
    exact fun _ _ => emits_pure h

theorem emitStmts_targeted {d : ℕ} (m checked : Bool) (ss : List Stmt)
    (h : breaksStmts (fun _ => 0) d ss = true) :
    Emits (emitStmts m checked ss) (fun cs => AllTargeted (Inside d) cs = true) := by
  cases ss with
  | nil => exact emits_pure rfl
  | cons s ss =>
    simp only [breaksStmts, Bool.and_eq_true] at h
    rw [emitStmts]
    apply emits_unlessTerminated (Q := fun cs => AllTargeted (Inside d) cs = true) checked rfl
    apply emits_bind (emitStmt_targeted m s h.1)
    intro c hc
    apply emits_bind (emitStmts_targeted m checked ss h.2)
    exact fun cs hcs => emits_pure (by simp [AllTargeted, hc, hcs])

end

theorem emits_fallThrough (isMain : Bool) :
    Emits (fallThrough isMain) (fun cs => AllTargeted false cs = true) := by
  intro b hb
  cases isMain with
  | true => exact ⟨by simp [fallThrough, AllTargeted, Targeted, hb], hb⟩
  | false => exact ⟨by simp [fallThrough, AllTargeted, Targeted, hb], hb⟩

/-- The code of a body and its deferred blocks. -/
theorem emitFunction_targeted (isMain : Bool) {body : List Stmt} {tail : Option Expr}
    (h : inOwnLoops body tail = true) :
    Targeted false (emitFunction isMain body tail).1 = true := by
  rw [inOwnLoops, breaksBody, Bool.and_eq_true] at h
  have hbody (checked : Bool) := emitStmts_targeted false checked body h.1
  have hrun : Emits (emitBody isMain body tail) (fun c => Targeted false c = true) := by
    cases tail with
    | none =>
      rw [emitBody]
      apply emits_bind (hbody true)
      intro codes hcodes
      apply emits_bind (emits_unlessTerminated (Q := fun cs => AllTargeted false cs = true) true rfl
        (emits_fallThrough isMain))
      exact fun last hlast => emits_pure (allTargeted_append hcodes hlast)
    | some tail =>
      rw [emitBody]
      apply emits_bind (hbody false)
      intro codes hcodes
      have htail : Emits (do
          let c ← emitExpr false tail
          let exit ← emitExit false
          pure [.act (.setResult .ret) [c], exit]) (fun cs => AllTargeted false cs = true) := by
        apply emits_bind (emitExpr_targeted false tail h.2)
        intro c hc
        apply emits_bind (emits_emitExit (l := false) false)
        have hc' : Targeted false c = true := hc
        exact fun exit hexit => emits_pure (by simp [Targeted, AllTargeted, hc', hexit])
      apply emits_bind (emits_unlessTerminated (Q := fun cs => AllTargeted false cs = true) true rfl
        htail)
      exact fun last hlast => emits_pure (allTargeted_append hcodes hlast)
  exact (hrun _ rfl).1

end Induction

section Closures

mutual

theorem closuresExpr_own {d : ℕ} (e : Expr) (h : breaksExpr (fun _ => 0) d e = true) :
    ∀ c ∈ closuresExpr e, inOwnLoops c.body c.tail = true := by
  cases e with
  | literal => exact fun c hc => absurd hc List.not_mem_nil
  | identifier occ name => exact fun c hc => absurd hc List.not_mem_nil
  | operation op operands => exact closuresExprs_own operands h
  | ifExpr condition thenBlock elseBlock =>
    simp only [breaksExpr, Bool.and_eq_true] at h
    simp only [closuresExpr, List.forall_mem_append]
    exact ⟨⟨closuresExpr_own condition h.1.1, closuresStmts_own thenBlock h.1.2⟩,
      closuresStmts_own elseBlock h.2⟩
  | blockExpr block => exact closuresStmts_own block h
  | matchExpr scrutinee bodies =>
    simp only [breaksExpr, Bool.and_eq_true] at h
    simp only [closuresExpr, List.forall_mem_append]
    exact ⟨closuresExpr_own scrutinee h.1, closuresExprs_own bodies h.2⟩
  | fallibleOp op call => exact closuresExpr_own call h
  | errorHandler call error handler =>
    simp only [breaksExpr, Bool.and_eq_true] at h
    simp only [closuresExpr, List.forall_mem_append]
    exact ⟨closuresExpr_own call h.1, closuresStmts_own handler h.2⟩
  | errorMatch call error bodies =>
    simp only [breaksExpr, Bool.and_eq_true] at h
    simp only [closuresExpr, List.forall_mem_append]
    exact ⟨closuresExpr_own call h.1, closuresExprs_own bodies h.2⟩
  | functionExpr captures params body tail =>
    have hbody : inOwnLoops body tail = true := h
    simp only [breaksExpr, Bool.and_eq_true] at h
    simp only [closuresExpr, List.forall_mem_cons, List.forall_mem_append]
    exact ⟨hbody, closuresStmts_own body h.1, closuresTail_own tail h.2⟩
  | exit kind value => exact closuresExpr_own value h

theorem closuresExprs_own {d : ℕ} (es : List Expr) (h : breaksExprs (fun _ => 0) d es = true) :
    ∀ c ∈ closuresExprs es, inOwnLoops c.body c.tail = true := by
  cases es with
  | nil => exact fun c hc => absurd hc List.not_mem_nil
  | cons e es =>
    simp only [breaksExprs, Bool.and_eq_true] at h
    simp only [closuresExprs, List.forall_mem_append]
    exact ⟨closuresExpr_own e h.1, closuresExprs_own es h.2⟩

theorem closuresTail_own {d : ℕ} (tail : Option Expr) (h : breaksTail (fun _ => 0) d tail = true) :
    ∀ c ∈ closuresTail tail, inOwnLoops c.body c.tail = true := by
  cases tail with
  | none => exact fun c hc => absurd hc List.not_mem_nil
  | some e => exact closuresExpr_own e h

theorem closuresStmt_own {d : ℕ} (s : Stmt) (h : breaksStmt (fun _ => 0) d s = true) :
    ∀ c ∈ closuresStmt s, inOwnLoops c.body c.tail = true := by
  cases s with
  | variableDecl binder initializer => exact closuresExpr_own initializer h
  | expression expr => exact closuresExpr_own expr h
  | assignment target value =>
    simp only [breaksStmt, Bool.and_eq_true] at h
    simp only [closuresStmt, List.forall_mem_append]
    exact ⟨closuresExpr_own target h.1, closuresExpr_own value h.2⟩
  | forCondition condition body =>
    simp only [breaksStmt, Bool.and_eq_true] at h
    simp only [closuresStmt, List.forall_mem_append]
    exact ⟨closuresExpr_own condition h.1, closuresStmts_own body h.2⟩
  | forRange index start stop body =>
    simp only [breaksStmt, Bool.and_eq_true] at h
    simp only [closuresStmt, List.forall_mem_append]
    exact ⟨⟨closuresExpr_own start h.1.1, closuresExpr_own stop h.1.2⟩, closuresStmts_own body h.2⟩
  | forIn index value iterable body =>
    simp only [breaksStmt, Bool.and_eq_true] at h
    simp only [closuresStmt, List.forall_mem_append]
    exact ⟨closuresExpr_own iterable h.1, closuresStmts_own body h.2⟩
  | tryCall call success successBlock error errorBlock =>
    simp only [breaksStmt, Bool.and_eq_true] at h
    simp only [closuresStmt, List.forall_mem_append]
    exact ⟨⟨closuresExpr_own call h.1.1, closuresStmts_own successBlock h.1.2⟩,
      closuresStmts_own errorBlock h.2⟩
  | defer body => exact closuresStmts_own body h
  | spawn function => exact closuresExpr_own function h
  | breakStmt => exact fun c hc => absurd hc List.not_mem_nil

theorem closuresStmts_own {d : ℕ} (ss : List Stmt) (h : breaksStmts (fun _ => 0) d ss = true) :
    ∀ c ∈ closuresStmts ss, inOwnLoops c.body c.tail = true := by
  cases ss with
  | nil => exact fun c hc => absurd hc List.not_mem_nil
  | cons s ss =>
    simp only [breaksStmts, Bool.and_eq_true] at h
    simp only [closuresStmts, List.forall_mem_append]
    exact ⟨closuresStmt_own s h.1, closuresStmts_own ss h.2⟩

end

end Closures

section Programs

/-- The functions of a program. -/
abbrev Program := List Callable

/-- What `emit_closure_function` and `emit_function` are called for. -/
def emittedBodies (p : Program) : List Callable :=
  p.flatMap (fun f => closuresStmts f.body ++ closuresTail f.tail) ++ p

/-- No `break` of the program is rejected. -/
def Accepted (p : Program) : Prop := ∀ f ∈ p, checked 0 f.body f.tail = true

/-- Every `break` lies in a loop of its own body and deferred block, and is emitted as a branch to
    the end of such a loop. -/
def BreaksPlaced (p : Program) : Prop :=
  ∀ c ∈ emittedBodies p,
    inOwnLoops c.body c.tail = true ∧ Targeted false (emitFunction c.isMain c.body c.tail).1 = true

/-- Each function expression and each deferred block that stands in a loop would be accepted by
    itself. -/
def LoopsSeparate (p : Program) : Prop :=
  ∀ f ∈ p, loopedStmts false f.body = true ∧ loopedTail false f.tail = true

theorem own_of_separate {f : Callable} (hchecked : checked 0 f.body f.tail = true)
    (hbody : loopedStmts false f.body = true) (htail : loopedTail false f.tail = true) :
    inOwnLoops f.body f.tail = true := by
  rw [checked, breaksBody, Bool.and_eq_true] at hchecked
  rw [inOwnLoops, breaksBody, Bool.and_eq_true]
  exact ⟨ownStmts_of_checked f.body hchecked.1 hbody (Or.inr rfl),
    ownTail_of_checked f.tail hchecked.2 htail (Or.inr rfl)⟩

/-- `fun main() { for c { break } }`. -/
def breakingMain : Program := [⟨true, [.forCondition .literal [.breakStmt]], none⟩]

/-- `fun main() { for c { let f = fun() { break } } }`. -/
def breakingClosure : Program :=
  [⟨true, [.forCondition .literal
    [.variableDecl ⟨0, "f"⟩ (.functionExpr [] [] [.breakStmt] none)]], none⟩]

end Programs

end NewClLang.BreakEmission
