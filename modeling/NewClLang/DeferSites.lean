import NewClLang.CodeEmission

set_option autoImplicit false

/-!
# Numbers of defer statements

In the code of a function the sites that an exit dispatches on are a first part of all those of the
function, and the block dispatched for a number is the one that was registered under it.
-/
namespace NewClLang.DeferSites
open Syntax CompiledCode CodeEmission

mutual

/-- Code whose numbers stand for the blocks of `all`. -/
def Agrees (all : List Code) : Code → Prop
  | .act _ operands => AgreesAll all operands
  | .block codes => AgreesAll all codes
  | .branch condition thenCode elseCode =>
      Agrees all condition ∧ Agrees all thenCode ∧ Agrees all elseCode
  | .arms scrutinee bodies => Agrees all scrutinee ∧ AgreesAll all bodies
  | .loop condition body => Agrees all condition ∧ Agrees all body
  | .breakLoop => True
  | .stop => True
  | .register site body => all[site]? = some body
  | .inlined body => Agrees all body
  | .drain sites => sites <+: all
  | .exit sites => sites <+: all
  | .exitDeferred => True

def AgreesAll (all : List Code) : List Code → Prop
  | [] => True
  | c :: cs => Agrees all c ∧ AgreesAll all cs

end

/-- An emission adds sites, none in a deferred block, and what it yields satisfies `Q` for the
    sites of the whole function. -/
def Numbers {α : Type} (m : Bool) (x : Emit α) (Q : List Code → α → Prop) : Prop :=
  ∀ b, ∃ new, (x b).2.sites = b.sites ++ new ∧ (m = true → new = []) ∧
    (∀ c ∈ new, ∀ all, Agrees all c) ∧ ∀ all, (x b).2.sites <+: all → Q all (x b).1

section Codes
variable {all : List Code}

theorem agreesAll_cons {c : Code} {cs : List Code} (h : Agrees all c) (hs : AgreesAll all cs) :
    AgreesAll all (c :: cs) := by
  change Agrees all c ∧ AgreesAll all cs
  exact ⟨h, hs⟩

theorem agreesAll_append {cs cs' : List Code} (h : AgreesAll all cs) (h' : AgreesAll all cs') :
    AgreesAll all (cs ++ cs') := by
  induction cs with
  | nil => exact h'
  | cons c cs ih =>
    change Agrees all c ∧ AgreesAll all cs at h
    rw [List.cons_append]
    exact agreesAll_cons h.1 (ih h.2)

theorem agreesAll_singleton {c : Code} (h : Agrees all c) : AgreesAll all [c] :=
  agreesAll_cons h trivial

theorem agrees_stop : Agrees all .stop := trivial

theorem agrees_breakLoop : Agrees all .breakLoop := trivial

theorem agrees_act (a : Action) {cs : List Code} (h : AgreesAll all cs) :
    Agrees all (.act a cs) := by
  change AgreesAll all cs
  exact h

theorem agrees_leaf (a : Action) : Agrees all (.act a []) := agrees_act a trivial

theorem agrees_block {cs : List Code} (h : AgreesAll all cs) : Agrees all (.block cs) := by
  change AgreesAll all cs
  exact h

theorem agrees_branch {c c₁ c₂ : Code} (h : Agrees all c) (h₁ : Agrees all c₁)
    (h₂ : Agrees all c₂) : Agrees all (.branch c c₁ c₂) := by
  change Agrees all c ∧ Agrees all c₁ ∧ Agrees all c₂
  exact ⟨h, h₁, h₂⟩

theorem agrees_arms {c : Code} {cs : List Code} (h : Agrees all c) (hs : AgreesAll all cs) :
    Agrees all (.arms c cs) := by
  change Agrees all c ∧ AgreesAll all cs
  exact ⟨h, hs⟩

theorem agrees_loop {c : Code} {cs : List Code} (h : Agrees all c) (hs : AgreesAll all cs) :
    Agrees all (.loop c (.block cs)) := by
  change Agrees all c ∧ Agrees all (.block cs)
  exact ⟨h, agrees_block hs⟩

theorem agrees_result (kind : Exit) {c c' : Code} (h : Agrees all c) (h' : Agrees all c') :
    Agrees all (.block [.act (.setResult kind) [c], c']) :=
  agrees_block (agreesAll_cons (agrees_act _ (agreesAll_singleton h)) (agreesAll_singleton h'))

theorem agrees_bound (a : Action) {cs : List Code} (hs : AgreesAll all cs) :
    Agrees all (.block (.act a [] :: cs)) :=
  agrees_block (agreesAll_cons (agrees_leaf a) hs)

theorem agrees_iteration {a₁ a₂ a₃ : Action} {heads cs ends : List Code} (h : AgreesAll all heads)
    (hs : AgreesAll all cs) (hends : AgreesAll all ends) :
    Agrees all
      (.block (.act a₁ heads :: .loop (.act a₂ []) (.block (cs ++ [.act a₃ []])) :: ends)) := by
  have hbody := agreesAll_append hs (agreesAll_singleton (agrees_leaf a₃))
  exact agrees_block (agreesAll_cons (agrees_act a₁ h)
    (agreesAll_cons (agrees_loop (agrees_leaf a₂) hbody) hends))

theorem agrees_asLvalue {c : Code} (h : Agrees all c) : Agrees all (asLvalue c) := by
  cases c with
  | act a operands =>
    change AgreesAll all operands at h
    exact agrees_act _ h
  | _ => exact h

theorem agrees_errorBranch (error : Option Binder) {cs : List Code} (h : AgreesAll all cs) :
    Agrees all (errorBranch error cs) := by
  cases error with
  | none => exact agrees_stop
  | some b =>
    rw [errorBranch]
    exact agrees_bound _ h

theorem agreesAll_binders (a : Binder → Action) (bs : List Binder) :
    AgreesAll all (bs.map (fun b => .act (a b) [])) := by
  induction bs with
  | nil => trivial
  | cons b bs ih => exact agreesAll_cons (agrees_leaf _) ih

end Codes

section Emissions
variable {α β : Type} {m : Bool} {Q : List Code → α → Prop} {R : List Code → β → Prop}

theorem numbers_same {x : Emit α} (hsites : ∀ b, (x b).2.sites = b.sites)
    (hQ : ∀ b all, b.sites <+: all → Q all (x b).1) : Numbers m x Q := by
  intro b
  refine ⟨[], ?_, fun _ => rfl, fun c hc => absurd hc List.not_mem_nil, ?_⟩
  · rw [List.append_nil]
    exact hsites b
  · intro all hall
    rw [hsites b] at hall
    exact hQ b all hall

theorem numbers_pure {a : α} (h : ∀ all, Q all a) : Numbers m (pure a) Q :=
  numbers_same (fun _ => rfl) (fun _ all _ => h all)

theorem numbers_beginBlock : Numbers m beginBlock (fun _ _ => True) :=
  numbers_same (fun _ => rfl) (fun _ _ _ => trivial)

theorem numbers_terminate : Numbers m terminate (fun _ _ => True) :=
  numbers_same (fun _ => rfl) (fun _ _ _ => trivial)

theorem numbers_bind {x : Emit α} {f : α → Emit β} (hx : Numbers m x Q)
    (hf : ∀ a, Numbers m (f a) (fun all c => Q all a → R all c)) : Numbers m (x >>= f) R := by
  intro b
  obtain ⟨new₁, hsites₁, hm₁, hnew₁, hQ⟩ := hx b
  obtain ⟨new₂, hsites₂, hm₂, hnew₂, hR⟩ := hf (x b).1 (x b).2
  refine ⟨new₁ ++ new₂, ?_, ?_, ?_, ?_⟩
  · rw [← List.append_assoc, ← hsites₁]
    exact hsites₂
  · intro hm
    rw [hm₁ hm, hm₂ hm]
    rfl
  · intro c hc
    exact (List.mem_append.mp hc).elim (hnew₁ c) (hnew₂ c)
  · intro all hall
    apply hR all hall
    apply hQ all
    apply List.IsPrefix.trans _ hall
    exact ⟨new₂, hsites₂.symm⟩

theorem numbers_restart {x : Emit α} (hx : Numbers m x Q) (terminated : Bool) :
    Numbers m (fun b => x { b with terminated := terminated }) Q :=
  fun b => hx { b with terminated := terminated }

theorem numbers_branches {x : Emit α} {y : Emit β} (hx : Numbers m x Q) (hy : Numbers m y R) :
    Numbers m (branches x y) (fun all c => Q all c.1 ∧ R all c.2) := by
  have hboth : Numbers m ((fun b => x { b with terminated := false }) >>= fun a =>
      (fun b => y { b with terminated := false }) >>= fun c => pure (a, c))
      (fun all c => Q all c.1 ∧ R all c.2) := by
    apply numbers_bind (numbers_restart hx false)
    intro a
    apply numbers_bind (numbers_restart hy false)
    exact fun c => numbers_pure (fun all hR hQ => ⟨hQ, hR⟩)
  exact hboth

theorem numbers_unlessTerminated {x : Emit α} {skipped : α} (checked : Bool)
    (hskipped : ∀ all, Q all skipped) (hx : Numbers m x Q) :
    Numbers m (unlessTerminated checked skipped x) Q := by
  intro b
  rw [unlessTerminated]
  split
  · exact numbers_pure hskipped b
  · exact hx b

theorem numbers_emitExit : Numbers m (emitExit m) Agrees := by
  apply numbers_same (fun _ => rfl)
  intro b all hall
  cases m with
  | false =>
    change Agrees all (.exit b.sites)
    rw [Agrees]
    exact hall
  | true =>
    change Agrees all .exitDeferred
    rw [Agrees]
    trivial

theorem numbers_emitDefer {body : Emit (List Code)} (h : Numbers true body AgreesAll) :
    Numbers m (emitDefer m body) Agrees := by
  cases m with
  | true =>
    have hinlined : Numbers true (body >>= fun codes => pure (.inlined (.block codes))) Agrees := by
      apply numbers_bind h
      intro codes
      apply numbers_pure
      intro all hcodes
      rw [Agrees]
      exact agrees_block hcodes
    exact hinlined
  | false =>
    intro b
    obtain ⟨new, hsites, hnone, _, hcodes⟩ := h { sites := [], terminated := false }
    rw [hnone rfl, List.append_nil] at hsites
    refine ⟨[_], rfl, Bool.noConfusion, ?_, ?_⟩
    · intro c hc all
      rw [List.mem_singleton.mp hc]
      apply agrees_block (hcodes all _)
      rw [hsites]
      exact List.nil_prefix
    · intro all hall
      obtain ⟨rest, heq⟩ := hall
      change all[b.sites.length]? = some _
      rw [← heq]
      change (b.sites ++ [_] ++ rest)[b.sites.length]? = some _
      rw [List.append_assoc, List.getElem?_append_right (Nat.le_refl _), Nat.sub_self]
      rfl

end Emissions

section Induction

mutual

theorem emitExpr_numbers (m : Bool) (e : Expr) : Numbers m (emitExpr m e) Agrees := by
  cases e with
  | literal =>
    rw [emitExpr]
    exact numbers_pure (fun _ => agrees_leaf _)
  | identifier occ name =>
    rw [emitExpr]
    exact numbers_pure (fun _ => agrees_leaf _)
  | operation op operands =>
    rw [emitExpr]
    apply numbers_bind (emitExprs_numbers m operands)
    exact fun codes => numbers_pure (fun _ => agrees_act _)
  | ifExpr condition thenBlock elseBlock =>
    rw [emitExpr]
    apply numbers_bind (emitExpr_numbers m condition)
    intro c
    apply numbers_bind (numbers_branches (emitStmts_numbers m false thenBlock)
      (emitStmts_numbers m false elseBlock))
    exact fun codes => numbers_pure
      (fun _ hcodes hc => agrees_branch hc (agrees_block hcodes.1) (agrees_block hcodes.2))
  | blockExpr block =>
    rw [emitExpr]
    apply numbers_bind (emitStmts_numbers m false block)
    exact fun codes => numbers_pure (fun _ => agrees_block)
  | matchExpr scrutinee bodies =>
    rw [emitExpr]
    apply numbers_bind (emitExpr_numbers m scrutinee)
    intro c
    apply numbers_bind (emitArms_numbers m bodies)
    exact fun codes => numbers_pure (fun _ hcodes hc => agrees_arms hc hcodes)
  | fallibleOp op call =>
    cases op with
    | propagate =>
      rw [emitExpr]
      apply numbers_bind (emitExpr_numbers m call)
      intro c
      apply numbers_bind numbers_emitExit
      intro exit
      apply numbers_bind numbers_beginBlock
      exact fun _ => numbers_pure (fun _ _ hexit hc =>
        agrees_branch (agrees_act _ (agreesAll_singleton hc)) hexit (agrees_leaf _))
    | unwrap =>
      rw [emitExpr]
      apply numbers_bind (emitExpr_numbers m call)
      intro c
      apply numbers_bind numbers_beginBlock
      exact fun _ => numbers_pure (fun _ _ hc =>
        agrees_branch (agrees_act _ (agreesAll_singleton hc)) agrees_stop (agrees_leaf _))
  | errorHandler call error handler =>
    rw [emitExpr]
    apply numbers_bind (emitExpr_numbers m call)
    intro c
    apply numbers_bind numbers_beginBlock
    intro _
    apply numbers_bind (emitStmts_numbers m false handler)
    intro codes
    apply numbers_bind numbers_beginBlock
    exact fun _ => numbers_pure (fun _ _ hcodes _ hc =>
      agrees_branch (agrees_act _ (agreesAll_singleton hc)) (agrees_bound _ hcodes) (agrees_leaf _))
  | errorMatch call error bodies =>
    rw [emitExpr]
    apply numbers_bind (emitExpr_numbers m call)
    intro c
    apply numbers_bind (emitArms_numbers m bodies)
    intro codes
    apply numbers_bind numbers_beginBlock
    exact fun _ => numbers_pure (fun _ _ hcodes hc =>
      agrees_branch (agrees_act _ (agreesAll_singleton hc)) (agrees_arms (agrees_leaf _) hcodes)
        (agrees_leaf _))
  | functionExpr captures params body tail =>
    rw [emitExpr]
    exact numbers_pure (fun _ => agrees_leaf _)
  | exit kind value =>
    rw [emitExpr]
    apply numbers_bind (emitExpr_numbers m value)
    intro c
    apply numbers_bind numbers_emitExit
    exact fun exit => numbers_pure (fun _ hexit hc => agrees_result kind hc hexit)

theorem emitExprs_numbers (m : Bool) (es : List Expr) :
    Numbers m (emitExprs m es) AgreesAll := by
  cases es with
  | nil =>
    rw [emitExprs]
    exact numbers_pure (fun _ => trivial)
  | cons e es =>
    rw [emitExprs]
    apply numbers_bind (emitExpr_numbers m e)
    intro c
    apply numbers_bind (emitExprs_numbers m es)
    exact fun codes => numbers_pure (fun _ hcodes hc => agreesAll_cons hc hcodes)

theorem emitArms_numbers (m : Bool) (es : List Expr) : Numbers m (emitArms m es) AgreesAll := by
  cases es with
  | nil =>
    rw [emitArms]
    apply numbers_bind numbers_terminate
    exact fun _ => numbers_pure (fun _ _ => trivial)
  | cons e es =>
    rw [emitArms]
    apply numbers_bind (numbers_branches (emitExpr_numbers m e) (emitArms_numbers m es))
    exact fun codes => numbers_pure (fun _ hcodes => agreesAll_cons hcodes.1 hcodes.2)

theorem emitStmt_numbers (m : Bool) (s : Stmt) : Numbers m (emitStmt m s) Agrees := by
  cases s with
  | variableDecl b initializer =>
    rw [emitStmt]
    apply numbers_bind (emitExpr_numbers m initializer)
    exact fun c => numbers_pure (fun _ hc => agrees_act _ (agreesAll_singleton hc))
  | expression e =>
    rw [emitStmt]
    exact emitExpr_numbers m e
  | assignment target value =>
    rw [emitStmt]
    apply numbers_bind (emitExpr_numbers m target)
    intro c₁
    apply numbers_bind (emitExpr_numbers m value)
    exact fun c₂ => numbers_pure (fun _ h₂ h₁ =>
      agrees_act _ (agreesAll_cons (agrees_asLvalue h₁) (agreesAll_singleton h₂)))
  | forCondition condition body =>
    rw [emitStmt]
    apply numbers_bind (emitExpr_numbers m condition)
    intro c
    apply numbers_bind numbers_beginBlock
    intro _
    apply numbers_bind (emitStmts_numbers m true body)
    intro codes
    apply numbers_bind numbers_beginBlock
    exact fun _ => numbers_pure (fun _ _ hcodes _ hc => agrees_loop hc hcodes)
  | forRange index start stop body =>
    rw [emitStmt]
    apply numbers_bind (emitExpr_numbers m start)
    intro c₁
    apply numbers_bind (emitExpr_numbers m stop)
    intro c₂
    apply numbers_bind numbers_beginBlock
    intro _
    apply numbers_bind (emitStmts_numbers m true body)
    intro codes
    apply numbers_bind numbers_beginBlock
    exact fun _ => numbers_pure (fun _ _ hcodes _ h₂ h₁ =>
      agrees_iteration (agreesAll_cons h₁ (agreesAll_singleton h₂)) hcodes trivial)
  | forIn index value iterable body =>
    rw [emitStmt]
    apply numbers_bind (emitExpr_numbers m iterable)
    intro c
    apply numbers_bind numbers_beginBlock
    intro _
    apply numbers_bind (emitStmts_numbers m true body)
    intro codes
    apply numbers_bind numbers_beginBlock
    exact fun _ => numbers_pure (fun _ _ hcodes _ hc =>
      agrees_iteration (agreesAll_singleton hc) hcodes (agreesAll_singleton (agrees_leaf _)))
  | tryCall call success successBlock error errorBlock =>
    rw [emitStmt]
    apply numbers_bind (emitExpr_numbers m call)
    intro c
    apply numbers_bind numbers_beginBlock
    intro _
    apply numbers_bind (emitStmts_numbers m true errorBlock)
    intro onError
    apply numbers_bind numbers_beginBlock
    intro _
    apply numbers_bind (emitStmts_numbers m true successBlock)
    intro onSuccess
    apply numbers_bind numbers_beginBlock
    exact fun _ => numbers_pure (fun _ _ hsuccess _ herror _ hc =>
      agrees_branch (agrees_act _ (agreesAll_singleton hc)) (agrees_errorBranch error herror)
        (agrees_block (agreesAll_append (agreesAll_binders _ _) hsuccess)))
  | defer body =>
    rw [emitStmt]
    exact numbers_emitDefer (emitStmts_numbers true true body)
  | spawn function =>
    rw [emitStmt]
    apply numbers_bind (emitExpr_numbers m function)
    exact fun c => numbers_pure (fun _ hc => agrees_act _ (agreesAll_singleton hc))
  | breakStmt =>
    rw [emitStmt]
    apply numbers_bind numbers_terminate
    exact fun _ => numbers_pure (fun _ _ => agrees_breakLoop)

theorem emitStmts_numbers (m checked : Bool) (ss : List Stmt) :
    Numbers m (emitStmts m checked ss) AgreesAll := by
  cases ss with
  | nil =>
    rw [emitStmts]
    exact numbers_pure (fun _ => trivial)
  | cons s ss =>
    rw [emitStmts]
    apply numbers_unlessTerminated checked (fun _ => trivial)
    apply numbers_bind (emitStmt_numbers m s)
    intro c
    apply numbers_bind (emitStmts_numbers m checked ss)
    exact fun codes => numbers_pure (fun _ hcodes hc => agreesAll_cons hc hcodes)

end

end Induction

section Functions

theorem numbers_fallThrough (isMain : Bool) : Numbers false (fallThrough isMain) AgreesAll := by
  apply numbers_same (fun _ => rfl)
  intro b all hall
  have hexit : Agrees all (.exit b.sites) := by
    rw [Agrees]
    exact hall
  cases isMain with
  | true => exact agreesAll_singleton hexit
  | false =>
    have hdrain : Agrees all (.drain b.sites) := by
      rw [Agrees]
      exact hall
    exact agreesAll_cons hdrain (agreesAll_singleton hexit)

theorem emitBody_numbers (isMain : Bool) (body : List Stmt) (tail : Option Expr) :
    Numbers false (emitBody isMain body tail) Agrees := by
  cases tail with
  | none =>
    rw [emitBody]
    apply numbers_bind (emitStmts_numbers false true body)
    intro codes
    apply numbers_bind (numbers_unlessTerminated true (fun _ => trivial)
      (numbers_fallThrough isMain))
    exact fun last => numbers_pure (fun _ hlast hcodes =>
      agrees_block (agreesAll_append hcodes hlast))
  | some tail =>
    have htail : Numbers false (do
        let c ← emitExpr false tail
        let exit ← emitExit false
        pure [.act (.setResult .ret) [c], exit]) AgreesAll := by
      apply numbers_bind (emitExpr_numbers false tail)
      intro c
      apply numbers_bind numbers_emitExit
      exact fun exit => numbers_pure (fun _ hexit hc =>
        agreesAll_cons (agrees_act _ (agreesAll_singleton hc)) (agreesAll_singleton hexit))
    rw [emitBody]
    apply numbers_bind (emitStmts_numbers false false body)
    intro codes
    apply numbers_bind (numbers_unlessTerminated true (fun _ => trivial) htail)
    exact fun last => numbers_pure (fun _ hlast hcodes =>
      agrees_block (agreesAll_append hcodes hlast))

/-- The sites of a function, and the numbers in its code and in the blocks themselves. -/
theorem emitFunction_agrees (isMain : Bool) (body : List Stmt) (tail : Option Expr) :
    Agrees (emitFunction isMain body tail).2.sites (emitFunction isMain body tail).1 ∧
      ∀ c ∈ (emitFunction isMain body tail).2.sites, ∀ all, Agrees all c := by
  obtain ⟨new, hsites, _, hnew, hcode⟩ :=
    emitBody_numbers isMain body tail { sites := [], terminated := false }
  constructor
  · exact hcode _ (List.prefix_refl _)
  · intro c hc
    apply hnew c
    rw [emitFunction, hsites] at hc
    exact hc

end Functions

end NewClLang.DeferSites
