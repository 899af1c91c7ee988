import NewClLang.CodeEmission

set_option autoImplicit false

/-!
# Targets of break statements

The type checker counts the loops around a `break`, also those of the functions and of the code
outside of a deferred block that it stands in. The code generator emits the bodies of function
expressions on their own and deferred blocks at the exits, and takes the loop on top of
`break_stack`.
-/
namespace NewClLang.BreakTargets
open Syntax CompiledCode CodeEmission

section Definitions

mutual

/-- Every `break` is inside of a loop, `depth` loops being around. A function expression or a
    deferred block starts with the depth that `enter` makes of the one around it. -/
def breaksExpr (enter : ℕ → ℕ) (depth : ℕ) : Expr → Bool
  | .literal => true
  | .identifier _ _ => true
  | .operation _ operands => breaksExprs enter depth operands
  | .ifExpr condition thenBlock elseBlock =>
    breaksExpr enter depth condition && breaksStmts enter depth thenBlock &&
      breaksStmts enter depth elseBlock
  | .blockExpr block => breaksStmts enter depth block
  | .matchExpr scrutinee bodies =>
    breaksExpr enter depth scrutinee && breaksExprs enter depth bodies
  | .fallibleOp _ call => breaksExpr enter depth call
  | .errorHandler call _ handler => breaksExpr enter depth call && breaksStmts enter depth handler
  | .errorMatch call _ bodies => breaksExpr enter depth call && breaksExprs enter depth bodies
  | .functionExpr _ _ body tail =>
    breaksStmts enter (enter depth) body && breaksTail enter (enter depth) tail
  | .exit _ value => breaksExpr enter depth value

def breaksExprs (enter : ℕ → ℕ) (depth : ℕ) : List Expr → Bool
  | [] => true
  | e :: es => breaksExpr enter depth e && breaksExprs enter depth es

def breaksTail (enter : ℕ → ℕ) (depth : ℕ) : Option Expr → Bool
  | none => true
  | some e => breaksExpr enter depth e

def breaksStmt (enter : ℕ → ℕ) (depth : ℕ) : Stmt → Bool
  | .variableDecl _ initializer => breaksExpr enter depth initializer
  | .expression expr => breaksExpr enter depth expr
  | .assignment target value => breaksExpr enter depth target && breaksExpr enter depth value
  | .forCondition condition body =>
    breaksExpr enter depth condition && breaksStmts enter (depth + 1) body
  | .forRange _ start stop body =>
    breaksExpr enter depth start && breaksExpr enter depth stop &&
      breaksStmts enter (depth + 1) body
  | .forIn _ _ iterable body =>
    breaksExpr enter depth iterable && breaksStmts enter (depth + 1) body
  | .tryCall call _ successBlock _ errorBlock =>
    breaksExpr enter depth call && breaksStmts enter depth successBlock &&
      breaksStmts enter depth errorBlock
  | .defer body => breaksStmts enter (enter depth) body
  | .spawn function => breaksExpr enter depth function
  | .breakStmt => decide (0 < depth)

def breaksStmts (enter : ℕ → ℕ) (depth : ℕ) : List Stmt → Bool
  | [] => true
  | s :: ss => breaksStmt enter depth s && breaksStmts enter depth ss

end

/-- A function, or a function expression. -/
structure Callable where
  isMain : Bool
  body : List Stmt
  tail : Option Expr

def breaksBody (enter : ℕ → ℕ) (depth : ℕ) (body : List Stmt) (tail : Option Expr) : Bool :=
  breaksStmts enter depth body && breaksTail enter depth tail

/-- `break_depth` of the type checker is not reset. -/
def checked (depth : ℕ) (body : List Stmt) (tail : Option Expr) : Bool :=
  breaksBody id depth body tail

/-- The loop of a `break` is one of its own body and deferred block. -/
def inOwnLoops (body : List Stmt) (tail : Option Expr) : Bool := breaksBody (fun _ => 0) 0 body tail

mutual

/-- The bodies of the function expressions. -/
def closuresExpr : Expr → List Callable
  | .literal => []
  | .identifier _ _ => []
  | .operation _ operands => closuresExprs operands
  | .ifExpr condition thenBlock elseBlock =>
    closuresExpr condition ++ closuresStmts thenBlock ++ closuresStmts elseBlock
  | .blockExpr block => closuresStmts block
  | .matchExpr scrutinee bodies => closuresExpr scrutinee ++ closuresExprs bodies
  | .fallibleOp _ call => closuresExpr call
  | .errorHandler call _ handler => closuresExpr call ++ closuresStmts handler
  | .errorMatch call _ bodies => closuresExpr call ++ closuresExprs bodies
  | .functionExpr _ _ body tail => ⟨false, body, tail⟩ :: (closuresStmts body ++ closuresTail tail)
  | .exit _ value => closuresExpr value

def closuresExprs : List Expr → List Callable
  | [] => []
  | e :: es => closuresExpr e ++ closuresExprs es

def closuresTail : Option Expr → List Callable
  | none => []
  | some e => closuresExpr e

def closuresStmt : Stmt → List Callable
  | .variableDecl _ initializer => closuresExpr initializer
  | .expression expr => closuresExpr expr
  | .assignment target value => closuresExpr target ++ closuresExpr value
  | .forCondition condition body => closuresExpr condition ++ closuresStmts body
  | .forRange _ start stop body => closuresExpr start ++ closuresExpr stop ++ closuresStmts body
  | .forIn _ _ iterable body => closuresExpr iterable ++ closuresStmts body
  | .tryCall call _ successBlock _ errorBlock =>
    closuresExpr call ++ closuresStmts successBlock ++ closuresStmts errorBlock
  | .defer body => closuresStmts body
  | .spawn function => closuresExpr function
  | .breakStmt => []

def closuresStmts : List Stmt → List Callable
  | [] => []
  | s :: ss => closuresStmt s ++ closuresStmts ss

end

mutual

/-- Each function expression and deferred block that stands in a loop passes the check by itself. -/
def loopedExpr (looped : Bool) : Expr → Bool
  | .literal => true
  | .identifier _ _ => true
  | .operation _ operands => loopedExprs looped operands
  | .ifExpr condition thenBlock elseBlock =>
    loopedExpr looped condition && loopedStmts looped thenBlock && loopedStmts looped elseBlock
  | .blockExpr block => loopedStmts looped block
  | .matchExpr scrutinee bodies => loopedExpr looped scrutinee && loopedExprs looped bodies
  | .fallibleOp _ call => loopedExpr looped call
  | .errorHandler call _ handler => loopedExpr looped call && loopedStmts looped handler
  | .errorMatch call _ bodies => loopedExpr looped call && loopedExprs looped bodies
  | .functionExpr _ _ body tail =>
    (!looped || checked 0 body tail) && loopedStmts looped body && loopedTail looped tail
  | .exit _ value => loopedExpr looped value

def loopedExprs (looped : Bool) : List Expr → Bool
  | [] => true
  | e :: es => loopedExpr looped e && loopedExprs looped es

def loopedTail (looped : Bool) : Option Expr → Bool
  | none => true
  | some e => loopedExpr looped e

def loopedStmt (looped : Bool) : Stmt → Bool
  | .variableDecl _ initializer => loopedExpr looped initializer
  | .expression expr => loopedExpr looped expr
  | .assignment target value => loopedExpr looped target && loopedExpr looped value
  | .forCondition condition body => loopedExpr looped condition && loopedStmts true body
  | .forRange _ start stop body =>
    loopedExpr looped start && loopedExpr looped stop && loopedStmts true body
  | .forIn _ _ iterable body => loopedExpr looped iterable && loopedStmts true body
  | .tryCall call _ successBlock _ errorBlock =>
    loopedExpr looped call && loopedStmts looped successBlock && loopedStmts looped errorBlock
  | .defer body => (!looped || checked 0 body none) && loopedStmts looped body
  | .spawn function => loopedExpr looped function
  | .breakStmt => true

def loopedStmts (looped : Bool) : List Stmt → Bool
  | [] => true
  | s :: ss => loopedStmt looped s && loopedStmts looped ss

end

mutual

/-- Each `break` of emitted code, in deferred blocks too, finds a loop on `break_stack` that its own
    body or deferred block has put there. -/
def Targeted (inLoop : Bool) : Code → Bool
  | .act _ operands => AllTargeted inLoop operands
  | .block codes => AllTargeted inLoop codes
  | .branch condition thenCode elseCode =>
    Targeted inLoop condition && Targeted inLoop thenCode && Targeted inLoop elseCode
  | .arms scrutinee bodies => Targeted inLoop scrutinee && AllTargeted inLoop bodies
  | .loop condition body => Targeted inLoop condition && Targeted true body
  | .breakLoop => inLoop
  | .stop => true
  | .register _ body => Targeted false body
  | .inlined body => Targeted false body
  | .drain sites => AllTargeted false sites
  | .exit sites => AllTargeted false sites
  | .exitDeferred => true

def AllTargeted (inLoop : Bool) : List Code → Bool
  | [] => true
  | c :: cs => Targeted inLoop c && AllTargeted inLoop cs

end

end Definitions

section Checking
variable {enter enter' : ℕ → ℕ}

mutual

/-- More loops around do not make the check fail. -/
theorem breaksExpr_mono {d d' : ℕ} (henter : ∀ a b, a ≤ b → enter a ≤ enter' b) (hd : d ≤ d')
    (e : Expr)
    (h : breaksExpr enter d e = true) : breaksExpr enter' d' e = true := by
  cases e with
  | literal => rfl
  | identifier occ name => rfl
  | operation op operands => exact breaksExprs_mono henter hd operands h
  | ifExpr condition thenBlock elseBlock =>
    simp only [breaksExpr, Bool.and_eq_true] at h ⊢
    exact ⟨⟨breaksExpr_mono henter hd condition h.1.1, breaksStmts_mono henter hd thenBlock h.1.2⟩,
      breaksStmts_mono henter hd elseBlock h.2⟩
  | blockExpr block => exact breaksStmts_mono henter hd block h
  | matchExpr scrutinee bodies =>
    simp only [breaksExpr, Bool.and_eq_true] at h ⊢
    exact ⟨breaksExpr_mono henter hd scrutinee h.1, breaksExprs_mono henter hd bodies h.2⟩
  | fallibleOp op call => exact breaksExpr_mono henter hd call h
  | errorHandler call error handler =>
    simp only [breaksExpr, Bool.and_eq_true] at h ⊢
    exact ⟨breaksExpr_mono henter hd call h.1, breaksStmts_mono henter hd handler h.2⟩
  | errorMatch call error bodies =>
    simp only [breaksExpr, Bool.and_eq_true] at h ⊢
    exact ⟨breaksExpr_mono henter hd call h.1, breaksExprs_mono henter hd bodies h.2⟩
  | functionExpr captures params body tail =>
    simp only [breaksExpr, Bool.and_eq_true] at h ⊢
    have hinner := henter d d' hd
    exact ⟨breaksStmts_mono henter hinner body h.1, breaksTail_mono henter hinner tail h.2⟩
  | exit kind value => exact breaksExpr_mono henter hd value h

theorem breaksExprs_mono {d d' : ℕ} (henter : ∀ a b, a ≤ b → enter a ≤ enter' b) (hd : d ≤ d')
    (es : List Expr) (h : breaksExprs enter d es = true) : breaksExprs enter' d' es = true := by
  cases es with
  | nil => rfl
  | cons e es =>
    simp only [breaksExprs, Bool.and_eq_true] at h ⊢
    exact ⟨breaksExpr_mono henter hd e h.1, breaksExprs_mono henter hd es h.2⟩

theorem breaksTail_mono {d d' : ℕ} (henter : ∀ a b, a ≤ b → enter a ≤ enter' b) (hd : d ≤ d')
    (tail : Option Expr) (h : breaksTail enter d tail = true) :
    breaksTail enter' d' tail = true := by
  cases tail with
  | none => rfl
  | some e => exact breaksExpr_mono henter hd e h

theorem breaksStmt_mono {d d' : ℕ} (henter : ∀ a b, a ≤ b → enter a ≤ enter' b) (hd : d ≤ d')
    (s : Stmt)
    (h : breaksStmt enter d s = true) : breaksStmt enter' d' s = true := by
  have hbody := Nat.succ_le_succ hd
  cases s with
  | variableDecl binder initializer => exact breaksExpr_mono henter hd initializer h
  | expression expr => exact breaksExpr_mono henter hd expr h
  | assignment target value =>
    simp only [breaksStmt, Bool.and_eq_true] at h ⊢
    exact ⟨breaksExpr_mono henter hd target h.1, breaksExpr_mono henter hd value h.2⟩
  | forCondition condition body =>
    simp only [breaksStmt, Bool.and_eq_true] at h ⊢
    exact ⟨breaksExpr_mono henter hd condition h.1, breaksStmts_mono henter hbody body h.2⟩
  | forRange index start stop body =>
    simp only [breaksStmt, Bool.and_eq_true] at h ⊢
    exact ⟨⟨breaksExpr_mono henter hd start h.1.1, breaksExpr_mono henter hd stop h.1.2⟩,
      breaksStmts_mono henter hbody body h.2⟩
  | forIn index value iterable body =>
    simp only [breaksStmt, Bool.and_eq_true] at h ⊢
    exact ⟨breaksExpr_mono henter hd iterable h.1, breaksStmts_mono henter hbody body h.2⟩
  | tryCall call success successBlock error errorBlock =>
    simp only [breaksStmt, Bool.and_eq_true] at h ⊢
    exact ⟨⟨breaksExpr_mono henter hd call h.1.1, breaksStmts_mono henter hd successBlock h.1.2⟩,
      breaksStmts_mono henter hd errorBlock h.2⟩
  | defer body => exact breaksStmts_mono henter (henter d d' hd) body h
  | spawn function => exact breaksExpr_mono henter hd function h
  | breakStmt =>
    simp only [breaksStmt, decide_eq_true_eq] at h ⊢
    omega

theorem breaksStmts_mono {d d' : ℕ} (henter : ∀ a b, a ≤ b → enter a ≤ enter' b) (hd : d ≤ d')
    (ss : List Stmt) (h : breaksStmts enter d ss = true) : breaksStmts enter' d' ss = true := by
  cases ss with
  | nil => rfl
  | cons s ss =>
    simp only [breaksStmts, Bool.and_eq_true] at h ⊢
    exact ⟨breaksStmt_mono henter hd s h.1, breaksStmts_mono henter hd ss h.2⟩

end

theorem breaksBody_mono {d d' : ℕ} (henter : ∀ a b, a ≤ b → enter a ≤ enter' b) (hd : d ≤ d')
    {body : List Stmt} {tail : Option Expr} (h : breaksBody enter d body tail = true) :
    breaksBody enter' d' body tail = true := by
  rw [breaksBody, Bool.and_eq_true] at h ⊢
  exact ⟨breaksStmts_mono henter hd body h.1, breaksTail_mono henter hd tail h.2⟩

/-- The walk of a body that a call in a loop starts rejects no more than that at the top level. -/
theorem checked_mono {body : List Stmt} {tail : Option Expr} (h : checked 0 body tail = true)
    (depth : ℕ) : checked depth body tail = true :=
  breaksBody_mono (fun _ _ hle => hle) (Nat.zero_le depth) h

theorem checked_of_own {body : List Stmt} {tail : Option Expr}
    (h : breaksBody (fun _ => 0) 0 body tail = true) : checked 0 body tail = true :=
  breaksBody_mono (fun _ _ _ => Nat.zero_le _) (Nat.le_refl 0) h

end Checking

section Bodies

mutual

theorem ownExpr_of_checked {d : ℕ} {looped : Bool} (e : Expr) (h : breaksExpr id d e = true)
    (hlooped : loopedExpr looped e = true) (hd : looped = true ∨ d = 0) :
    breaksExpr (fun _ => 0) d e = true := by
  cases e with
  | literal => rfl
  | identifier occ name => rfl
  | operation op operands => exact ownExprs_of_checked operands h hlooped hd
  | ifExpr condition thenBlock elseBlock =>
    simp only [breaksExpr, loopedExpr, Bool.and_eq_true] at h hlooped ⊢
    exact ⟨⟨ownExpr_of_checked condition h.1.1 hlooped.1.1 hd,
      ownStmts_of_checked thenBlock h.1.2 hlooped.1.2 hd⟩,
      ownStmts_of_checked elseBlock h.2 hlooped.2 hd⟩
  | blockExpr block => exact ownStmts_of_checked block h hlooped hd
  | matchExpr scrutinee bodies =>
    simp only [breaksExpr, loopedExpr, Bool.and_eq_true] at h hlooped ⊢
    exact ⟨ownExpr_of_checked scrutinee h.1 hlooped.1 hd,
      ownExprs_of_checked bodies h.2 hlooped.2 hd⟩
  | fallibleOp op call => exact ownExpr_of_checked call h hlooped hd
  | errorHandler call error handler =>
    simp only [breaksExpr, loopedExpr, Bool.and_eq_true] at h hlooped ⊢
    exact ⟨ownExpr_of_checked call h.1 hlooped.1 hd, ownStmts_of_checked handler h.2 hlooped.2 hd⟩
  | errorMatch call error bodies =>
    simp only [breaksExpr, loopedExpr, Bool.and_eq_true] at h hlooped ⊢
    exact ⟨ownExpr_of_checked call h.1 hlooped.1 hd, ownExprs_of_checked bodies h.2 hlooped.2 hd⟩
  | functionExpr captures params body tail =>
    have hzero : breaksBody id 0 body tail = true := by
      rcases hd with rfl | rfl
      · simp only [loopedExpr, Bool.and_eq_true, Bool.not_true, Bool.false_or] at hlooped
        exact hlooped.1.1
      · exact h
    simp only [loopedExpr, breaksBody, Bool.and_eq_true] at hlooped hzero
    rw [breaksExpr, Bool.and_eq_true]
    exact ⟨ownStmts_of_checked body hzero.1 hlooped.1.2 (Or.inr rfl),
      ownTail_of_checked tail hzero.2 hlooped.2 (Or.inr rfl)⟩
  | exit kind value => exact ownExpr_of_checked value h hlooped hd

theorem ownExprs_of_checked {d : ℕ} {looped : Bool} (es : List Expr)
    (h : breaksExprs id d es = true)
    (hlooped : loopedExprs looped es = true) (hd : looped = true ∨ d = 0) :
    breaksExprs (fun _ => 0) d es = true := by
  cases es with
  | nil => rfl
  | cons e es =>
    simp only [breaksExprs, loopedExprs, Bool.and_eq_true] at h hlooped ⊢
    exact ⟨ownExpr_of_checked e h.1 hlooped.1 hd, ownExprs_of_checked es h.2 hlooped.2 hd⟩

theorem ownTail_of_checked {d : ℕ} {looped : Bool} (tail : Option Expr)
    (h : breaksTail id d tail = true)
    (hlooped : loopedTail looped tail = true) (hd : looped = true ∨ d = 0) :
    breaksTail (fun _ => 0) d tail = true := by
  cases tail with
  | none => rfl
  | some e => exact ownExpr_of_checked e h hlooped hd

/-- What the checker has let pass breaks its own loops, if the bodies inside of loops pass by
    themselves. -/
theorem ownStmt_of_checked {d : ℕ} {looped : Bool} (s : Stmt) (h : breaksStmt id d s = true)
    (hlooped : loopedStmt looped s = true) (hd : looped = true ∨ d = 0) :
    breaksStmt (fun _ => 0) d s = true := by
  cases s with
  | variableDecl binder initializer => exact ownExpr_of_checked initializer h hlooped hd
  | expression expr => exact ownExpr_of_checked expr h hlooped hd
  | assignment target value =>
    simp only [breaksStmt, loopedStmt, Bool.and_eq_true] at h hlooped ⊢
    exact ⟨ownExpr_of_checked target h.1 hlooped.1 hd, ownExpr_of_checked value h.2 hlooped.2 hd⟩
  | forCondition condition body =>
    simp only [breaksStmt, loopedStmt, Bool.and_eq_true] at h hlooped ⊢
    exact ⟨ownExpr_of_checked condition h.1 hlooped.1 hd,
      ownStmts_of_checked body h.2 hlooped.2 (Or.inl rfl)⟩
  | forRange index start stop body =>
    simp only [breaksStmt, loopedStmt, Bool.and_eq_true] at h hlooped ⊢
    exact ⟨⟨ownExpr_of_checked start h.1.1 hlooped.1.1 hd,
      ownExpr_of_checked stop h.1.2 hlooped.1.2 hd⟩,
      ownStmts_of_checked body h.2 hlooped.2 (Or.inl rfl)⟩
  | forIn index value iterable body =>
    simp only [breaksStmt, loopedStmt, Bool.and_eq_true] at h hlooped ⊢
    exact ⟨ownExpr_of_checked iterable h.1 hlooped.1 hd,
      ownStmts_of_checked body h.2 hlooped.2 (Or.inl rfl)⟩
  | tryCall call success successBlock error errorBlock =>
    simp only [breaksStmt, loopedStmt, Bool.and_eq_true] at h hlooped ⊢
    exact ⟨⟨ownExpr_of_checked call h.1.1 hlooped.1.1 hd,
      ownStmts_of_checked successBlock h.1.2 hlooped.1.2 hd⟩,
      ownStmts_of_checked errorBlock h.2 hlooped.2 hd⟩
  | defer body =>
    have hzero : breaksStmts id 0 body = true := by
      rcases hd with rfl | rfl
      · simp only [loopedStmt, checked, breaksBody, breaksTail, Bool.and_eq_true, Bool.not_true,
          Bool.false_or] at hlooped
        exact hlooped.1.1
      · exact h
    rw [loopedStmt, Bool.and_eq_true] at hlooped
    exact ownStmts_of_checked body hzero hlooped.2 (Or.inr rfl)
  | spawn function => exact ownExpr_of_checked function h hlooped hd
  | breakStmt => exact h

theorem ownStmts_of_checked {d : ℕ} {looped : Bool} (ss : List Stmt)
    (h : breaksStmts id d ss = true)
    (hlooped : loopedStmts looped ss = true) (hd : looped = true ∨ d = 0) :
    breaksStmts (fun _ => 0) d ss = true := by
  cases ss with
  | nil => rfl
  | cons s ss =>
    simp only [breaksStmts, loopedStmts, Bool.and_eq_true] at h hlooped ⊢
    exact ⟨ownStmt_of_checked s h.1 hlooped.1 hd, ownStmts_of_checked ss h.2 hlooped.2 hd⟩

end

mutual

theorem loopedExpr_of_own {d : ℕ} {looped : Bool} (e : Expr) (h : breaksExpr
    (fun _ => 0) d e = true) :
    loopedExpr looped e = true := by
  cases e with
  | literal => rfl
  | identifier occ name => rfl
  | operation op operands => exact loopedExprs_of_own operands h
  | ifExpr condition thenBlock elseBlock =>
    simp only [breaksExpr, loopedExpr, Bool.and_eq_true] at h ⊢
    exact ⟨⟨loopedExpr_of_own condition h.1.1, loopedStmts_of_own thenBlock h.1.2⟩,
      loopedStmts_of_own elseBlock h.2⟩
  | blockExpr block => exact loopedStmts_of_own block h
  | matchExpr scrutinee bodies =>
    simp only [breaksExpr, loopedExpr, Bool.and_eq_true] at h ⊢
    exact ⟨loopedExpr_of_own scrutinee h.1, loopedExprs_of_own bodies h.2⟩
  | fallibleOp op call => exact loopedExpr_of_own call h
  | errorHandler call error handler =>
    simp only [breaksExpr, loopedExpr, Bool.and_eq_true] at h ⊢
    exact ⟨loopedExpr_of_own call h.1, loopedStmts_of_own handler h.2⟩
  | errorMatch call error bodies =>
    simp only [breaksExpr, loopedExpr, Bool.and_eq_true] at h ⊢
    exact ⟨loopedExpr_of_own call h.1, loopedExprs_of_own bodies h.2⟩
  | functionExpr captures params body tail =>
    have hchecked : checked 0 body tail = true := checked_of_own h
    simp only [breaksExpr, loopedExpr, Bool.and_eq_true] at h ⊢
    exact ⟨⟨by rw [hchecked, Bool.or_true], loopedStmts_of_own body h.1⟩,
      loopedTail_of_own tail h.2⟩
  | exit kind value => exact loopedExpr_of_own value h

theorem loopedExprs_of_own {d : ℕ} {looped : Bool} (es : List Expr) (h : breaksExprs
    (fun _ => 0) d es = true) :
    loopedExprs looped es = true := by
  cases es with
  | nil => rfl
  | cons e es =>
    simp only [breaksExprs, loopedExprs, Bool.and_eq_true] at h ⊢
    exact ⟨loopedExpr_of_own e h.1, loopedExprs_of_own es h.2⟩

theorem loopedTail_of_own {d : ℕ} {looped : Bool} (tail : Option Expr) (h : breaksTail
    (fun _ => 0) d tail = true) :
    loopedTail looped tail = true := by
  cases tail with
  | none => rfl
  | some e => exact loopedExpr_of_own e h

theorem loopedStmt_of_own {d : ℕ} {looped : Bool} (s : Stmt) (h : breaksStmt
    (fun _ => 0) d s = true) :
    loopedStmt looped s = true := by
  cases s with
  | variableDecl binder initializer => exact loopedExpr_of_own initializer h
  | expression expr => exact loopedExpr_of_own expr h
  | assignment target value =>
    simp only [breaksStmt, loopedStmt, Bool.and_eq_true] at h ⊢
    exact ⟨loopedExpr_of_own target h.1, loopedExpr_of_own value h.2⟩
  | forCondition condition body =>
    simp only [breaksStmt, loopedStmt, Bool.and_eq_true] at h ⊢
    exact ⟨loopedExpr_of_own condition h.1, loopedStmts_of_own body h.2⟩
  | forRange index start stop body =>
    simp only [breaksStmt, loopedStmt, Bool.and_eq_true] at h ⊢
    exact ⟨⟨loopedExpr_of_own start h.1.1, loopedExpr_of_own stop h.1.2⟩,
      loopedStmts_of_own body h.2⟩
  | forIn index value iterable body =>
    simp only [breaksStmt, loopedStmt, Bool.and_eq_true] at h ⊢
    exact ⟨loopedExpr_of_own iterable h.1, loopedStmts_of_own body h.2⟩
  | tryCall call success successBlock error errorBlock =>
    simp only [breaksStmt, loopedStmt, Bool.and_eq_true] at h ⊢
    exact ⟨⟨loopedExpr_of_own call h.1.1, loopedStmts_of_own successBlock h.1.2⟩,
      loopedStmts_of_own errorBlock h.2⟩
  | defer body =>
    have hbody : breaksStmts (fun _ => 0) 0 body = true := h
    have hchecked : checked 0 body none = true :=
      checked_of_own (by rw [breaksBody, hbody, breaksTail, Bool.true_and])
    rw [loopedStmt, Bool.and_eq_true, hchecked, Bool.or_true]
    exact ⟨rfl, loopedStmts_of_own body hbody⟩
  | spawn function => exact loopedExpr_of_own function h
  | breakStmt => rfl

theorem loopedStmts_of_own {d : ℕ} {looped : Bool} (ss : List Stmt) (h : breaksStmts
    (fun _ => 0) d ss = true) :
    loopedStmts looped ss = true := by
  cases ss with
  | nil => rfl
  | cons s ss =>
    simp only [breaksStmts, loopedStmts, Bool.and_eq_true] at h ⊢
    exact ⟨loopedStmt_of_own s h.1, loopedStmts_of_own ss h.2⟩

end

end Bodies

end NewClLang.BreakTargets
