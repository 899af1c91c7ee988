import NewClLang.SlotEmission
import Mathlib.Data.Finset.Basic
import Mathlib.Data.Finset.SymmDiff

set_option autoImplicit false

/-!
# Stale names

A name is stale where the code generator's map no longer follows the scopes of the source: in the
initializer, bounds or iterable of its own declaration, after a block that declared it and was not
followed by a restore, and in a deferred block when it was bound again since. The walk knows names
only.
-/
namespace NewClLang.StaleNames
open Syntax SlotEmission

abbrev Names := Finset String

/-- A deferred block: the names declared around it since the walk began, its stale names, and its
    replay, from the stale names to the names it binds and whether it reads no stale name. -/
structure StaleSite where
  inner : Names
  stale : Names
  replay : Names → Names × Bool

structure Scope where
  visible : Names
  stale : Names
  sites : List StaleSite
  terminated : Bool

/-- What a construct does: the names it declares, those it binds, the stale names after it, the
    deferred blocks it registers, and whether it reads no stale name. -/
structure Effect where
  declared : Names
  touched : Names
  stale : Names
  sites : List StaleSite
  terminated : Bool
  clean : Bool

abbrev Walk := Scope → Effect

def StaleSite.touch (names : Names) (site : StaleSite) : StaleSite :=
  { site with stale := site.stale ∪ names }

def StaleSite.enclose (names : Names) (site : StaleSite) : StaleSite :=
  { site with inner := site.inner ∪ names }

def StaleSite.restore (stale : Names) (site : StaleSite) : StaleSite :=
  { site with stale := site.inner ∪ stale }

def Scope.after (sc : Scope) (eff : Effect) : Scope where
  visible := sc.visible ∪ eff.declared
  stale := eff.stale
  sites := sc.sites.map (StaleSite.touch eff.touched) ++ eff.sites
  terminated := eff.terminated

def walkPass : Walk := fun sc =>
  { declared := ∅, touched := ∅, stale := sc.stale, sites := [], terminated := sc.terminated,
    clean := true }

def Walk.seq (a b : Walk) : Walk := fun sc =>
  let first := a sc
  let second := b (sc.after first)
  { declared := first.declared ∪ second.declared
    touched := first.touched ∪ second.touched
    stale := second.stale
    sites := first.sites.map (StaleSite.touch second.touched) ++
      second.sites.map (StaleSite.enclose first.declared)
    terminated := second.terminated
    clean := first.clean && second.clean }

def walkRead (name : String) : Walk := fun sc =>
  { walkPass sc with clean := decide (name ∉ sc.stale) }

/-- The end of a frame whose names stay in the map. -/
def closing (w : Walk) : Walk := fun sc =>
  { w sc with declared := ∅, stale := sc.stale ∪ (w sc).touched }

/-- The end of a frame after which the map is put back. -/
def walkRestoring (w : Walk) : Walk := fun sc =>
  { w sc with
    declared := ∅
    touched := ∅
    stale := sc.stale
    sites := (w sc).sites.map (StaleSite.restore sc.stale) }

/-- Names bound first and declared after what follows: an initializer sees them stale. -/
def binding (names : Names) (w : Walk) : Walk := fun sc =>
  let eff := w { sc with
    stale := sc.stale ∪ names, sites := sc.sites.map (StaleSite.touch names) }
  { eff with
    declared := names
    touched := names ∪ eff.touched
    stale := (sc.stale \ names) ∪ eff.touched }

def missing (names : Names) : Walk := fun sc =>
  { walkPass sc with declared := names, stale := sc.stale ∪ names }

def walkNewBlock : Walk := fun sc => { walkPass sc with terminated := false }

def walkStop : Walk := fun sc => { walkPass sc with terminated := true }

def walkBranches (a b : Walk) : Walk := fun sc =>
  let first := (walkNewBlock.seq a) sc
  { ((walkNewBlock.seq a).seq (walkNewBlock.seq b)) sc with
    terminated := first.terminated && ((walkNewBlock.seq b) (sc.after first)).terminated }

/-- What is left out after a terminator declares its names all the same. -/
def walkUnlessTerminated (skipped : Bool) (names : Names) (w : Walk) : Walk := fun sc =>
  if skipped && sc.terminated then missing names sc else w sc

/-- The replay of a deferred block where `visible` can be seen. -/
def walkReplay (visible : Names) (body : Walk) : Names → Names × Bool := fun stale =>
  let eff := body { visible := visible, stale := stale, sites := [], terminated := false }
  (eff.touched, eff.clean)

def walkRegister (names : Names) (body : Walk) : Walk := fun sc =>
  { missing names sc with
    sites := [{ inner := ∅, stale := sc.stale, replay := walkReplay sc.visible body }] }

def replayAll : List StaleSite → Names → Names × Bool
  | [], touched => (touched, true)
  | s :: ss, touched =>
      let once := s.replay (s.stale ∪ touched)
      let rest := replayAll ss (touched ∪ once.1)
      (rest.1, once.2 && rest.2)

def walkDeferred (m : Bool) : Walk := fun sc =>
  if m then walkPass sc
  else
    let all := replayAll sc.sites ∅
    { walkPass sc with touched := all.1, stale := sc.stale ∪ all.1, clean := all.2 }

def walkFallThrough (isMain : Bool) : Walk :=
  walkUnlessTerminated true ∅
    (if isMain then walkDeferred false else (walkDeferred false).seq (walkDeferred false))

/-- A closure sees its parameters and its captures, so a visible name it does not capture is
    stale, and so is a captured name that is not visible. -/
def walkSeparately (captures params : Names) (w : Walk) : Walk := fun sc =>
  { walkPass sc with
    clean := (w { visible := sc.visible ∪ params, stale := symmDiff sc.visible captures \ params,
                  sites := [], terminated := false }).clean }

def walkCaptures : List (ℕ × String) → Walk
  | [] => walkPass
  | c :: cs => (walkRead c.2).seq (walkCaptures cs)

def binderNames (bs : List Binder) : Names := (bs.map Binder.name).toFinset

mutual

def walkExpr (m : Bool) : Expr → Walk
  | .literal => walkPass
  | .identifier _ name => walkRead name
  | .operation _ operands => walkExprs m operands
  | .ifExpr condition thenBlock elseBlock =>
      (walkExpr m condition).seq
        (walkBranches (closing (walkStmts m false thenBlock))
          (closing (walkStmts m false elseBlock)))
  | .blockExpr block => walkRestoring (walkStmts m false block)
  | .matchExpr scrutinee bodies => (walkExpr m scrutinee).seq (walkArms m bodies)
  | .fallibleOp .propagate call => (walkExpr m call).seq ((walkDeferred m).seq walkNewBlock)
  | .fallibleOp .unwrap call => (walkExpr m call).seq walkNewBlock
  | .errorHandler call error handler =>
      (walkExpr m call).seq
        ((walkRestoring
          ((binding (binderNames [error]) walkPass).seq (walkNewBlock.seq (walkStmts m false handler)))).seq
            walkNewBlock)
  | .errorMatch call error bodies =>
      (walkExpr m call).seq
        ((walkRestoring ((binding (binderNames [error]) walkPass).seq (walkArms m bodies))).seq
          walkNewBlock)
  | .functionExpr captures params body none =>
      (walkCaptures captures).seq
        (walkSeparately (captures.map Prod.snd).toFinset (binderNames params)
          ((walkStmts false true body).seq (walkFallThrough false)))
  | .functionExpr captures params body (some tail) =>
      (walkCaptures captures).seq
        (walkSeparately (captures.map Prod.snd).toFinset (binderNames params)
          ((walkStmts false false body).seq
            (walkUnlessTerminated true ∅ ((walkExpr false tail).seq (walkDeferred false)))))
  | .exit _ value => (walkExpr m value).seq ((walkDeferred m).seq walkStop)

def walkExprs (m : Bool) : List Expr → Walk
  | [] => walkPass
  | e :: es => (walkExpr m e).seq (walkExprs m es)

def walkArms (m : Bool) : List Expr → Walk
  | [] => walkStop
  | e :: es => walkBranches (walkExpr m e) (walkArms m es)

def walkStmt (m : Bool) : Stmt → Walk
  | .variableDecl b initializer => binding (binderNames [b]) (walkExpr m initializer)
  | .expression e => walkExpr m e
  | .assignment target value => (walkExpr m target).seq (walkExpr m value)
  | .forCondition condition body =>
      (walkExpr m condition).seq
        (walkNewBlock.seq ((closing (walkStmts m true body)).seq walkNewBlock))
  | .forRange index start stop body =>
      closing ((binding (binderNames [index]) ((walkExpr m start).seq (walkExpr m stop))).seq
        (walkNewBlock.seq ((walkStmts m true body).seq walkNewBlock)))
  | .forIn index value iterable body =>
      walkRestoring ((binding (binderNames [index, value]) (walkExpr m iterable)).seq
        (walkNewBlock.seq ((walkStmts m true body).seq walkNewBlock)))
  | .tryCall call success successBlock error errorBlock =>
      (walkExpr m call).seq
        ((walkRestoring ((binding (binderNames error.toList) walkPass).seq
          (walkNewBlock.seq (walkStmts m true errorBlock)))).seq
          ((walkRestoring ((binding (binderNames success.toList) walkPass).seq
            (walkNewBlock.seq (walkStmts m true successBlock)))).seq walkNewBlock))
  | .defer body =>
      if m then walkStmts true true body
      else walkRegister (binderNames (declaredByAll body)) (walkStmts true true body)
  | .spawn function => walkExpr m function
  | .breakStmt => walkStop

def walkStmts (m checked : Bool) : List Stmt → Walk
  | [] => walkPass
  | s :: ss =>
      walkUnlessTerminated checked (binderNames (declaredByAll (s :: ss)))
        ((walkStmt m s).seq (walkStmts m checked ss))

end

def walkBody (isMain : Bool) (body : List Stmt) : Option Expr → Walk
  | none => (walkStmts false true body).seq (walkFallThrough isMain)
  | some tail =>
      (walkStmts false false body).seq
        (walkUnlessTerminated true ∅ ((walkExpr false tail).seq (walkDeferred false)))

/-- No identifier of the function is emitted while its name is stale. -/
def readsNoStaleName (fn : FunctionDecl) : Bool :=
  (walkBody fn.isMain fn.body fn.tail
    { visible := binderNames fn.params, stale := ∅, sites := [], terminated := false }).clean

end NewClLang.StaleNames
