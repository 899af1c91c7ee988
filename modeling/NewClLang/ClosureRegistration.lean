import NewClLang.ModuleGeneration

set_option autoImplicit false

/-!
# Registered closures

`_collect_llvm_inputs` numbers a function expression where it stands at a place that its walks come
to. They pass over error handlers, and find a `spawn` only below functions, loops and deferred
blocks.
-/
namespace NewClLang.ClosureRegistration
open Numbering ClosureCollection ModuleGeneration

section Positions

mutual

/-- The function expressions of an expression, each with whether it stands outside of all error
handlers and of the operands of `ret` and `err`. -/
def closuresExpr (shown : Bool) : Expr → List (Closure × Bool)
  | .operation operands => closuresExprs shown operands
  | .functionExpr closure body => (closure, shown) :: closuresStmts shown true body
  | .ifExpr condition thenBlock elseBlock =>
      closuresExpr shown condition ++ closuresStmts shown false thenBlock ++
        closuresStmts shown false elseBlock
  | .matchExpr scrutinee bodies => closuresExpr shown scrutinee ++ closuresExprs shown bodies
  | .blockExpr block => closuresStmts shown false block
  | .errorHandler call handler => closuresExpr false call ++ closuresStmts false false handler
  | .errorMatch call bodies => closuresExpr false call ++ closuresExprs false bodies
  | .exit value => closuresExpr false value

def closuresExprs (shown : Bool) : List Expr → List (Closure × Bool)
  | [] => []
  | e :: rest => closuresExpr shown e ++ closuresExprs shown rest

/-- The function expressions of a statement. One that is spawned has to stand in a body, with
nothing but loops and deferred blocks between. -/
def closuresStmt (shown direct : Bool) : Stmt → List (Closure × Bool)
  | .variableDecl initializer => closuresExpr shown initializer
  | .assignment target value => closuresExpr shown target ++ closuresExpr shown value
  | .update target => closuresExpr shown target
  | .expression expr => closuresExpr shown expr
  | .exit value => closuresExpr shown value
  | .forCondition condition body =>
      closuresExpr shown condition ++ closuresStmts shown direct body
  | .forIn iterated body => closuresExprs shown iterated ++ closuresStmts shown direct body
  | .tryCall call successBlock errorBlock =>
      closuresExpr shown call ++ closuresStmts shown false successBlock ++
        closuresStmts shown false errorBlock
  | .defer body => closuresStmts shown direct body
  | .spawn closure body =>
      (closure, shown && direct) :: closuresStmts (shown && direct) true body
  | .breakStmt => []
  | .function head body => closuresStmts shown (direct && !head.isExtern) body
  | .externBlock _ => []
  | .declaration => []

def closuresStmts (shown direct : Bool) : List Stmt → List (Closure × Bool)
  | [] => []
  | s :: rest => closuresStmt shown direct s ++ closuresStmts shown direct rest

end

end Positions

section Walks
variable {c : Closure}

mutual

/-- Below an error handler nothing is shown. -/
theorem closuresExpr_hidden (e : Expr) : (c, true) ∉ closuresExpr false e := by
  cases e with
  | operation operands => exact closuresExprs_hidden operands
  | functionExpr closure body =>
    simp [closuresExpr, closuresStmts_hidden true body]
  | ifExpr condition thenBlock elseBlock =>
    simp [closuresExpr, closuresExpr_hidden condition, closuresStmts_hidden false thenBlock,
      closuresStmts_hidden false elseBlock]
  | matchExpr scrutinee bodies =>
    simp [closuresExpr, closuresExpr_hidden scrutinee, closuresExprs_hidden bodies]
  | blockExpr block => exact closuresStmts_hidden false block
  | errorHandler call handler =>
    simp [closuresExpr, closuresExpr_hidden call, closuresStmts_hidden false handler]
  | errorMatch call bodies =>
    simp [closuresExpr, closuresExpr_hidden call, closuresExprs_hidden bodies]
  | exit value => exact closuresExpr_hidden value

theorem closuresExprs_hidden (es : List Expr) : (c, true) ∉ closuresExprs false es := by
  cases es with
  | nil => simp [closuresExprs]
  | cons e es => simp [closuresExprs, closuresExpr_hidden e, closuresExprs_hidden es]

theorem closuresStmt_hidden (direct : Bool) (s : Stmt) :
    (c, true) ∉ closuresStmt false direct s := by
  cases s with
  | variableDecl initializer => exact closuresExpr_hidden initializer
  | assignment target value =>
    simp [closuresStmt, closuresExpr_hidden target, closuresExpr_hidden value]
  | update target => exact closuresExpr_hidden target
  | expression expr => exact closuresExpr_hidden expr
  | exit value => exact closuresExpr_hidden value
  | forCondition condition body =>
    simp [closuresStmt, closuresExpr_hidden condition, closuresStmts_hidden direct body]
  | forIn iterated body =>
    simp [closuresStmt, closuresExprs_hidden iterated, closuresStmts_hidden direct body]
  | tryCall call successBlock errorBlock =>
    simp [closuresStmt, closuresExpr_hidden call, closuresStmts_hidden false successBlock,
      closuresStmts_hidden false errorBlock]
  | defer body => exact closuresStmts_hidden direct body
  | spawn closure body => simp [closuresStmt, closuresStmts_hidden true body]
  | function head body => exact closuresStmts_hidden _ body
  | _ => simp [closuresStmt]

theorem closuresStmts_hidden (direct : Bool) (ss : List Stmt) :
    (c, true) ∉ closuresStmts false direct ss := by
  cases ss with
  | nil => simp [closuresStmts]
  | cons s ss => simp [closuresStmts, closuresStmt_hidden direct s, closuresStmts_hidden direct ss]

end

/-- The walk lists the function expression. -/
def Lists (items : List Item) (c : Closure) : Prop :=
  ∃ x ∈ items.filterMap Item.closure?, x.closure = c

theorem lists_append {xs ys : List Item} :
    Lists (xs ++ ys) c ↔ Lists xs c ∨ Lists ys c := by
  simp [Lists, List.filterMap_append, or_and_right, exists_or]

theorem lists_nil : ¬ Lists [] c := by simp [Lists]

theorem lists_closure {x : FunctionExpr} {items : List Item} :
    Lists (.closure x :: items) c ↔ c = x.closure ∨ Lists items c := by
  simp [Lists, Item.closure?, eq_comm]

theorem lists_function {f : FunctionDecl} {items : List Item} :
    Lists (.function f :: items) c ↔ Lists items c := by
  simp [Lists, Item.closure?]

theorem lists_externs (functions : List FunctionHead) :
    ¬ Lists (functions.map (fun head => .function ⟨head, []⟩)) c := by
  induction functions with
  | nil => exact lists_nil
  | cons head functions ih =>
    rw [List.map_cons, lists_function]
    exact ih

mutual

theorem lists_closureExpr (e : Expr) :
    Lists (closureExpr e) c ↔ (c, true) ∈ closuresExpr true e := by
  cases e with
  | operation operands => exact lists_closureExprs operands
  | functionExpr closure body =>
    rw [closureExpr, lists_closure, lists_bodies body]
    simp [closuresExpr]
  | ifExpr condition thenBlock elseBlock =>
    simp [closureExpr, closuresExpr, lists_append, lists_closureExpr condition,
      lists_closureStmts thenBlock, lists_closureStmts elseBlock]
  | matchExpr scrutinee bodies =>
    simp [closureExpr, closuresExpr, lists_append, lists_closureExpr scrutinee,
      lists_closureExprs bodies]
  | blockExpr block => exact lists_closureStmts block
  | errorHandler call handler =>
    simp [closureExpr, closuresExpr, lists_nil, closuresExpr_hidden, closuresStmts_hidden]
  | errorMatch call bodies =>
    simp [closureExpr, closuresExpr, lists_nil, closuresExpr_hidden, closuresExprs_hidden]
  | exit value => simp [closureExpr, closuresExpr, lists_nil, closuresExpr_hidden]

theorem lists_closureExprs (es : List Expr) :
    Lists (closureExprs es) c ↔ (c, true) ∈ closuresExprs true es := by
  cases es with
  | nil => simp [closureExprs, closuresExprs, lists_nil]
  | cons e es =>
    simp [closureExprs, closuresExprs, lists_append, lists_closureExpr e, lists_closureExprs es]

/-- Where the walk of declarations does not come. -/
theorem lists_closureStmt (s : Stmt) :
    Lists (closureStmt s) c ↔ (c, true) ∈ closuresStmt true false s := by
  cases s with
  | variableDecl initializer => exact lists_closureExpr initializer
  | assignment target value =>
    simp [closureStmt, closuresStmt, lists_append, lists_closureExpr target,
      lists_closureExpr value]
  | update target => exact lists_closureExpr target
  | expression expr => exact lists_closureExpr expr
  | exit value => exact lists_closureExpr value
  | forCondition condition body =>
    simp [closureStmt, closuresStmt, lists_append, lists_closureExpr condition,
      lists_closureStmts body]
  | forIn iterated body =>
    simp [closureStmt, closuresStmt, lists_append, lists_closureExprs iterated,
      lists_closureStmts body]
  | tryCall call successBlock errorBlock =>
    simp [closureStmt, closuresStmt, lists_append, lists_closureExpr call,
      lists_closureStmts successBlock, lists_closureStmts errorBlock]
  | defer body => exact lists_closureStmts body
  | spawn closure body => simp [closureStmt, closuresStmt, lists_nil, closuresStmts_hidden]
  | function head body =>
    simp [closureStmt, closuresStmt, lists_closureStmts body]
  | _ => simp [closureStmt, closuresStmt, lists_nil]

theorem lists_closureStmts (ss : List Stmt) :
    Lists (closureStmts ss) c ↔ (c, true) ∈ closuresStmts true false ss := by
  cases ss with
  | nil => simp [closureStmts, closuresStmts, lists_nil]
  | cons s ss =>
    simp [closureStmts, closuresStmts, lists_append, lists_closureStmt s, lists_closureStmts ss]

/-- Both walks over one statement. -/
theorem lists_body (s : Stmt) :
    Lists (topLevel s ++ closureStmt s) c ↔ (c, true) ∈ closuresStmt true true s := by
  cases s with
  | variableDecl initializer =>
    simp [topLevel, closureStmt, closuresStmt, lists_closureExpr initializer]
  | assignment target value =>
    simp [topLevel, closureStmt, closuresStmt, lists_append, lists_closureExpr target,
      lists_closureExpr value]
  | update target => simp [topLevel, closureStmt, closuresStmt, lists_closureExpr target]
  | expression expr => simp [topLevel, closureStmt, closuresStmt, lists_closureExpr expr]
  | exit value => simp [topLevel, closureStmt, closuresStmt, lists_closureExpr value]
  | forCondition condition body =>
    rw [topLevel, closureStmt, closuresStmt, List.mem_append, ← lists_bodies body,
      ← lists_closureExpr condition]
    simp only [lists_append]
    tauto
  | forIn iterated body =>
    rw [topLevel, closureStmt, closuresStmt, List.mem_append, ← lists_bodies body,
      ← lists_closureExprs iterated]
    simp only [lists_append]
    tauto
  | tryCall call successBlock errorBlock =>
    simp [topLevel, closureStmt, closuresStmt, lists_append, lists_closureExpr call,
      lists_closureStmts successBlock, lists_closureStmts errorBlock]
  | defer body => exact lists_bodies body
  | spawn closure body =>
    have hnone : closureStmt (.spawn closure body) = [] := rfl
    rw [topLevel, hnone, List.append_nil, closuresStmt, List.mem_cons, Bool.and_self,
      ← lists_bodies body, lists_append, lists_closure, lists_append]
    simp
    tauto
  | function head body =>
    rw [topLevel, closureStmt, closuresStmt, List.cons_append, lists_function]
    cases head.isExtern with
    | true => simp [lists_closureStmts body]
    | false => exact lists_bodies body
  | externBlock functions =>
    simp [topLevel, closureStmt, closuresStmt, lists_externs]
  | _ => simp [topLevel, closureStmt, closuresStmt, lists_nil]

theorem lists_bodies (ss : List Stmt) :
    Lists (topLevelAll ss ++ closureStmts ss) c ↔ (c, true) ∈ closuresStmts true true ss := by
  cases ss with
  | nil => simp [topLevelAll, closureStmts, closuresStmts, lists_nil]
  | cons s ss =>
    rw [topLevelAll, closureStmts, closuresStmts, List.mem_append, ← lists_body s,
      ← lists_bodies ss]
    simp only [lists_append]
    tauto

end

end Walks

section Registration
variable {p : Program}

/-- Every function expression that the emitted bodies come to has been given a number and stands
once in the list of closures. -/
def Registered (p : Program) : Prop :=
  ∀ c ∈ created p (first p) none,
    (∃ i, (first p).numbers c = some i) ∧ ((first p).listed.map FunctionExpr.closure).count c = 1

/-- Every function expression that the emitted bodies come to stands outside of error handlers and
of operands of `ret` and `err`, and one that is spawned with only loops and deferred blocks around
it in its body. -/
def InSight (p : Program) : Prop :=
  ∀ c ∈ created p (first p) none, (c, true) ∈ closuresStmts true true p.statements

theorem listed_iff (c : Closure) :
    c ∈ (first p).listed.map FunctionExpr.closure ↔
      (c, true) ∈ closuresStmts true true p.statements := by
  rw [← lists_bodies]
  constructor
  · intro h
    obtain ⟨x, hx, rfl⟩ := List.mem_map.mp h
    exact ⟨x, mem_of_listed hx, rfl⟩
  · rintro ⟨x, hx, rfl⟩
    obtain ⟨i, hi⟩ :=
      Option.isSome_iff_exists.mp (numbered_of_mem FunctionExpr.closure unnumbered hx)
    obtain ⟨y, hy, hkey⟩ := (positions_first p).listed hi
    exact List.mem_map.mpr ⟨y, hy, hkey⟩

/-- The closures that the emission comes to are registered where they stand in sight of the walks,
and only there. -/
theorem registered_iff_inSight (p : Program) : Registered p ↔ InSight p := by
  constructor
  · intro h c hc
    obtain ⟨-, hcount⟩ := h c hc
    exact (listed_iff c).mp (List.count_pos_iff.mp (by omega))
  · intro h c hc
    have hlisted := (listed_iff c).mpr (h c hc)
    refine ⟨?_, List.count_eq_one_of_mem (positions_first p).nodup hlisted⟩
    obtain ⟨x, hx, rfl⟩ := List.mem_map.mp hlisted
    exact (positions_first p).numbered hx

def worker : Closure := ⟨0, some "main", "fun()", false⟩

/-- `fun main() { if ready() { spawn fun() { } } }`. -/
def spawningMain : Program where
  statements := [.function ⟨"main", some "main", false, "main", "fun(): i32", false, false⟩
    [.expression (.ifExpr (.operation []) [.spawn worker []] [])]]
  modules := ["main"]
  modules_nodup := by simp

/-- The emission comes to a spawned function expression that no walk has found. -/
theorem spawningMain_unregistered :
    worker ∈ created spawningMain (first spawningMain) none ∧
      (first spawningMain).numbers worker = none ∧ ¬ Registered spawningMain := by
  have hmet : worker ∈ created spawningMain (first spawningMain) none := by decide
  have hnone : (first spawningMain).numbers worker = none := rfl
  refine ⟨hmet, hnone, ?_⟩
  intro h
  obtain ⟨⟨i, hi⟩, -⟩ := h worker hmet
  rw [hnone] at hi
  cases hi

end Registration

end NewClLang.ClosureRegistration
