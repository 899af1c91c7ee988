import NewClLang.AccessCompilation

set_option autoImplicit false

/-!
# The values of accesses

Code is followed on a machine that writes down what it performs, so that what it repeats is seen.
-/
namespace NewClLang.AccessValues
open TypeRefs Comparisons AccessExpressions AccessConditions AccessCompilation

section Traces

/-- The machine that writes down what is performed. -/
def tracing : Machine (List ℕ) Unit Unit where
  constant _ := ()
  slot _ := ()
  fieldPlace _ _ := ()
  element _ _ := some ()
  pointee _ := some ()
  pointer _ := ()
  temporary _ := ()
  fieldOf _ _ := ()
  load _ _ := some ()
  compute _ _ _ := some ()
  perform occ _ s := some ((), s ++ [occ])
  load_field _ _ _ := rfl

variable {α β : Type} {l l' : List ℕ}

/-- A computation that writes down a list. -/
def Logs (x : Run (List ℕ) α) (l : List ℕ) : Prop := ∀ s, ∃ v, x s = some (v, s ++ l)

theorem logs_pure (v : α) : Logs (pure v) [] := fun s => ⟨v, by rw [List.append_nil]; rfl⟩

theorem logs_reading (v : α) : Logs (reading fun _ => some v) [] := fun s =>
  ⟨v, by rw [List.append_nil]; rfl⟩

theorem logs_bind {x : Run (List ℕ) α} {k : α → Run (List ℕ) β} (hx : Logs x l)
    (hk : ∀ v, Logs (k v) l') : Logs (x >>= k) (l ++ l') := by
  intro s
  obtain ⟨v, hv⟩ := hx s
  obtain ⟨w, hw⟩ := hk v (s ++ l)
  refine ⟨w, ?_⟩
  change StateT.bind x k s = _
  simp only [StateT.bind, hv, ← List.append_assoc]
  exact hw

theorem logs_last {x : Run (List ℕ) α} {k : α → Run (List ℕ) β} (hx : Logs x l)
    (hk : ∀ v, Logs (k v) []) : Logs (x >>= k) l := by
  have h := logs_bind hx hk
  rwa [List.append_nil] at h

theorem logs_get (p : Unit) : Logs (tracing.get p) [] := logs_reading ()

theorem logs_act (op : Operation) (vs : List Unit) :
    Logs (tracing.act op vs) (Operation.calls op) := by
  cases op with
  | compute name => exact logs_reading ()
  | perform occ => exact fun s => ⟨(), rfl⟩

mutual

theorem exec_logs (c : Code) : Logs (exec tracing c) (effects c) := by
  cases c with
  | constant text => exact logs_pure _
  | load p =>
    rw [exec]
    exact logs_last (execPlace_logs p) logs_get
  | address p =>
    rw [exec]
    exact logs_last (execPlace_logs p) fun _ => logs_pure _
  | temporary value =>
    rw [exec]
    exact logs_last (exec_logs value) fun _ => logs_pure _
  | operation op operands =>
    rw [exec]
    exact logs_bind (execs_logs operands) (logs_act op)
  | afterAttempt attempt value =>
    rw [exec]
    exact logs_bind (execPlace_logs attempt) fun _ => exec_logs value

theorem execPlace_logs (p : Place) : Logs (execPlace tracing p) (effectsPlace p) := by
  cases p with
  | «variable» name => exact logs_pure _
  | field struct name =>
    rw [execPlace]
    exact logs_last (execPlace_logs struct) fun _ => logs_pure _
  | through pointer name =>
    rw [execPlace]
    exact logs_last (exec_logs pointer) fun _ => logs_last (logs_reading ()) fun _ => logs_pure _
  | element source index =>
    rw [execPlace]
    refine logs_bind (exec_logs source) fun _ => ?_
    exact logs_last (exec_logs index) fun _ => logs_reading ()

theorem execs_logs (cs : List Code) : Logs (execs tracing cs) (effectsEach cs).flatten := by
  cases cs with
  | nil => exact logs_pure _
  | cons c cs =>
    rw [execs, effectsEach, List.flatten_cons]
    refine logs_bind (exec_logs c) fun _ => ?_
    exact logs_last (execs_logs cs) fun _ => logs_pure _

end

theorem logs_project (t : TypeRef) (name : String) (v : Unit) :
    Logs (project tracing t name v) [] := by
  unfold project
  split
  · exact logs_last (logs_reading ()) logs_get
  · exact logs_pure _

theorem logs_projectAll {d : Declarations} (path : List String) (t : TypeRef) (v : Unit) :
    Logs (projectAll d tracing t path v) [] := by
  induction path generalizing t v with
  | nil => exact logs_pure _
  | cons name path ih => exact logs_last (logs_project t name v) fun v => ih _ v

theorem logs_pointing {placed : Bool} {place value : Run (List ℕ) Unit}
    (hplace : placed = true → Logs place l) (hvalue : Logs value l) :
    Logs (pointing tracing placed place value) l := by
  cases placed with
  | true => exact logs_last (hplace rfl) fun _ => logs_pure _
  | false => exact logs_last hvalue fun _ => logs_pure _

theorem logs_methodReceiver {isStruct placed : Bool} {place value : Run (List ℕ) Unit}
    (hplace : placed = true → Logs place l) (hvalue : Logs value l) :
    Logs (methodReceiver tracing isStruct placed place value) l := by
  cases isStruct with
  | true => exact logs_pointing hplace hvalue
  | false => exact hvalue

theorem logs_overloadReceiver {d : Declarations} {t : TypeRef} {path : List String}
    {placed : Bool} {place value : Run (List ℕ) Unit} (hplace : placed = true → Logs place l)
    (hvalue : Logs value l) :
    Logs (overloadReceiver d tracing t path placed place value) l := by
  unfold overloadReceiver
  split
  · exact logs_pointing hplace hvalue
  · exact logs_last hvalue fun v => logs_last (logs_projectAll path t v) fun _ => logs_pure _

theorem logs_sequence {xs : List (Run (List ℕ) Unit)} {ls : List (List ℕ)}
    (h : List.Forall₂ Logs xs ls) : Logs (AccessExpressions.sequence xs) ls.flatten := by
  induction h with
  | nil => exact logs_pure _
  | cons hx _ ih =>
    rw [AccessExpressions.sequence, List.flatten_cons]
    exact logs_bind hx fun _ => logs_last ih fun _ => logs_pure _

variable {d : Declarations}

mutual

theorem eval_logs (e : Expr) : Logs (eval d tracing e) (calls d false e) := by
  cases e with
  | constant text type => exact logs_pure _
  | «variable» name type => exact logs_get _
  | operation op type operands =>
    rw [eval, calls]
    exact logs_bind (logs_sequence (evals_logs operands)) (logs_act op)
  | overloaded occ type path derived receiver others =>
    rw [eval, calls, Bool.false_and, if_neg Bool.false_ne_true, List.append_assoc]
    refine logs_bind (logs_overloadReceiver (evalPlace_logs receiver) (eval_logs receiver)) ?_
    intro arg
    exact logs_bind (logs_sequence (evals_logs others)) fun vs => logs_act (.perform occ) _
  | structLiteral op name names values =>
    rw [eval, calls, if_neg Bool.false_ne_true]
    have hordered := forall₂_reorder (evals_logs values) (declaredNames d name) names
    exact logs_bind (logs_sequence hordered) (logs_act op)
  | field obj name =>
    rw [eval, calls]
    exact logs_last (eval_logs obj) (logs_project _ _)
  | index obj index =>
    rw [eval, calls]
    split
    · refine logs_bind (logs_pointing (evalPlace_logs obj) (eval_logs obj)) fun _ => ?_
      exact logs_last (eval_logs index) fun _ => logs_reading ()
    · refine logs_bind (eval_logs obj) fun _ => logs_last (eval_logs index) fun _ => ?_
      split
      · exact logs_reading ()
      · exact logs_last (logs_reading ()) logs_get
  | slice occ obj bounds =>
    rw [eval, calls, List.append_assoc]
    refine logs_bind (eval_logs obj) fun _ => ?_
    exact logs_bind (logs_sequence (evals_logs bounds)) fun vs => logs_act (.perform occ) _
  | method occ type obj args =>
    rw [eval, calls, List.append_assoc]
    refine logs_bind (logs_methodReceiver (evalPlace_logs obj) (eval_logs obj)) fun _ => ?_
    exact logs_bind (logs_sequence (evals_logs args)) fun vs => logs_act (.perform occ) _
  | mapCall op type map args =>
    rw [eval, calls, List.append_assoc]
    refine logs_bind (logs_pointing (evalPlace_logs map) (eval_logs map)) fun _ => ?_
    exact logs_bind (logs_sequence (evals_logs args)) fun vs => logs_act op _

theorem evalPlace_logs (e : Expr) (h : isPlaced d e = true) :
    Logs (evalPlace d tracing e) (calls d false e) := by
  cases e with
  | «variable» name type => exact logs_pure _
  | field obj name =>
    rw [evalPlace, calls]
    split
    · refine logs_last (eval_logs obj) fun _ => ?_
      exact logs_last (logs_reading ()) fun _ => logs_pure _
    · next hpointer =>
      have hplaced : isPlaced d obj = true := by simpa [isPlaced, hpointer] using h
      exact logs_last (evalPlace_logs obj hplaced) fun _ => logs_pure _
  | index obj index =>
    rw [evalPlace, calls]
    refine logs_bind (eval_logs obj) fun _ => ?_
    exact logs_last (eval_logs index) fun _ => logs_reading ()
  | _ => cases h

theorem evals_logs (es : List Expr) :
    List.Forall₂ Logs (evals d tracing es) (callsEach d false es) := by
  cases es with
  | nil => exact .nil
  | cons e es => exact .cons (eval_logs e) (evals_logs es)

end

end Traces

section Accesses
variable {d : Declarations} {e : Expr}

/-- The code of an expression repeats nothing if and only if it performs what it should. -/
theorem repeated_eq_nil_iff {c : Code} (h : emitExpr d e = some c) :
    repeated d e = [] ↔ effects c = calls d false e := by
  have hperforms := (emitted e).value h
  constructor
  · exact hperforms.order
  · intro heq
    have hlength := hperforms.all.length_eq
    rw [heq, List.length_append] at hlength
    exact List.length_eq_zero_iff.mp (by omega)

/-- An expression is compiled to code that comes to its value if and only if its accesses have
rooted objects where `emit_lvalue` is called for them, and no attempt to take an element of a map
for a place performs anything. -/
theorem yields_iff_supported :
    Yields d e ↔ supported d e = true ∧ repeated d e = [] := by
  constructor
  · rintro ⟨c, hc, hmeaning⟩
    refine ⟨by rw [← emitExpr_isSome, hc]; rfl, (repeated_eq_nil_iff hc).mpr ?_⟩
    obtain ⟨_, hexec⟩ := exec_logs c []
    obtain ⟨_, heval⟩ := eval_logs (d := d) e []
    rw [hmeaning, heval] at hexec
    exact (Prod.ext_iff.mp (Option.some.inj hexec)).2.symm
  · rintro ⟨hsupported, hrepeated⟩
    rw [← emitExpr_isSome] at hsupported
    obtain ⟨c, hc⟩ := Option.isSome_iff_exists.mp hsupported
    exact ⟨c, hc, ((emitted e).value hc).meaning hrepeated⟩

/-- A program that declares a struct of one number. -/
def pointProgram : Declarations where
  declared name := if name = "Point" then some (.struct [("x", i32)]) else none
  implements _ _ := false
  orderMethod _ := none
  apart := by decide

/-- `origin().x`. -/
def originX : Expr := .field (.operation (.perform 0) (.pointer (.named "Point") false) []) "x"

/-- A field of the result of a call is accepted and cannot be compiled. -/
theorem originX_unsupported :
    acceptsExpr pointProgram originX = true ∧ emitExpr pointProgram originX = none ∧
      ¬ Yields pointProgram originX := by
  have hnone : emitExpr pointProgram originX = none := by simp [originX, emitExpr, emitLvalue,
    fieldLvalue, Lvalue.place?]
  refine ⟨by decide, hnone, ?_⟩
  rintro ⟨c, hc, -⟩
  rw [hnone] at hc
  cases hc

end Accesses

end NewClLang.AccessValues
