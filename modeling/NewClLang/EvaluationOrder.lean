import NewClLang.AccessValues
import NewClLang.Concatenations

set_option autoImplicit false

/-!
# The order of evaluation

An expression is evaluated in the order in which it is written where the fields of a struct literal
stand in the order of their declaration, and an operator that is derived from `__lt__` has one
operand with calls at most.
-/
namespace NewClLang.EvaluationOrder
open TypeRefs Comparisons AccessExpressions AccessConditions AccessCompilation AccessValues
open Concatenations

section Definitions
variable (d : Declarations)

/-- What the code of an expression performs is what the expression says, in the order in which it is
written. -/
def EvaluatesAsWritten (e : Expr) : Prop :=
  ∃ c, emitExpr d e = some c ∧ ∀ s, exec tracing c s = some ((), s ++ calls d true e)

/-- A field whose value performs something. -/
def busyField (names : List String) (values : List Expr) (name : String) : Bool :=
  !(((names.zip values).lookup name).elim true fun value => (calls d true value).isEmpty)

mutual

/-- Nothing that performs something is emitted before what stands in front of it. -/
def inOrder : Expr → Bool
  | .constant _ _ => true
  | .variable _ _ => true
  | .operation _ _ operands => inOrderAll operands
  | .overloaded _ _ _ derived receiver others =>
    inOrder receiver && inOrderAll others &&
      (!derived || (calls d true receiver).isEmpty || (callsEach d true others).flatten.isEmpty)
  | .structLiteral _ name names values =>
    inOrderAll values &&
      decide ((declaredNames d name).filter (busyField d names values) =
        names.filter (busyField d names values))
  | .field obj _ => inOrder obj
  | .index obj index => inOrder obj && inOrder index
  | .slice _ obj bounds => inOrder obj && inOrderAll bounds
  | .method _ _ obj args => inOrder obj && inOrderAll args
  | .mapCall _ _ map args => inOrder map && inOrderAll args

def inOrderAll : List Expr → Bool
  | [] => true
  | e :: es => inOrder e && inOrderAll es

end

end Definitions

section Literals
variable {α : Type}

theorem lookup_zip_cons {name n : String} {names : List String} {v : α} {values : List α}
    (h : name ≠ n) :
    ((n :: names).zip (v :: values)).lookup name = (names.zip values).lookup name := by
  have hfalse : (name == n) = false := beq_eq_false_iff_ne.mpr h
  rw [List.zip_cons_cons, List.lookup_cons, hfalse]

theorem lookup_zip_self {name : String} {names : List String} {v : α} {values : List α} :
    ((name :: names).zip (v :: values)).lookup name = some v := by
  rw [List.zip_cons_cons, List.lookup_cons, beq_self_eq_true]

/-- Values that are looked up under their own names are the values. -/
theorem map_lookup (names : List String) (values : List (List α)) (hnodup : names.Nodup)
    (hlength : names.length = values.length) :
    names.map (fun name => ((names.zip values).lookup name).getD []) = values := by
  induction names generalizing values with
  | nil => exact (List.length_eq_zero_iff.mp hlength.symm).symm
  | cons n names ih =>
    cases values with
    | nil => cases hlength
    | cons v values =>
      obtain ⟨hnot, hrest⟩ := List.nodup_cons.mp hnodup
      rw [List.map_cons, lookup_zip_self, Option.getD_some]
      have hothers :
          names.map (fun name => (((n :: names).zip (v :: values)).lookup name).getD []) =
            names.map (fun name => ((names.zip values).lookup name).getD []) := by
        refine List.map_congr_left fun name hname => ?_
        rw [lookup_zip_cons]
        rintro rfl
        exact hnot hname
      rw [hothers, ih values hrest (Nat.succ.inj hlength)]

theorem flatten_reorder (declared names : List String) (values : List (List α)) :
    (reorder declared names values).flatten =
      declared.flatMap fun name => ((names.zip values).lookup name).getD [] := by
  induction declared with
  | nil => rfl
  | cons name declared ih =>
    unfold reorder at ih ⊢
    rw [List.flatMap_cons, ← ih]
    cases hlookup : (names.zip values).lookup name with
    | none => simp [hlookup]
    | some v => simp [hlookup]

/-- Values under names come to the same concatenation in the order of their declaration if and only
if each does, and the ones that are not empty are in that order. -/
theorem flatten_reorder_eq_iff {declared names : List String} {xs ys : List (List α)}
    {p : String → Bool} (hp : ∀ name, p name = true ↔ ((names.zip ys).lookup name).getD [] ≠ [])
    (hparts : List.Forall₂ List.Perm xs ys) (hnames : names.Perm declared)
    (hnodup : names.Nodup) (hlength : names.length = ys.length) (hys : ys.flatten.Nodup) :
    (reorder declared names xs).flatten = ys.flatten ↔
      xs = ys ∧ declared.filter p = names.filter p := by
  have hx := map_lookup names xs hnodup (hlength.trans hparts.length_eq.symm)
  have hy := map_lookup names ys hnodup hlength
  have hflat : ys.flatten = names.flatMap fun name => ((names.zip ys).lookup name).getD [] := by
    rw [List.flatMap_def, hy]
  have hperm : ∀ name ∈ declared, (((names.zip xs).lookup name).getD []).Perm
      (((names.zip ys).lookup name).getD []) := by
    intro name _
    rcases forall₂_lookup hparts names name with ⟨hx, hy⟩ | ⟨x, y, hx, hy, hxy⟩
    · rw [hx, hy]
    · rw [hx, hy]
      exact hxy
  rw [hflat] at hys
  rw [flatten_reorder, hflat, flatMap_eq_iff hp hperm hnames.symm hys, and_comm]
  refine and_congr_left fun _ => ?_
  constructor
  · intro hall
    rw [← hx, ← hy]
    exact List.map_congr_left fun name hname => hall name (hnames.subset hname)
  · rintro rfl name _
    rfl

end Literals

section Orders
variable {d : Declarations}

theorem reorder_perm {declared names : List String} {xs : List (List ℕ)}
    (hnames : names.Perm declared) (hnodup : names.Nodup) (hlength : names.length = xs.length) :
    (reorder declared names xs).flatten.Perm xs.flatten := by
  have hself : (reorder names names xs).flatten = xs.flatten := by
    rw [flatten_reorder, List.flatMap_def, map_lookup names xs hnodup hlength]
  rw [← hself]
  exact (hnames.symm.filterMap _).flatten

theorem forall₂_flatten_perm {xs ys : List (List ℕ)} (h : List.Forall₂ List.Perm xs ys) :
    xs.flatten.Perm ys.flatten := by
  induction h with
  | nil => exact .nil
  | cons hfirst _ ih =>
    rw [List.flatten_cons, List.flatten_cons]
    exact hfirst.append ih

theorem callsEach_length (asWritten : Bool) (es : List Expr) :
    (callsEach d asWritten es).length = es.length := by
  rw [callsEach_eq, List.length_map]

mutual

/-- What is emitted in another order is performed all the same. -/
theorem calls_perm (e : Expr) (h : acceptsExpr d e = true) :
    (calls d false e).Perm (calls d true e) := by
  cases e with
  | constant text type => exact .nil
  | «variable» name type => exact .nil
  | operation op type operands =>
    simp only [acceptsExpr] at h
    simp only [calls]
    exact (forall₂_flatten_perm (callsEach_perm operands h)).append_right _
  | overloaded occ type path derived receiver others =>
    simp only [acceptsExpr, Bool.and_eq_true] at h
    obtain ⟨⟨hreceiver, hothers⟩, -⟩ := h
    have hfirst := calls_perm receiver hreceiver
    have hrest := forall₂_flatten_perm (callsEach_perm others hothers)
    cases derived with
    | false => exact (hfirst.append hrest).append_right _
    | true => exact ((hfirst.append hrest).trans List.perm_append_comm).append_right _
  | structLiteral op name names values =>
    simp only [acceptsExpr, Bool.and_eq_true, decide_eq_true_eq, List.isPerm_iff] at h
    obtain ⟨⟨⟨hvalues, hlength⟩, hnodup⟩, hnames⟩ := h
    have hlength' := hlength.trans (callsEach_length (d := d) false values).symm
    simp only [calls, Bool.false_eq_true, if_false, if_true]
    refine List.Perm.append_right _ ((reorder_perm hnames hnodup hlength').trans ?_)
    exact forall₂_flatten_perm (callsEach_perm values hvalues)
  | field obj name =>
    simp only [acceptsExpr, Bool.and_eq_true] at h
    exact calls_perm obj h.1
  | index obj index =>
    simp only [acceptsExpr, Bool.and_eq_true] at h
    exact (calls_perm obj h.1.1).append (calls_perm index h.1.2)
  | slice occ obj bounds =>
    simp only [acceptsExpr, Bool.and_eq_true] at h
    have hbounds := forall₂_flatten_perm (callsEach_perm bounds h.1.2)
    exact ((calls_perm obj h.1.1).append hbounds).append_right _
  | method occ type obj args =>
    simp only [acceptsExpr, Bool.and_eq_true] at h
    have hargs := forall₂_flatten_perm (callsEach_perm args h.1.2)
    exact ((calls_perm obj h.1.1).append hargs).append_right _
  | mapCall op type map args =>
    simp only [acceptsExpr, Bool.and_eq_true] at h
    have hargs := forall₂_flatten_perm (callsEach_perm args h.1.2)
    exact ((calls_perm map h.1.1).append hargs).append_right _

theorem callsEach_perm (es : List Expr) (h : acceptsExprs d es = true) :
    List.Forall₂ List.Perm (callsEach d false es) (callsEach d true es) := by
  cases es with
  | nil => exact .nil
  | cons e es =>
    simp only [acceptsExprs, Bool.and_eq_true] at h
    exact .cons (calls_perm e h.1) (callsEach_perm es h.2)

end

theorem forall₂_length {xs ys : List (List ℕ)} (h : List.Forall₂ List.Perm xs ys) :
    List.Forall₂ (fun x y => x.length = y.length) xs ys := h.imp fun _ _ hxy => hxy.length_eq

theorem busyField_iff {names : List String} {values : List Expr} (name : String) :
    busyField d names values name = true ↔
      ((names.zip (callsEach d true values)).lookup name).getD [] ≠ [] := by
  rw [busyField, callsEach_eq, lookup_zip_map]
  cases (names.zip values).lookup name with
  | none => simp
  | some value => simp

mutual

/-- What is emitted is in the order in which it is written if and only if each struct literal and
each derived operator is. -/
theorem calls_eq_iff (e : Expr) (h : acceptsExpr d e = true) (hnodup : (calls d true e).Nodup) :
    calls d false e = calls d true e ↔ inOrder d e = true := by
  cases e with
  | constant text type => simp [calls, inOrder]
  | «variable» name type => simp [calls, inOrder]
  | operation op type operands =>
    simp only [acceptsExpr] at h
    simp only [calls] at hnodup ⊢
    have hoperands := callsEach_eq_iff operands h (List.nodup_append.mp hnodup).1
    rw [List.append_left_inj, flatten_eq_iff (forall₂_length (callsEach_perm operands h)),
      hoperands, inOrder]
  | overloaded occ type path derived receiver others =>
    simp only [acceptsExpr, Bool.and_eq_true] at h
    obtain ⟨⟨hreceiver, hothers⟩, -⟩ := h
    have hfirst := calls_perm receiver hreceiver
    have heach := callsEach_perm others hothers
    have hrest := forall₂_flatten_perm heach
    cases derived with
    | false =>
      simp only [calls, Bool.false_eq_true, if_false, Bool.and_false] at hnodup ⊢
      have hparts := List.nodup_append.mp (List.nodup_append.mp hnodup).1
      rw [List.append_left_inj, append_eq_iff hfirst.length_eq,
        flatten_eq_iff (forall₂_length heach), calls_eq_iff receiver hreceiver hparts.1,
        callsEach_eq_iff others hothers hparts.2.1]
      simp [inOrder]
    | true =>
      simp only [calls, Bool.false_eq_true, if_false, if_true, Bool.and_true] at hnodup ⊢
      have hboth := (List.nodup_append.mp hnodup).1
      have hparts := List.nodup_append.mp hboth
      rw [List.append_left_inj, append_swap_iff hfirst hrest hboth,
        flatten_eq_iff (forall₂_length heach), calls_eq_iff receiver hreceiver hparts.2.1,
        callsEach_eq_iff others hothers hparts.1]
      simp [inOrder]
  | structLiteral op name names values =>
    simp only [acceptsExpr, Bool.and_eq_true, decide_eq_true_eq, List.isPerm_iff] at h
    obtain ⟨⟨⟨hvalues, hlength⟩, hnames⟩, hperm⟩ := h
    simp only [calls, Bool.false_eq_true, if_false, if_true] at hnodup ⊢
    have hys := (List.nodup_append.mp hnodup).1
    rw [List.append_left_inj, flatten_reorder_eq_iff busyField_iff (callsEach_perm values hvalues)
      hperm hnames (hlength.trans (callsEach_length true values).symm) hys,
      callsEach_eq_iff values hvalues hys]
    simp [inOrder]
  | field obj name =>
    simp only [acceptsExpr, Bool.and_eq_true] at h
    exact calls_eq_iff obj h.1 hnodup
  | index obj index =>
    simp only [acceptsExpr, Bool.and_eq_true] at h
    simp only [calls] at hnodup ⊢
    have hparts := List.nodup_append.mp hnodup
    rw [append_eq_iff (calls_perm obj h.1.1).length_eq, calls_eq_iff obj h.1.1 hparts.1,
      calls_eq_iff index h.1.2 hparts.2.1]
    simp [inOrder]
  | slice occ obj bounds =>
    simp only [acceptsExpr, Bool.and_eq_true] at h
    simp only [calls] at hnodup ⊢
    have hparts := List.nodup_append.mp (List.nodup_append.mp hnodup).1
    rw [List.append_left_inj, append_eq_iff (calls_perm obj h.1.1).length_eq,
      flatten_eq_iff (forall₂_length (callsEach_perm bounds h.1.2)),
      calls_eq_iff obj h.1.1 hparts.1, callsEach_eq_iff bounds h.1.2 hparts.2.1]
    simp [inOrder]
  | method occ type obj args =>
    simp only [acceptsExpr, Bool.and_eq_true] at h
    simp only [calls] at hnodup ⊢
    have hparts := List.nodup_append.mp (List.nodup_append.mp hnodup).1
    rw [List.append_left_inj, append_eq_iff (calls_perm obj h.1.1).length_eq,
      flatten_eq_iff (forall₂_length (callsEach_perm args h.1.2)),
      calls_eq_iff obj h.1.1 hparts.1, callsEach_eq_iff args h.1.2 hparts.2.1]
    simp [inOrder]
  | mapCall op type map args =>
    simp only [acceptsExpr, Bool.and_eq_true] at h
    simp only [calls] at hnodup ⊢
    have hparts := List.nodup_append.mp (List.nodup_append.mp hnodup).1
    rw [List.append_left_inj, append_eq_iff (calls_perm map h.1.1).length_eq,
      flatten_eq_iff (forall₂_length (callsEach_perm args h.1.2)),
      calls_eq_iff map h.1.1 hparts.1, callsEach_eq_iff args h.1.2 hparts.2.1]
    simp [inOrder]

theorem callsEach_eq_iff (es : List Expr) (h : acceptsExprs d es = true)
    (hnodup : (callsEach d true es).flatten.Nodup) :
    callsEach d false es = callsEach d true es ↔ inOrderAll d es = true := by
  cases es with
  | nil => simp [callsEach, inOrderAll]
  | cons e es =>
    simp only [acceptsExprs, Bool.and_eq_true] at h
    simp only [callsEach, List.flatten_cons] at hnodup ⊢
    have hparts := List.nodup_append.mp hnodup
    rw [List.cons.injEq, calls_eq_iff e h.1 hparts.1, callsEach_eq_iff es h.2 hparts.2.1]
    simp [inOrderAll]

end

variable {e : Expr}

/-- An accepted expression, the calls of which are told apart, is evaluated in the order in which it
is written, and each call once, if and only if it can be compiled, no attempt to take an element of
a map for a place performs anything, and nothing is emitted before what stands in front of it. -/
theorem evaluatesAsWritten_iff (h : acceptsExpr d e = true) (hnodup : (calls d true e).Nodup) :
    EvaluatesAsWritten d e ↔
      supported d e = true ∧ repeated d e = [] ∧ inOrder d e = true := by
  have hlogs : ∀ c, (∀ s, exec tracing c s = some ((), s ++ calls d true e)) ↔
      effects c = calls d true e := by
    intro c
    constructor
    · intro hexec
      obtain ⟨_, hlog⟩ := exec_logs c []
      rw [hexec] at hlog
      exact (Prod.ext_iff.mp (Option.some.inj hlog)).2.symm
    · intro heq s
      obtain ⟨_, hlog⟩ := exec_logs c s
      rw [hlog, heq]
  simp only [EvaluatesAsWritten, hlogs]
  rw [← calls_eq_iff e h hnodup]
  constructor
  · rintro ⟨c, hc, heffects⟩
    have hlength := ((emitted e).value hc).all.length_eq
    rw [heffects, List.length_append, (calls_perm e h).length_eq] at hlength
    have hrepeated : repeated d e = [] := List.length_eq_zero_iff.mp (by omega)
    refine ⟨by rw [← emitExpr_isSome, hc]; rfl, hrepeated, ?_⟩
    rw [← (repeated_eq_nil_iff hc).mp hrepeated, heffects]
  · rintro ⟨hsupported, hrepeated, horder⟩
    rw [← emitExpr_isSome] at hsupported
    obtain ⟨c, hc⟩ := Option.isSome_iff_exists.mp hsupported
    exact ⟨c, hc, ((repeated_eq_nil_iff hc).mp hrepeated).trans horder⟩

/-- A call that gives a number. -/
def numberCall (occ : ℕ) : Expr := .operation (.perform occ) i32 []

/-- A program that declares a struct of two numbers. -/
def pairProgram : Declarations where
  declared name := if name = "Pair" then some (.struct [("x", i32), ("y", i32)]) else none
  implements _ _ := false
  orderMethod _ := none
  apart := by decide

/-- `Pair { x: f(), y: g() }`, with the fields in either order. -/
def pairLiteral (names : List String) : Expr :=
  .structLiteral (.compute "Pair") "Pair" names [numberCall 0, numberCall 1]

theorem orderedPair_evaluates :
    acceptsExpr pairProgram (pairLiteral ["x", "y"]) = true ∧
      (EvaluatesAsWritten pairProgram (pairLiteral ["x", "y"]) ↔
        supported pairProgram (pairLiteral ["x", "y"]) = true ∧
          repeated pairProgram (pairLiteral ["x", "y"]) = [] ∧
          inOrder pairProgram (pairLiteral ["x", "y"]) = true) := by
  have haccepts : acceptsExpr pairProgram (pairLiteral ["x", "y"]) = true := by decide
  exact ⟨haccepts, evaluatesAsWritten_iff haccepts (by decide)⟩

/-- The fields of a struct literal are evaluated in the order in which they are declared. -/
theorem swappedPair_reversed :
    acceptsExpr pairProgram (pairLiteral ["y", "x"]) = true ∧
      (∃ c, emitExpr pairProgram (pairLiteral ["y", "x"]) = some c ∧
        exec tracing c [] = some ((), [1, 0])) ∧
      calls pairProgram true (pairLiteral ["y", "x"]) = [0, 1] ∧
      ¬ EvaluatesAsWritten pairProgram (pairLiteral ["y", "x"]) := by
  have hemit : emitExpr pairProgram (pairLiteral ["y", "x"]) = some (.operation (.compute "Pair")
      [.operation (.perform 1) [], .operation (.perform 0) []]) := rfl
  have hexec : exec tracing (.operation (.compute "Pair")
      [.operation (.perform 1) [], .operation (.perform 0) []]) [] = some ((), [1, 0]) := rfl
  refine ⟨by decide, ⟨_, hemit, hexec⟩, rfl, ?_⟩
  rintro ⟨c, hc, hwritten⟩
  rw [hemit] at hc
  cases hc
  have hfirst := hwritten []
  rw [hexec] at hfirst
  cases hfirst

end Orders

end NewClLang.EvaluationOrder
