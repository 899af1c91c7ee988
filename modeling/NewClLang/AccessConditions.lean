import NewClLang.AccessExpressions

set_option autoImplicit false

/-!
# Which accesses are compiled

`emit_lvalue` is called for objects of all kinds, and takes the ones that are rooted in a variable or
in an element of a slice. What code performs is compared with what the expression should perform.
-/
namespace NewClLang.AccessConditions
open TypeRefs Comparisons AccessExpressions

section Calls

def Operation.calls : Operation → List ℕ
  | .compute _ => []
  | .perform occ => [occ]

mutual

/-- What code performs, in this order. -/
def effects : Code → List ℕ
  | .constant _ => []
  | .load p => effectsPlace p
  | .address p => effectsPlace p
  | .temporary value => effects value
  | .operation op operands => (effectsEach operands).flatten ++ Operation.calls op
  | .afterAttempt attempt value => effectsPlace attempt ++ effects value

def effectsPlace : Place → List ℕ
  | .variable _ => []
  | .field struct _ => effectsPlace struct
  | .through pointer _ => effects pointer
  | .element source index => effects source ++ effects index

def effectsEach : List Code → List (List ℕ)
  | [] => []
  | c :: cs => effects c :: effectsEach cs

end

variable (d : Declarations)

mutual

/-- The operations of an expression that may change the state, in the order in which they are
written or in the one in which they are emitted. -/
def calls (asWritten : Bool) : Expr → List ℕ
  | .constant _ _ => []
  | .variable _ _ => []
  | .operation op _ operands => (callsEach asWritten operands).flatten ++ Operation.calls op
  | .overloaded occ _ _ derived receiver others =>
    if asWritten && derived then
      (callsEach asWritten others).flatten ++ calls asWritten receiver ++ [occ]
    else calls asWritten receiver ++ (callsEach asWritten others).flatten ++ [occ]
  | .structLiteral op name names values =>
    if asWritten then (callsEach asWritten values).flatten ++ Operation.calls op
    else
      (reorder (declaredNames d name) names (callsEach asWritten values)).flatten ++
        Operation.calls op
  | .field obj _ => calls asWritten obj
  | .index obj index => calls asWritten obj ++ calls asWritten index
  | .slice occ obj bounds => calls asWritten obj ++ (callsEach asWritten bounds).flatten ++ [occ]
  | .method occ _ obj args => calls asWritten obj ++ (callsEach asWritten args).flatten ++ [occ]
  | .mapCall op _ map args =>
    calls asWritten map ++ (callsEach asWritten args).flatten ++ Operation.calls op

def callsEach (asWritten : Bool) : List Expr → List (List ℕ)
  | [] => []
  | e :: es => calls asWritten e :: callsEach asWritten es

end

end Calls

section Conditions
variable (d : Declarations)

/-- An object that `emit_lvalue` can take: at its root is a variable, or an element of a slice. -/
def rooted : Expr → Bool
  | .variable _ _ => true
  | .field obj _ => rooted obj
  | .index obj _ => isSlice (typeOf d obj) || (isArray (typeOf d obj) && rooted obj)
  | _ => false

mutual

/-- The object of each access to a field, to an element of an array or to the receiver that a name,
a field or an element stands for is rooted. -/
def supported : Expr → Bool
  | .constant _ _ => true
  | .variable _ _ => true
  | .operation _ _ operands => supportedAll operands
  | .overloaded _ _ path _ receiver others =>
    supported receiver && supportedAll others &&
      (rooted d receiver || (path.isEmpty && !isPlaceNode receiver))
  | .structLiteral _ _ _ values => supportedAll values
  | .field obj _ => supported obj && rooted d obj
  | .index obj index =>
    supported obj && supported index &&
      (isMap (typeOf d obj) || decide (typeOf d obj = str) || isSlice (typeOf d obj) ||
        (isArray (typeOf d obj) && rooted d obj))
  | .slice _ obj bounds =>
    supported obj && supportedAll bounds &&
      (isSlice (typeOf d obj) || decide (typeOf d obj = str) ||
        (isArray (typeOf d obj) && rooted d obj))
  | .method _ _ obj args =>
    supported obj && supportedAll args &&
      (rooted d obj || !(structFields d (typeOf d obj)).isSome || !isPlaceNode obj)
  | .mapCall _ _ map args => supported map && supportedAll args

def supportedAll : List Expr → Bool
  | [] => true
  | e :: es => supported e && supportedAll es

end

mutual

/-- The operations that are performed a second time: those of a rooted map an element of which is
taken for a map. -/
def repeated : Expr → List ℕ
  | .constant _ _ => []
  | .variable _ _ => []
  | .operation _ _ operands => (repeatedEach operands).flatten
  | .overloaded _ _ _ _ receiver others => repeated receiver ++ (repeatedEach others).flatten
  | .structLiteral _ name names values =>
    (reorder (declaredNames d name) names (repeatedEach values)).flatten
  | .field obj _ => repeated obj
  | .index obj index =>
    (if isMap (typeOf d obj) then attempted obj else []) ++ repeated obj ++ repeated index
  | .slice _ obj bounds => repeated obj ++ (repeatedEach bounds).flatten
  | .method _ _ obj args => repeated obj ++ (repeatedEach args).flatten
  | .mapCall _ _ map args => attempted map ++ repeated map ++ (repeatedEach args).flatten

/-- What the attempt to take an element of a map for a place performs. -/
def attempted : Expr → List ℕ
  | .index obj _ =>
    if isSlice (typeOf d obj) || isArray (typeOf d obj) then []
    else if rooted d obj then calls d false obj ++ repeated obj
    else attempted obj
  | _ => []

def repeatedEach : List Expr → List (List ℕ)
  | [] => []
  | e :: es => repeated e :: repeatedEach es

end

end Conditions

section Emissions
variable {d : Declarations}

theorem isArray_of_not_isSlice {t : TypeRef} (h : isArray t = true) : isSlice t = false := by
  cases t with
  | array length elem => rfl
  | _ => cases h

theorem isMap_apart {t : TypeRef} (h : isMap t = true) :
    isSlice t = false ∧ isArray t = false ∧ t ≠ str := by
  cases t with
  | generic base args => exact ⟨rfl, rfl, fun heq => nomatch heq⟩
  | _ => cases h

theorem str_apart : isMap str = false ∧ isSlice str = false ∧ isArray str = false :=
  ⟨rfl, rfl, rfl⟩

theorem fieldLvalue_isSome (t : TypeRef) (name : String) (lvalue : Lvalue) :
    (fieldLvalue t name lvalue).place?.isSome = lvalue.place?.isSome := by
  cases lvalue with
  | place p => rfl
  | refused attempt => rfl

theorem elementLvalue_isSome (t : TypeRef) (lvalue : Lvalue) (value index : Option Code) :
    (elementLvalue t lvalue value index).place?.isSome =
      if isSlice t then value.isSome && index.isSome
      else isArray t && lvalue.place?.isSome && index.isSome := by
  unfold elementLvalue
  by_cases hslice : isSlice t = true
  · rw [if_pos hslice, if_pos hslice]
    cases value <;> cases index <;> rfl
  · rw [if_neg hslice, if_neg hslice]
    cases lvalue with
    | refused attempt => simp [Lvalue.place?]
    | place p =>
      by_cases harray : isArray t = true
      · cases index <;> simp [harray, Lvalue.place?]
      · simp [harray, Lvalue.place?]

theorem mapPointer_isSome (lvalue : Lvalue) (value : Option Code) :
    (mapPointer lvalue value).isSome = (lvalue.place?.isSome || value.isSome) := by
  cases lvalue with
  | place p => rfl
  | refused attempt => cases attempt <;> simp [mapPointer, Lvalue.place?]

theorem receiverArg_isSome (receiver : Expr) (lvalue : Lvalue) (value : Option Code) :
    (receiverArg receiver lvalue value).isSome =
      if isPlaceNode receiver then lvalue.place?.isSome else value.isSome := by
  unfold receiverArg
  split <;> simp

theorem isSome_pair {α β γ : Type} (x : Option α) (y : Option β) (f : α → β → γ) :
    (do
      let a ← x
      let b ← y
      some (f a b)).isSome = (x.isSome && y.isSome) := by
  cases x with
  | none => rfl
  | some a => cases y <;> rfl

theorem overloadArg_isSome (receiver : Expr) (path : List String) (lvalue : Lvalue)
    (value : Option Code) :
    (overloadArg d receiver path lvalue value).isSome =
      if path.isEmpty && !isPlaceNode receiver then value.isSome else lvalue.place?.isSome := by
  unfold overloadArg
  cases path with
  | nil => cases hnode : isPlaceNode receiver <;> simp [receiverArg_isSome, hnode]
  | cons name path => simp

theorem methodArg_isSome (isStruct : Bool) (obj : Expr) (lvalue : Lvalue) (value : Option Code) :
    (methodArg isStruct obj lvalue value).isSome =
      if isStruct && isPlaceNode obj then lvalue.place?.isSome else value.isSome := by
  unfold methodArg
  cases isStruct with
  | false => simp
  | true => simp [receiverArg_isSome]

theorem sliceSource_isSome (t : TypeRef) (lvalue : Lvalue) (value : Option Code) :
    (sliceSource t lvalue value).isSome =
      ((isArray t && lvalue.place?.isSome) ||
        ((isSlice t || decide (t = str)) && value.isSome)) := by
  unfold sliceSource
  by_cases harray : isArray t = true
  · have hslice := isArray_of_not_isSlice harray
    have hstr : t ≠ str := by
      rintro rfl
      cases harray
    simp [harray, hslice, hstr]
  · rw [if_neg harray]
    by_cases hslice : isSlice t = true
    · simp [harray, hslice]
    · by_cases hstr : t = str
      · subst hstr
        simp [str_apart]
      · simp [harray, hslice, hstr]

mutual

theorem emitExpr_isSome (e : Expr) : (emitExpr d e).isSome = supported d e := by
  cases e with
  | constant text type => rfl
  | «variable» name type => rfl
  | operation op type operands =>
    simp only [emitExpr, supported]
    rw [← emitExprs_isSome operands]
    cases emitExprs d operands <;> rfl
  | overloaded occ type path derived receiver others =>
    have hlvalue := emitLvalue_isSome receiver
    have hvalue := emitExpr_isSome receiver
    simp only [emitExpr, supported]
    rw [isSome_pair, overloadArg_isSome, hlvalue, hvalue, emitExprs_isSome others]
    cases rooted d receiver <;> cases path.isEmpty && !isPlaceNode receiver <;> simp
  | structLiteral op name names values =>
    simp only [emitExpr, supported]
    rw [← emitExprs_isSome values]
    cases emitExprs d values <;> rfl
  | field obj name =>
    simp only [emitExpr, supported, Option.isSome_map, fieldLvalue_isSome]
    rw [emitLvalue_isSome obj, Bool.and_comm]
  | index obj index =>
    have hlvalue := emitLvalue_isSome obj
    have hvalue := emitExpr_isSome obj
    have hindex := emitExpr_isSome index
    simp only [emitExpr, supported]
    by_cases hmap : isMap (typeOf d obj) = true
    · rw [if_pos hmap, isSome_pair, mapPointer_isSome, hlvalue, hvalue, hindex, hmap]
      cases rooted d obj <;> simp
    · rw [if_neg hmap]
      by_cases hstr : typeOf d obj = str
      · rw [if_pos hstr, isSome_pair, hvalue, hindex]
        simp [hstr]
      · rw [if_neg hstr, Option.isSome_map, elementLvalue_isSome, hlvalue, hvalue, hindex]
        cases hslice : isSlice (typeOf d obj) <;> cases isArray (typeOf d obj) <;>
          cases rooted d obj <;> simp [hmap, hstr]
  | slice occ obj bounds =>
    have hlvalue := emitLvalue_isSome obj
    have hvalue := emitExpr_isSome obj
    simp only [emitExpr, supported]
    rw [isSome_pair, sliceSource_isSome, hlvalue, hvalue, emitExprs_isSome bounds]
    cases isSlice (typeOf d obj) || decide (typeOf d obj = str) <;>
      cases isArray (typeOf d obj) <;> cases rooted d obj <;> simp
  | method occ type obj args =>
    have hlvalue := emitLvalue_isSome obj
    have hvalue := emitExpr_isSome obj
    simp only [emitExpr, supported]
    rw [isSome_pair, methodArg_isSome, hlvalue, hvalue, emitExprs_isSome args]
    cases rooted d obj <;> cases (structFields d (typeOf d obj)).isSome <;>
      cases isPlaceNode obj <;> simp
  | mapCall op type map args =>
    simp only [emitExpr, supported]
    rw [isSome_pair, mapPointer_isSome, emitLvalue_isSome map, emitExpr_isSome map,
      emitExprs_isSome args]
    cases rooted d map <;> simp

theorem emitLvalue_isSome (e : Expr) :
    (emitLvalue d e).place?.isSome = (rooted d e && supported d e) := by
  cases e with
  | «variable» name type => rfl
  | field obj name =>
    simp only [emitLvalue, supported, rooted, fieldLvalue_isSome]
    rw [emitLvalue_isSome obj]
    cases rooted d obj <;> simp
  | index obj index =>
    simp only [emitLvalue, supported, rooted, elementLvalue_isSome]
    rw [emitLvalue_isSome obj, emitExpr_isSome obj, emitExpr_isSome index]
    cases isSlice (typeOf d obj) <;> cases isArray (typeOf d obj) <;> cases rooted d obj <;> simp
  | _ => simp [emitLvalue, Lvalue.place?, rooted]

theorem emitExprs_isSome (es : List Expr) : (emitExprs d es).isSome = supportedAll d es := by
  cases es with
  | nil => rfl
  | cons e es =>
    simp only [emitExprs, supportedAll]
    rw [← emitExpr_isSome e, ← emitExprs_isSome es]
    cases emitExpr d e <;> cases emitExprs d es <;> rfl

end

end Emissions

end NewClLang.AccessConditions
