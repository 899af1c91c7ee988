import NewClLang.Comparisons

set_option autoImplicit false

/-!
# Match expressions

What the type checker lets through of a `match` (`infer_match_value`), and the chain of basic blocks
that is emitted for it (`emit_match_expr`, `match_condition`).
-/
namespace NewClLang.MatchExpressions
open TypeRefs Comparisons

section Syntax

/-- The patterns that `match_pattern_key` knows. -/
inductive Pattern where
  | enumRef (enum variant : String)
  | integer (value : ℤ) (type : {name : String // name ∈ integerTypes})
  | string (text : List UInt8)
  | bool (value : Bool)
deriving DecidableEq

/-- `match_pattern_key`: the value of an integer goes without its type. -/
inductive Key where
  | enum (enum variant : String)
  | int (value : ℤ)
  | str (text : List UInt8)
  | bool (value : Bool)
deriving DecidableEq

def Pattern.key : Pattern → Key
  | .enumRef enum variant => .enum enum variant
  | .integer value _ => .int value
  | .string text => .str text
  | .bool value => .bool value

def Pattern.type : Pattern → TypeRef
  | .enumRef enum _ => .named enum
  | .integer _ type => .named type.1
  | .string _ => str
  | .bool _ => .named "bool"

/-- The type of an expression that does not yield. -/
def never : TypeRef := .named "__never"

def void : TypeRef := .named "void"

/-- What the run of a body ends with: it leaves the match, or it yields a value. -/
inductive Outcome (σ β : Type) where
  | leaves (s : σ)
  | yields (value : β) (s : σ)

/-- An arm; `else` has no pattern. `terminated` says whether the emission of the body has ended with
a terminator. -/
structure Arm (σ β : Type) where
  pattern : Option Pattern
  type : TypeRef
  terminated : Bool
  run : σ → Outcome σ β
  terminated_of_never : type = never → terminated = true

/-- Declarations, among which only pointers implement an interface. -/
structure Program extends Declarations where
  pointers_implement : ∀ t name, implements t name = true → Comparisons.isPointer t = true

end Syntax

section Checking
variable {σ β : Type} (d : Program)

/-- The variants of an enum type. -/
def enumVariants : TypeRef → Option (List String)
  | .named name =>
    match d.declared name with
    | some (.enum variants) => some variants
    | _ => none
  | _ => none

/-- `merge_value_types`, with `None` for no arm so far. -/
def mergeValueTypes (left : Option TypeRef) (right : TypeRef) : Option TypeRef :=
  match left with
  | none => some right
  | some left =>
    if left = never then some right
    else if right = never then some left
    else if isAssignable d.toDeclarations right left then some left
    else none

/-- What the loop over the arms has found. -/
structure Seen where
  result : Option TypeRef
  seenElse : Bool
  patterns : List Key
  variants : List String

/-- The checks of a pattern. -/
def acceptsPattern (scrutType : TypeRef) (seen : Seen) (p : Pattern) : Bool :=
  (match p with
    | .enumRef enum variant =>
      match enumVariants d (.named enum) with
      | some variants => variants.contains variant
      | none => false
    | _ => true) &&
  (if scrutType = .named "error" then decide (p.type = str)
    else isAssignable d.toDeclarations p.type scrutType) &&
  !seen.patterns.contains p.key

def Pattern.variant? : Pattern → Option String
  | .enumRef _ variant => some variant
  | _ => none

/-- One turn of the loop. -/
def checkArm (scrutType : TypeRef) (isLast : Bool) (seen : Seen) (arm : Arm σ β) : Option Seen := do
  if seen.seenElse then none
  else
    match arm.pattern with
    | none =>
      if !isLast then none
      else
        let result ← mergeValueTypes d seen.result arm.type
        some { seen with result := some result, seenElse := true }
    | some p =>
      if !acceptsPattern d scrutType seen p then none
      else
        let result ← mergeValueTypes d seen.result arm.type
        some ⟨some result, false, p.key :: seen.patterns, p.variant?.toList ++ seen.variants⟩

def checkArms (scrutType : TypeRef) : Seen → List (Arm σ β) → Option Seen
  | seen, [] => some seen
  | seen, arm :: arms => do
    let seen ← checkArm d scrutType arms.isEmpty seen arm
    checkArms scrutType seen arms

/-- `infer_match_value`: the type of the result. -/
def inferMatchValue (scrutType : TypeRef) (arms : List (Arm σ β)) : Option TypeRef :=
  if arms.isEmpty then none
  else
    match checkArms d scrutType ⟨none, false, [], []⟩ arms with
    | none => none
    | some seen =>
      if seen.seenElse then seen.result
      else if scrutType = .named "error" then none
      else
        match enumVariants d scrutType with
        | none => none
        | some variants =>
          if variants.all seen.variants.contains then seen.result else none

end Checking

section Values
variable (d : Program)

/-- The values of a scrutinee. -/
inductive Subject where
  | int (width : ℕ) (bits : BitVec width)
  | str (text : List UInt8)
  | error (message : List UInt8)
  | other
deriving DecidableEq

/-- `ENUM_VARIANTS`: the number of a variant, the last where its name is repeated. -/
def variantIndex (i : ℕ) : List String → String → Option ℕ
  | [], _ => none
  | name :: names, variant =>
    match variantIndex (i + 1) names variant with
    | some j => some j
    | none => if name = variant then some i else none

/-- The value of a variant. -/
def variantValue (variants : List String) (variant : String) : Option (BitVec 32) :=
  (variantIndex 0 variants variant).map (BitVec.ofNat 32)

/-- The values that an expression of a type can take. The value of an enum is that of a variant, or
the zero that a map gives for a key it does not have. -/
def Takes (t : TypeRef) (v : Subject) : Prop :=
  match enumVariants d t with
  | some variants => ∃ bits : BitVec 32, v = .int 32 bits ∧
      (bits = 0 ∨ ∃ variant, variantValue variants variant = some bits)
  | none =>
    match llvmType d.toDeclarations t with
    | .int width => ∃ bits : BitVec width, v = .int width bits
    | .str => ∃ text, v = .str text
    | _ => if t = .named "error" then ∃ message, v = .error message else v = .other

/-- The value of a pattern. -/
def patternValue : Pattern → Option Subject
  | .enumRef enum variant =>
    match enumVariants d (.named enum) with
    | some variants => (variantValue variants variant).map (.int 32)
    | none => none
  | .integer value type => (intWidth type.1).map fun w => .int w (BitVec.ofInt w value)
  | .string text => some (.str text)
  | .bool value => some (.int 1 (BitVec.ofBool value))

/-- A pattern equals a value; of an error its message counts. -/
def Matches (p : Pattern) : Subject → Prop
  | .error message => p = .string message
  | v => patternValue d p = some v

instance (p : Pattern) (v : Subject) : Decidable (Matches d p v) := by
  cases v <;> exact inferInstanceAs (Decidable (_ = _))

end Values

section Emission
variable {σ β : Type} (d : Program)

/-- `match_condition`. -/
def matchCondition (scrutType : TypeRef) (v : Subject) (p : Pattern) : Option Bool :=
  if scrutType = .named "error" then
    match v, patternValue d p with
    | .error a, some (.str b) => some (decide (strEq a b ≠ 0))
    | _, _ => none
  else if scrutType = str then
    match v, patternValue d p with
    | .str a, some (.str b) => some (decide (strEq a b ≠ 0))
    | _, _ => none
  else
    match v, patternValue d p with
    | .int v x, some (.int w y) => if h : w = v then some (decide (x = y.cast h)) else none
    | _, _ => none

/-- The basic blocks of a match: the one it is emitted in, and those it appends. -/
inductive Label where
  | start
  | arm (i : ℕ)
  | next (i : ℕ)
deriving DecidableEq

/-- The code of a basic block: how it ends. The body of an arm goes on to the end block. -/
inductive Code (σ β : Type) where
  | cbranch (pattern : Pattern) (body next : Label)
  | branch (body : Label)
  | body (arm : Arm σ β)
  | unreachable

/-- The loop of `emit_match_expr`, from the block that the builder is at. -/
def emitArms (i : ℕ) (current : Label) : List (Arm σ β) → List (Label × Code σ β)
  | [] => [(current, .unreachable)]
  | arm :: arms =>
    (current, match arm.pattern with
      | some p => .cbranch p (.arm i) (.next i)
      | none => .branch (.arm i)) ::
    (.arm i, .body arm) :: emitArms (i + 1) (.next i) arms

/-- Where `cast_to` makes of a value of the arm one of the result: the types are laid out alike, or
the value is the constant `nil`. -/
def Castable (actual result : TypeRef) : Prop :=
  actual = result ∨ (actual = nil ∧ isNullablePointer result = true) ∨
    ∃ inner, actual = .pointer inner false ∧ result = .pointer inner true

/-- The `phi` in the end block is well formed: there is none, or it has a type, and each value that
comes in is of it. -/
def PhiFormed (result : TypeRef) (arms : List (Arm σ β)) : Prop :=
  (∀ arm ∈ arms, arm.terminated = true) ∨ result = void ∨
    (result ≠ nil ∧ ∀ arm ∈ arms, arm.terminated = false → Castable arm.type result)

/-- A run of the emitted blocks from one of them. There is no result where `unreachable` is
executed. -/
def run (scrutType : TypeRef) (blocks : List (Label × Code σ β)) (v : Subject) :
    ℕ → Label → σ → Option (Outcome σ β)
  | 0, _, _ => none
  | fuel + 1, l, s =>
    match blocks.lookup l with
    | some (.cbranch p body next) =>
      match matchCondition d scrutType v p with
      | some true => run scrutType blocks v fuel body s
      | some false => run scrutType blocks v fuel next s
      | none => none
    | some (.branch body) => run scrutType blocks v fuel body s
    | some (.body arm) => some (arm.run s)
    | some .unreachable => none
    | none => none

/-- The first arm whose pattern equals a value, or `else`. -/
def firstMatch (v : Subject) : List (Arm σ β) → Option (Arm σ β)
  | [] => none
  | arm :: arms =>
    match arm.pattern with
    | some p => if Matches d p v then some arm else firstMatch v arms
    | none => some arm

/-- A run of the code of a match: the scrutinee, then the blocks. -/
def runMatch (scrutType : TypeRef) (scrut : σ → Outcome σ Subject) (arms : List (Arm σ β))
    (fuel : ℕ) (s : σ) : Option (Outcome σ β) :=
  match scrut s with
  | .leaves s => some (.leaves s)
  | .yields v s => run d scrutType (emitArms 0 .start arms) v fuel .start s

/-- The emitted match is well formed, and from every value that the scrutinee comes to it runs the
body of the first arm that matches and nothing else. -/
def Selects (scrutType : TypeRef) (result : TypeRef) (arms : List (Arm σ β)) : Prop :=
  PhiFormed result arms ∧ ∀ v, Takes d scrutType v → ∃ arm, firstMatch d v arms = some arm ∧
    ∀ (scrut : σ → Outcome σ Subject) (s s' : σ), scrut s = .yields v s' →
      ∃ fuel, runMatch d scrutType scrut arms fuel s = some (arm.run s')

end Emission

end NewClLang.MatchExpressions
