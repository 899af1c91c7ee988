import NewClLang.StatementParser

set_option autoImplicit false

/-!
# The precedence of the operators

The levels of `compiler/parser.py`: `||`, `&&`, comparisons, `+ - | ^`, `* / % << >> &`, and the
operators in front of an operand. An expression that is printed with the parentheses that its levels
need is parsed as the same expression.
-/
namespace NewClLang.OperatorPrecedence
open ExpressionParser Lexer ParsedNodes ParserBasics RoseTrees StatementParser TokenParsers
open PythonText (Interpreter)

section Expressions

/-- An identifier. The names of the constants that the compiler provides are none. -/
structure Name where
  word : String
  identifies : magicConsts.contains word = false

inductive BinaryOperator where
  | or | and | gt | lt | ge | le | eqeq | ne | plus | minus | pipe | caret | star | slash | percent
  | shl | shr | amp

inductive PrefixOperator where
  | not | tilde | minus

inductive Expr where
  | identifier (name : Name)
  | integer (value : ℤ) (suffix : Option String)
  | binary (op : BinaryOperator) (left right : Expr)
  | prefixed (op : PrefixOperator) (operand : Expr)

def BinaryOperator.kind : BinaryOperator → TokenKind
  | .or => .or
  | .and => .and
  | .gt => .gt
  | .lt => .lt
  | .ge => .ge
  | .le => .le
  | .eqeq => .eqeq
  | .ne => .ne
  | .plus => .plus
  | .minus => .minus
  | .pipe => .pipe
  | .caret => .caret
  | .star => .star
  | .slash => .slash
  | .percent => .percent
  | .shl => .shl
  | .shr => .shr
  | .amp => .amp

def BinaryOperator.word : BinaryOperator → List Char
  | .or => ['|', '|']
  | .and => ['&', '&']
  | .gt => ['>']
  | .lt => ['<']
  | .ge => ['>', '=']
  | .le => ['<', '=']
  | .eqeq => ['=', '=']
  | .ne => ['!', '=']
  | .plus => ['+']
  | .minus => ['-']
  | .pipe => ['|']
  | .caret => ['^']
  | .star => ['*']
  | .slash => ['/']
  | .percent => ['%']
  | .shl => ['<', '<']
  | .shr => ['>', '>']
  | .amp => ['&']

/-- The level of an operator. What binds tighter has a greater one. -/
def BinaryOperator.level : BinaryOperator → ℕ
  | .or => 0
  | .and => 1
  | .gt | .lt | .ge | .le | .eqeq | .ne => 2
  | .plus | .minus | .pipe | .caret => 3
  | .star | .slash | .percent | .shl | .shr | .amp => 4

def PrefixOperator.kind : PrefixOperator → TokenKind
  | .not => .not
  | .tilde => .tilde
  | .minus => .minus

def PrefixOperator.word : PrefixOperator → List Char
  | .not => ['!']
  | .tilde => ['~']
  | .minus => ['-']

/-- A token without its position. -/
abbrev Symbol := TokenKind × TokenValue

def parenthesized (symbols : List Symbol) : List Symbol :=
  (.lparen, .text ['(']) :: (symbols ++ [(.rparen, .text [')'])])

/-- The expression as an operand at a level. An operator of a lower level is in parentheses, and to
the right of an operator one of the same level is too. -/
def print : ℕ → Expr → List Symbol
  | _, .identifier name => [(.ident, .text name.word.toList)]
  | _, .integer value suffix => [(.integer, .integer value (suffix.map String.toList))]
  | m, .binary op left right =>
    let symbols := print op.level left ++ (op.kind, .text op.word) :: print (op.level + 1) right
    if m ≤ op.level then symbols else parenthesized symbols
  | _, .prefixed op operand => (op.kind, .text op.word) :: print 5 operand

/-- The nodes of an expression. -/
def tree : Expr → RoseTree Label
  | .identifier name => .node (.identifier name.word []) []
  | .integer value suffix => .node (.integerLiteral value suffix) []
  | .binary op left right => .node (.binaryOp (String.ofList op.word)) [tree left, tree right]
  | .prefixed op operand => .node (.unaryOp (String.ofList op.word)) [tree operand]

/-- The tokens, wherever they stand, are these symbols. -/
def Spelled (symbols : List Symbol) (tokens : List Token) : Prop :=
  tokens.map (fun t => (t.kind, t.value)) = symbols

end Expressions

section Levels
variable (py : Interpreter) (importedModules : List String) (self : Recursive)

/-- The operators of a level. -/
def opsAt : ℕ → List TokenKind
  | 0 => [.or]
  | 1 => [.and]
  | 2 => [.gt, .lt, .ge, .le, .eqeq, .ne]
  | 3 => [.plus, .minus, .pipe, .caret]
  | 4 => [.star, .slash, .percent, .shl, .shr, .amp]
  | _ => []

/-- The function of the parser for a level. -/
def levelParser : ℕ → Parse Node
  | 0 => parseLogicOr py importedModules self
  | 1 => parseLogicAnd py importedModules self
  | 2 => parseComparison py importedModules self
  | 3 => parseAdditive py importedModules self
  | 4 => parseMultiplicative py importedModules self
  | _ => parseUnary py importedModules self

/-- What stands behind an operand of a level: the end, a closing parenthesis or an operator of a lower
level. -/
def Follows (m : ℕ) (kind : TokenKind) : Prop :=
  kind = .eof ∨ kind = .rparen ∨ ∃ j < m, kind ∈ opsAt j

def Followed (m : ℕ) (rest : List Token) : Prop := ∃ t us, rest = t :: us ∧ Follows m t.kind

variable {py importedModules self} {m : ℕ} {kind : TokenKind}

theorem levelParser_eq (h : m < 5) : levelParser py importedModules self m =
    (levelParser py importedModules self (m + 1) >>=
      iterate (operatorTurn (opsAt m) (levelParser py importedModules self (m + 1))) self.fuel) := by
  match m, h with
  | 0, _ => rfl
  | 1, _ => rfl
  | 2, _ => rfl
  | 3, _ => rfl
  | 4, _ => rfl

theorem op_mem (op : BinaryOperator) : op.kind ∈ opsAt op.level := by
  cases op <;> decide

theorem level_lt (op : BinaryOperator) : op.level < 5 := by
  cases op <;> decide

theorem Follows.succ (h : Follows m kind) : Follows (m + 1) kind :=
  h.imp id (fun h => h.imp id (fun ⟨j, hj, hmem⟩ => ⟨j, Nat.lt_succ_of_lt hj, hmem⟩))

/-- The operators of two levels are not the same. -/
theorem ops_disjoint : ∀ j < 5, ∀ m < 5, ∀ kind ∈ opsAt j, kind ∈ opsAt m → j = m := by decide

theorem ops_closing : ∀ m < 5, TokenKind.eof ∉ opsAt m ∧ TokenKind.rparen ∉ opsAt m := by decide

theorem Follows.not_op (hm : m < 5) (h : Follows m kind) : kind ∉ opsAt m := by
  rcases h with rfl | rfl | ⟨j, hj, hmem⟩
  · exact (ops_closing m hm).1
  · exact (ops_closing m hm).2
  · exact fun hsame => Nat.ne_of_lt hj (ops_disjoint j (Nat.lt_trans hj hm) m hm kind hmem hsame)

/-- The tokens that go on with what stands before them. -/
def continuing : List TokenKind :=
  [.lparen, .lbracket, .dot, .questionquestion, .notnot, .kwErr, .kwMatch, .lbrace, .coloncolon]

theorem ops_continuing : ∀ j < 5, ∀ kind ∈ opsAt j, kind ∉ continuing := by decide

theorem Follows.not_continuing (hm : m ≤ 5) (h : Follows m kind) : kind ∉ continuing := by
  rcases h with rfl | rfl | ⟨j, hj, hmem⟩
  · decide
  · decide
  · exact ops_continuing j (Nat.lt_of_lt_of_le hj hm) kind hmem

end Levels

section Symbols
variable {a b : List Symbol} {tokens : List Token} {kind : TokenKind} {value : TokenValue}

theorem spelled_append (h : Spelled (a ++ b) tokens) :
    ∃ front back, tokens = front ++ back ∧ Spelled a front ∧ Spelled b back :=
  List.map_eq_append_iff.mp h

theorem spelled_cons (h : Spelled ((kind, value) :: b) tokens) :
    ∃ pos back, tokens = ⟨kind, value, pos⟩ :: back ∧ Spelled b back := by
  obtain ⟨t, back, rfl, ht, hback⟩ := List.map_eq_cons_iff.mp h
  obtain ⟨k, v, pos⟩ := t
  cases ht
  exact ⟨pos, back, rfl, hback⟩

theorem spelled_nil (h : Spelled [] tokens) : tokens = [] := List.map_eq_nil_iff.mp h

theorem spelled_singleton (h : Spelled [(kind, value)] tokens) :
    ∃ pos, tokens = [⟨kind, value, pos⟩] := by
  obtain ⟨pos, back, rfl, hback⟩ := spelled_cons h
  rw [spelled_nil hback]
  exact ⟨pos, rfl⟩

theorem print_ne_nil (m : ℕ) (e : Expr) : print m e ≠ [] := by
  cases e with
  | identifier name => exact List.cons_ne_nil _ _
  | integer value suffix => exact List.cons_ne_nil _ _
  | prefixed op operand => exact List.cons_ne_nil _ _
  | binary op left right =>
    rw [print]
    split
    · exact List.append_ne_nil_of_right_ne_nil _ (List.cons_ne_nil _ _)
    · exact List.cons_ne_nil _ _

theorem spelled_length (m : ℕ) (e : Expr) (h : Spelled (print m e) tokens) : 0 < tokens.length := by
  cases tokens with
  | nil => exact absurd h.symm (print_ne_nil m e)
  | cons t ts => exact Nat.succ_pos _

end Symbols

section Runs
variable {py : Interpreter} {importedModules : List String} {k m : ℕ} {e : Expr}

/-- The parser comes to the expression and to what is behind it. -/
def Parses (p : Parse Node) (last : Option Token) (tokens rest : List Token) (e : Expr) : Prop :=
  ∃ n last', p ⟨last, tokens ++ rest⟩ = .ok (n, ⟨last', rest⟩) ∧ n.map Labelled.label = tree e

/-- An expression that is printed as an operand of a level is parsed there. -/
def Reads (py : Interpreter) (importedModules : List String) (m : ℕ) (e : Expr) : Prop :=
  ∀ k tokens rest last, Spelled (print m e) tokens → tokens.length ≤ k → Followed m rest →
    Parses (levelParser py importedModules (parsers py importedModules k) m) last tokens rest e

/-- Behind an expression that is printed as an operand of a level, and in front of an operator of that
level too, its loop goes on with the expression as its left operand. -/
def Chains (py : Interpreter) (importedModules : List String) (m : ℕ) (e : Expr) : Prop :=
  ∀ k fuel tokens rest last, Spelled (print m e) tokens → tokens.length ≤ k →
    tokens.length ≤ fuel → Followed (m + 1) rest →
      ∃ n last' left, fuel + 1 ≤ left + tokens.length ∧ n.map Labelled.label = tree e ∧
        (levelParser py importedModules (parsers py importedModules k) (m + 1) >>=
          iterate (operatorTurn (opsAt m)
            (levelParser py importedModules (parsers py importedModules k) (m + 1))) fuel)
          ⟨last, tokens ++ rest⟩ =
        iterate (operatorTurn (opsAt m)
          (levelParser py importedModules (parsers py importedModules k) (m + 1))) left n
          ⟨last', rest⟩

theorem parsers_fuel : (parsers py importedModules k).fuel = k := by
  cases k <;> rfl

theorem turn_leaves {ops : List TokenKind} {parseOperand : Parse Node} {left : Node} {t : Token}
    {us : List Token} {last : Option Token} (h : t.kind ∉ ops) :
    operatorTurn ops parseOperand left ⟨last, t :: us⟩ = .ok (.inr left, ⟨last, t :: us⟩) := by
  rw [operatorTurn, peek_run, if_neg h]
  rfl

theorem turn_goes_on {ops : List TokenKind} {parseOperand : Parse Node} {left right : Node} {t : Token}
    {us : List Token} {last : Option Token} {c : Cursor Token} (h : t.kind ∈ ops)
    (hright : parseOperand ⟨some t, us⟩ = .ok (right, c)) :
    operatorTurn ops parseOperand left ⟨last, t :: us⟩ =
      .ok (.inl (node (.binaryOp (Token.text t)) [left, right]), c) := by
  rw [operatorTurn, peek_run, if_pos h, advance_run, bind_run hright]
  rfl

theorem chains_of_reads (hprint : print m e = print (m + 1) e)
    (h : Reads py importedModules (m + 1) e) : Chains py importedModules m e := by
  intro k fuel tokens rest last hspelled hk hfuel hrest
  have hlength := spelled_length m e hspelled
  rw [hprint] at hspelled
  obtain ⟨n, last', hrun, htree⟩ := h k tokens rest last hspelled hk hrest
  exact ⟨n, last', fuel, by omega, htree, bind_run hrun⟩

theorem reads_of_chains (hm : m < 5) (h : Chains py importedModules m e) :
    Reads py importedModules m e := by
  intro k tokens rest last hspelled hk hrest
  obtain ⟨t, us, rfl, hfollows⟩ := hrest
  obtain ⟨n, last', left, hleft, htree, hrun⟩ :=
    h k k tokens (t :: us) last hspelled hk hk ⟨t, us, rfl, hfollows.succ⟩
  obtain ⟨fuel, rfl⟩ : ∃ fuel, left = fuel + 1 := Nat.exists_eq_add_one.mpr (by omega)
  refine ⟨n, last', ?_, htree⟩
  rw [levelParser_eq hm, parsers_fuel, hrun]
  exact iterate_leave (turn_leaves (hfollows.not_op hm))

theorem chains_binary {op : BinaryOperator} {left right : Expr}
    (hleft : Chains py importedModules op.level left)
    (hright : Reads py importedModules (op.level + 1) right) :
    Chains py importedModules op.level (.binary op left right) := by
  intro k fuel tokens rest last hspelled hk hfuel hrest
  rw [print, if_pos (Nat.le_refl _)] at hspelled
  obtain ⟨front, back, rfl, hfront, hback⟩ := spelled_append hspelled
  obtain ⟨pos, behind, rfl, hbehind⟩ := spelled_cons hback
  rw [List.length_append, List.length_cons] at hk hfuel
  have hlength := spelled_length _ right hbehind
  have hop : Followed (op.level + 1) (⟨op.kind, .text op.word, pos⟩ :: (behind ++ rest)) :=
    ⟨_, _, rfl, Or.inr (Or.inr ⟨op.level, Nat.lt_succ_self _, op_mem op⟩)⟩
  obtain ⟨n, last', remaining, hremaining, htree, hrun⟩ :=
    hleft k fuel front _ last hfront (by omega) (by omega) hop
  obtain ⟨r, last'', hreads, hrtree⟩ := hright k behind rest
    (some ⟨op.kind, .text op.word, pos⟩) hbehind (by omega) hrest
  obtain ⟨spent, rfl⟩ : ∃ spent, remaining = spent + 1 := Nat.exists_eq_add_one.mpr (by omega)
  refine ⟨node (.binaryOp (String.ofList op.word)) [n, r], last'', spent, ?_, ?_, ?_⟩
  · rw [List.length_append, List.length_cons]
    omega
  · rw [tree, ← htree, ← hrtree]
    rfl
  · rw [List.append_assoc, List.cons_append, hrun]
    exact iterate_again (turn_goes_on (op_mem op) hreads)

theorem reads_descend {low high : ℕ} (hle : low ≤ high) (hhigh : high ≤ 5)
    (hprint : ∀ m, low ≤ m → m < high → print m e = print (m + 1) e)
    (h : Reads py importedModules high e) : Reads py importedModules low e := by
  obtain ⟨d, rfl⟩ := Nat.exists_eq_add_of_le hle
  induction d with
  | zero => exact h
  | succ d ih =>
    have hbelow : Reads py importedModules (low + d) e :=
      reads_of_chains (by omega) (chains_of_reads (hprint (low + d) (by omega) (by omega)) h)
    exact ih (by omega) (by omega) (fun m hlow hm => hprint m hlow (by omega)) hbelow

end Runs

section Operands
variable {py : Interpreter} {importedModules : List String} {self : Recursive} {first : ℕ}
  {last : Option Token} {t : Token} {us : List Token} {expr : Node}

theorem ne_of_not_continuing (h : t.kind ∉ continuing) : ∀ kind ∈ continuing, t.kind ≠ kind :=
  fun _ hkind heq => h (heq ▸ hkind)

theorem suffix_none (h : t.kind ∉ continuing) :
    suffix importedModules self first expr ⟨last, t :: us⟩ = .ok (none, ⟨last, t :: us⟩) := by
  obtain ⟨kind, value, pos⟩ := t
  cases kind with
  | lparen | lbracket | dot | questionquestion | notnot | kwErr | kwMatch =>
    simp [continuing] at h
  | _ => rfl

theorem parseNamed_name {start : Token} {name : String} (h : t.kind ∉ continuing) :
    parseNamed self start name ⟨last, t :: us⟩ =
      span (node (.identifier name []) []) start ⟨last, t :: us⟩ := by
  have hne := ne_of_not_continuing h
  have hbrace : t.kind ≠ .lbrace := hne _ (by decide)
  have hbehind : behindBrackets (t :: us) = none := if_neg (hne _ (by decide))
  have hqualified : qualifiedAhead (t :: us) = false := by
    have hdot : (kindAt (t :: us) 0 == some .dot) = false :=
      beq_eq_false_iff_ne.mpr (fun heq => hne _ (by decide) (Option.some.inj heq))
    rw [qualifiedAhead, hdot]
    rfl
  rw [parseNamed, peek_run, mark_run]
  dsimp only
  rw [hbehind, hqualified, if_neg (fun h => by cases h.2), if_neg (fun h => hbrace h.2),
    if_neg Bool.false_ne_true, if_neg (hne _ (by decide)),
    if_neg (fun h => by rcases h with h | h <;> cases h), parseStructOrName, peek_run, if_neg hbrace]

theorem expect_run {kind : TokenKind} (h : t.kind = kind) :
    expect kind ⟨last, t :: us⟩ = .ok (t, ⟨some t, us⟩) := by
  rw [expect, peek_run, if_neg (not_not.mpr h)]
  rfl

/-- An operand ends where nothing goes on with it. -/
theorem operand_run {first : Token} {behind : List Token} {last' : Option Token}
    (hfirst : first.kind ∉ [TokenKind.not, .tilde, .minus])
    (hprimary : parsePrimary py self ⟨last, first :: behind⟩ = .ok (expr, ⟨last', t :: us⟩))
    (h : t.kind ∉ continuing) (hfuel : 0 < self.fuel) :
    parseUnary py importedModules self ⟨last, first :: behind⟩ = .ok (expr, ⟨last', t :: us⟩) := by
  obtain ⟨fuel, hfuel⟩ := Nat.exists_eq_add_one.mpr hfuel
  have hturn : suffixTurn importedModules self first.pos expr ⟨last', t :: us⟩ =
      .ok (.inr expr, ⟨last', t :: us⟩) := by
    rw [suffixTurn, bind_run (suffix_none h)]
    rfl
  rw [parseUnary, peek_run, if_neg hfirst, parsePostfix, peek_run, bind_run hprimary, hfuel]
  exact iterate_leave hturn

theorem reads_identifier (name : Name) : Reads py importedModules 5 (.identifier name) := by
  rintro k tokens rest last hspelled hk ⟨t, us, rfl, hfollows⟩
  obtain ⟨pos, rfl⟩ := spelled_singleton hspelled
  have hcontinuing := hfollows.not_continuing (Nat.le_refl 5)
  have hword : Token.text ⟨.ident, .text name.word.toList, pos⟩ = name.word := String.ofList_toList
  have hprimary : parsePrimary py (parsers py importedModules k)
      ⟨last, ⟨.ident, .text name.word.toList, pos⟩ :: t :: us⟩ =
        .ok ((node (.identifier name.word []) []).withSpan (some ⟨pos, pos, some pos, none⟩),
          ⟨some ⟨.ident, .text name.word.toList, pos⟩, t :: us⟩) := by
    rw [parsePrimary, peek_run]
    dsimp only
    rw [parseIdentifier, advance_run, hword, name.identifies, if_neg Bool.false_ne_true,
      parseNamed_name hcontinuing]
    rfl
  have hfirst : TokenKind.ident ∉ [TokenKind.not, .tilde, .minus] := by decide
  refine ⟨_, _, operand_run hfirst hprimary hcontinuing ?_, rfl⟩
  rw [parsers_fuel]
  exact hk

theorem reads_integer (value : ℤ) (suffix : Option String) :
    Reads py importedModules 5 (.integer value suffix) := by
  rintro k tokens rest last hspelled hk ⟨t, us, rfl, hfollows⟩
  obtain ⟨pos, rfl⟩ := spelled_singleton hspelled
  have hprimary : parsePrimary py (parsers py importedModules k)
      ⟨last, ⟨.integer, .integer value (suffix.map String.toList), pos⟩ :: t :: us⟩ =
        .ok ((node (.integerLiteral value suffix) []).withSpan (some ⟨pos, pos, some pos, none⟩),
          ⟨some ⟨.integer, .integer value (suffix.map String.toList), pos⟩, t :: us⟩) := by
    have hlabel : integerLiteral ⟨.integer, .integer value (suffix.map String.toList), pos⟩ =
        .integerLiteral value suffix := by
      cases suffix with
      | none => rfl
      | some word => exact congrArg _ (congrArg some String.ofList_toList)
    rw [parsePrimary, peek_run]
    dsimp only
    rw [parseLiteral, advance_run, hlabel]
    rfl
  have hfirst : TokenKind.integer ∉ [TokenKind.not, .tilde, .minus] := by decide
  refine ⟨_, _, operand_run hfirst hprimary (hfollows.not_continuing (Nat.le_refl 5)) ?_, rfl⟩
  rw [parsers_fuel]
  exact hk

theorem reads_prefixed {op : PrefixOperator} {operand : Expr}
    (h : Reads py importedModules 5 operand) :
    Reads py importedModules 5 (.prefixed op operand) := by
  intro k tokens rest last hspelled hk hrest
  obtain ⟨pos, behind, rfl, hbehind⟩ := spelled_cons hspelled
  rw [List.length_cons] at hk
  obtain ⟨levels, rfl⟩ : ∃ levels, k = levels + 1 := Nat.exists_eq_add_one.mpr (by omega)
  obtain ⟨n, last', hrun, htree⟩ := h levels behind rest (some ⟨op.kind, .text op.word, pos⟩)
    hbehind (by omega) hrest
  have hkind : op.kind ∈ [TokenKind.not, .tilde, .minus] := by
    cases op <;> decide
  refine ⟨node (.unaryOp (String.ofList op.word)) [n], last', ?_, ?_⟩
  · change parseUnary py importedModules _ _ = _
    rw [parseUnary, List.cons_append, peek_run, if_pos hkind, advance_run]
    exact bind_run hrun
  · rw [tree, ← htree]
    rfl

theorem reads_parenthesized {e : Expr} (hprint : print 5 e = parenthesized (print 0 e))
    (h : Reads py importedModules 0 e) : Reads py importedModules 5 e := by
  rintro k tokens rest last hspelled hk ⟨t, us, rfl, hfollows⟩
  rw [hprint] at hspelled
  obtain ⟨pos, behind, rfl, hbehind⟩ := spelled_cons hspelled
  obtain ⟨inner, closing, rfl, hinner, hclosing⟩ := spelled_append hbehind
  obtain ⟨stop, rfl⟩ := spelled_singleton hclosing
  rw [List.length_cons, List.length_append, List.length_singleton] at hk
  obtain ⟨levels, rfl⟩ : ∃ levels, k = levels + 1 := Nat.exists_eq_add_one.mpr (by omega)
  obtain ⟨n, last', hrun, htree⟩ := h levels inner (⟨.rparen, .text [')'], stop⟩ :: t :: us)
    (some ⟨.lparen, .text ['('], pos⟩) hinner (by omega) ⟨_, _, rfl, Or.inr (Or.inl rfl)⟩
  have hprimary : parsePrimary py (parsers py importedModules (levels + 1))
      ⟨last, ⟨.lparen, .text ['('], pos⟩ :: (inner ++ ⟨.rparen, .text [')'], stop⟩ :: t :: us)⟩ =
        .ok (n, ⟨some ⟨.rparen, .text [')'], stop⟩, t :: us⟩) := by
    rw [parsePrimary, peek_run]
    dsimp only
    rw [parseParens, advance_run]
    exact (bind_run hrun).trans (bind_run (expect_run rfl))
  have hfirst : TokenKind.lparen ∉ [TokenKind.not, .tilde, .minus] := by decide
  refine ⟨n, some ⟨.rparen, .text [')'], stop⟩, ?_, htree⟩
  rw [List.cons_append, List.append_assoc]
  exact operand_run hfirst hprimary (hfollows.not_continuing (Nat.le_refl 5)) (Nat.succ_pos _)

end Operands

section RoundTrip
variable {py : Interpreter} {importedModules : List String}

theorem print_binary_low {op : BinaryOperator} {left right : Expr} {m : ℕ} (h : m ≤ op.level) :
    print m (.binary op left right) = print op.level (.binary op left right) := by
  rw [print, print, if_pos h, if_pos (Nat.le_refl _)]

theorem print_binary_high {op : BinaryOperator} {left right : Expr} {m : ℕ} (h : op.level < m) :
    print m (.binary op left right) = parenthesized (print 0 (.binary op left right)) := by
  rw [print, print, if_neg (Nat.not_le.mpr h), if_pos (Nat.zero_le _)]

/-- An expression is parsed at every level, as a whole and as the left operand of a chain. -/
structure ReadsAll (py : Interpreter) (importedModules : List String) (e : Expr) : Prop where
  reads : ∀ m ≤ 5, Reads py importedModules m e
  chains : ∀ m < 5, Chains py importedModules m e

/-- What is printed in the same way at every level. -/
theorem readsAll_operand {e : Expr} (hprint : ∀ m, print m e = print 5 e)
    (h : Reads py importedModules 5 e) : ReadsAll py importedModules e := by
  have hsame (m : ℕ) : print m e = print (m + 1) e := (hprint m).trans (hprint (m + 1)).symm
  have hreads (m : ℕ) (hm : m ≤ 5) : Reads py importedModules m e :=
    reads_descend hm (Nat.le_refl 5) (fun i _ _ => hsame i) h
  exact ⟨hreads, fun m hm => chains_of_reads (hsame m) (hreads (m + 1) hm)⟩

theorem readsAll_binary {op : BinaryOperator} {left right : Expr}
    (hleft : ReadsAll py importedModules left) (hright : ReadsAll py importedModules right) :
    ReadsAll py importedModules (.binary op left right) := by
  have hlevel := level_lt op
  have hchains : Chains py importedModules op.level (.binary op left right) :=
    chains_binary (hleft.chains _ hlevel) (hright.reads _ hlevel)
  have hbelow (m : ℕ) (hm : m < op.level) :
      print m (.binary op left right) = print (m + 1) (.binary op left right) :=
    (print_binary_low (Nat.le_of_lt hm)).trans (print_binary_low hm).symm
  have habove (m : ℕ) (hm : op.level < m) :
      print m (.binary op left right) = print (m + 1) (.binary op left right) :=
    (print_binary_high hm).trans (print_binary_high (Nat.lt_succ_of_lt hm)).symm
  have hlow (m : ℕ) (hm : m ≤ op.level) : Reads py importedModules m (.binary op left right) :=
    reads_descend hm (Nat.le_of_lt hlevel) (fun i _ hi => hbelow i hi)
      (reads_of_chains hlevel hchains)
  have hhigh (m : ℕ) (hm : op.level < m) (hle : m ≤ 5) :
      Reads py importedModules m (.binary op left right) :=
    reads_descend hle (Nat.le_refl 5) (fun i hi _ => habove i (Nat.lt_of_lt_of_le hm hi))
      (reads_parenthesized (print_binary_high hlevel) (hlow 0 (Nat.zero_le _)))
  refine ⟨fun m hm => ?_, fun m hm => ?_⟩
  · rcases Nat.lt_or_ge op.level m with hgt | hle
    · exact hhigh m hgt hm
    · exact hlow m hle
  · rcases Nat.lt_trichotomy m op.level with hlt | rfl | hgt
    · exact chains_of_reads (hbelow m hlt) (hlow (m + 1) hlt)
    · exact hchains
    · exact chains_of_reads (habove m hgt) (hhigh (m + 1) (Nat.lt_succ_of_lt hgt) hm)

theorem readsAll (e : Expr) : ReadsAll py importedModules e := by
  induction e with
  | identifier name => exact readsAll_operand (fun _ => rfl) (reads_identifier name)
  | integer value suffix => exact readsAll_operand (fun _ => rfl) (reads_integer value suffix)
  | binary op left right ihl ihr => exact readsAll_binary ihl ihr
  | prefixed op operand ih =>
    exact readsAll_operand (fun _ => rfl) (reads_prefixed (ih.reads 5 (Nat.le_refl 5)))

end RoundTrip

section Programs
variable {py : Interpreter} {importedModules : List String} {self : Recursive} {e : Expr} {n : Node}
  {tokens : List Token} {last : Token} {before : Option Token}

/-- The kinds of token that an expression begins with. -/
def leading : List TokenKind := [.ident, .integer, .lparen, .not, .tilde, .minus]

theorem print_leading (m : ℕ) (e : Expr) :
    ∃ kind value symbols, print m e = (kind, value) :: symbols ∧ kind ∈ leading := by
  induction e generalizing m with
  | identifier name => exact ⟨_, _, _, rfl, by decide⟩
  | integer value suffix => exact ⟨_, _, _, rfl, by decide⟩
  | prefixed op operand => exact ⟨op.kind, _, _, rfl, by cases op <;> decide⟩
  | binary op left right ihl ihr =>
    rw [print]
    split
    · obtain ⟨kind, value, symbols, hprint, hmem⟩ := ihl op.level
      rw [hprint]
      exact ⟨kind, value, _, rfl, hmem⟩
    · exact ⟨_, _, _, rfl, by decide⟩

theorem accept_end {kind : TokenKind} (hend : last.kind = .eof) (hkind : kind ≠ .eof) :
    accept kind ⟨before, [last]⟩ = .ok (false, ⟨before, [last]⟩) := by
  have hne : last.kind ≠ kind := fun heq => hkind (heq.symm.trans hend)
  rw [accept, peek_run, if_neg hne]
  rfl

theorem parseAssigned_end (hend : last.kind = .eof) :
    parseAssigned py importedModules self n ⟨before, [last]⟩ =
      .ok (node .expressionStatement [n], ⟨before, [last]⟩) := by
  rw [parseAssigned, peek_run, hend, if_neg (by decide), if_neg (by decide)]
  rfl

/-- An expression in front of the end is a statement. -/
theorem parseStatement_expression {first : Token} {behind : List Token}
    (hfirst : first.kind ∈ leading) (hend : last.kind = .eof)
    (h : parseExpression py importedModules self ⟨none, first :: behind⟩ = .ok (n, ⟨before, [last]⟩)) :
    parseStatement py importedModules self ⟨none, first :: behind⟩ =
      .ok (node .expressionStatement [n], ⟨before, [last]⟩) := by
  have haccept : accept .semi ⟨before, [last]⟩ = .ok (false, ⟨before, [last]⟩) :=
    accept_end hend (by decide)
  have hexpression : parseExpressionStatement py importedModules self ⟨none, first :: behind⟩ =
      .ok (node .expressionStatement [n], ⟨before, [last]⟩) := by
    rw [parseExpressionStatement, bind_run h, bind_run haccept]
    rfl
  have hident : parseIdentStmt py importedModules self ⟨none, first :: behind⟩ =
      .ok (node .expressionStatement [n], ⟨before, [last]⟩) := by
    rw [parseIdentStmt, bind_run h, bind_run (parseAssigned_end hend), bind_run haccept]
    rfl
  obtain ⟨kind, value, pos⟩ := first
  simp only [leading, List.mem_cons, List.not_mem_nil, or_false] at hfirst
  rw [parseStatement, peek_run]
  rcases hfirst with rfl | rfl | rfl | rfl | rfl | rfl
  · exact hident
  all_goals exact hexpression

theorem length_le_weights (f : Token → ℕ) (tokens : List Token) :
    tokens.length ≤ (tokens.map fun t => f t + 1).sum := by
  induction tokens with
  | nil => exact Nat.le_refl 0
  | cons t ts ih =>
    rw [List.map_cons, List.sum_cons, List.length_cons]
    omega

/-- A program of one statement. -/
theorem parseProgram_statement {first : Token} {behind : List Token} {stmt : Node} {levels : ℕ}
    (hfirst : first.kind ∈ leading) (hend : last.kind = .eof)
    (h : parseStatement py importedModules (parsers py importedModules (levels + 1))
      ⟨none, first :: behind⟩ = .ok (stmt, ⟨before, [last]⟩)) :
    parseProgram (parsers py importedModules (levels + 2)) ⟨none, first :: behind⟩ =
      .ok (node .program [stmt], ⟨before, [last]⟩) := by
  have hturn : programTurn (parsers py importedModules (levels + 2)) [] ⟨none, first :: behind⟩ =
      .ok (.inl [stmt], ⟨before, [last]⟩) := by
    have hstatement : ((parsers py importedModules (levels + 2)).statement >>= fun stmt =>
        (pure (.inl ([] ++ [stmt])) : Parse (List Node ⊕ List Node))) ⟨none, first :: behind⟩ =
          .ok (.inl [stmt], ⟨before, [last]⟩) := bind_run h
    obtain ⟨kind, value, pos⟩ := first
    simp only [leading, List.mem_cons, List.not_mem_nil, or_false] at hfirst
    rw [programTurn, peek_run]
    rcases hfirst with rfl | rfl | rfl | rfl | rfl | rfl
    all_goals exact hstatement
  have hleave : programTurn (parsers py importedModules (levels + 2)) [stmt] ⟨before, [last]⟩ =
      .ok (.inr [stmt], ⟨before, [last]⟩) := by
    rw [programTurn, peek_run, hend]
    rfl
  have hloop : iterate (programTurn (parsers py importedModules (levels + 2)))
      (parsers py importedModules (levels + 2)).fuel [] ⟨none, first :: behind⟩ =
        .ok ([stmt], ⟨before, [last]⟩) := (iterate_again hturn).trans (iterate_leave hleave)
  rw [parseProgram, bind_run hloop]
  rfl

/-- An expression in front of the end is parsed as a program, up to the end. -/
theorem parse_printed (py : Interpreter) (importedModules : List String) (e : Expr)
    (tokens : List Token) (last : Token) (hspelled : Spelled (print 0 e) tokens)
    (hend : last.kind = .eof) :
    (∃ n, parse py (tokens ++ [last]) importedModules = .ok n ∧
      n.map Labelled.label = .node .program [.node .expressionStatement [tree e]]) ∧
    ∀ k, tokens.length ≤ k → ∃ n before,
      parseExpression py importedModules (parsers py importedModules k) ⟨none, tokens ++ [last]⟩ =
        .ok (n, ⟨before, [last]⟩) ∧ n.map Labelled.label = tree e := by
  have hexpression (imported : List String) (k : ℕ) (hk : tokens.length ≤ k) : ∃ n before,
      parseExpression py imported (parsers py imported k) ⟨none, tokens ++ [last]⟩ =
        .ok (n, ⟨before, [last]⟩) ∧ n.map Labelled.label = tree e :=
    (readsAll e).reads 0 (Nat.zero_le 5) k tokens [last] none hspelled hk ⟨last, [], rfl, Or.inl hend⟩
  refine ⟨?_, hexpression importedModules⟩
  have hfuel : ∃ levels, fuelFor (tokens ++ [last]) = levels + 2 ∧ tokens.length ≤ levels + 1 := by
    have hlength := length_le_weights innerLength (tokens ++ [last])
    rw [List.length_append, List.length_singleton] at hlength
    rw [fuelFor]
    generalize ((tokens ++ [last]).map fun t => innerLength t + 1).sum = weight at hlength
    exact ⟨weight - 1, by omega, by omega⟩
  obtain ⟨levels, hlevels, hle⟩ := hfuel
  obtain ⟨kind, value, symbols, hprint, hmem⟩ := print_leading 0 e
  rw [hprint] at hspelled
  obtain ⟨pos, behind, rfl, -⟩ := spelled_cons hspelled
  rw [parse, hlevels, List.cons_append]
  generalize (if importedModules.isEmpty then _ else importedModules) = imported
  obtain ⟨n, before, hrun, htree⟩ := hexpression imported (levels + 1) hle
  rw [List.cons_append] at hrun
  rw [parseProgram_statement hmem hend (parseStatement_expression hmem hend hrun)]
  refine ⟨_, rfl, ?_⟩
  rw [← htree]
  rfl

/-- `(a - (b - 1)) * -c`. -/
theorem parse_printed_parentheses :
    (∃ n, parse PythonText.ascii [⟨.lparen, .text ['('], 0⟩, ⟨.ident, .text ['a'], 1⟩,
        ⟨.minus, .text ['-'], 3⟩, ⟨.lparen, .text ['('], 5⟩, ⟨.ident, .text ['b'], 6⟩,
        ⟨.minus, .text ['-'], 8⟩, ⟨.integer, .integer 1 none, 10⟩, ⟨.rparen, .text [')'], 11⟩,
        ⟨.rparen, .text [')'], 12⟩, ⟨.star, .text ['*'], 14⟩, ⟨.minus, .text ['-'], 16⟩,
        ⟨.ident, .text ['c'], 17⟩, ⟨.eof, .text [], 18⟩] [] = .ok n ∧
      n.map Labelled.label = .node .program [.node .expressionStatement
        [.node (.binaryOp "*") [.node (.binaryOp "-") [.node (.identifier "a" []) [],
            .node (.binaryOp "-") [.node (.identifier "b" []) [], .node (.integerLiteral 1 none) []]],
          .node (.unaryOp "-") [.node (.identifier "c" []) []]]]]) :=
  (parse_printed PythonText.ascii [] (.binary .star
    (.binary .minus (.identifier ⟨"a", rfl⟩)
      (.binary .minus (.identifier ⟨"b", rfl⟩) (.integer 1 none)))
    (.prefixed .minus (.identifier ⟨"c", rfl⟩))) [⟨.lparen, .text ['('], 0⟩, ⟨.ident, .text ['a'], 1⟩,
        ⟨.minus, .text ['-'], 3⟩, ⟨.lparen, .text ['('], 5⟩, ⟨.ident, .text ['b'], 6⟩,
        ⟨.minus, .text ['-'], 8⟩, ⟨.integer, .integer 1 none, 10⟩, ⟨.rparen, .text [')'], 11⟩,
        ⟨.rparen, .text [')'], 12⟩, ⟨.star, .text ['*'], 14⟩, ⟨.minus, .text ['-'], 16⟩,
        ⟨.ident, .text ['c'], 17⟩] ⟨.eof, .text [], 18⟩ rfl rfl).1

end Programs

end NewClLang.OperatorPrecedence
