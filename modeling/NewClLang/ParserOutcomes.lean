import NewClLang.LexerTotality
import NewClLang.StatementParser

set_option autoImplicit false

/-!
# What the parser comes to

From any tokens that end with the token for the end, each function of the parser builds nodes with
spans of a known kind, or raises an error that is declared.
-/
namespace NewClLang.ParserOutcomes
open ExpressionParser Lexer LexicalReading ParsedNodes ParserBasics RoseTrees StatementParser
  TokenParsers TypeRefs
open ModuleSyntax (Param TypeParam)
open PythonText (Interpreter)

section Conditions

/-- The texts of a token that are parsed. -/
def textsOf (t : Token) : List (List Char) :=
  match Token.string t with
  | .interpolated parts => parts.filterMap fun part =>
    match part with
    | .literal _ => none
    | .expr text => some text
  | .plain _ => []

/-- The text of an interpolation, or one that is interpolated in it at any depth, has a number that
the lexer does not convert. -/
inductive Dirty (py : Interpreter) : List Char → Prop where
  | here {text : List Char} (h : Faulty py text) : Dirty py text
  | inside {text inner : List Char} {tokens : List Token} {t : Token} (hlex : lex py text = .ok tokens)
    (ht : t ∈ tokens) (hinner : inner ∈ textsOf t) (h : Dirty py inner) : Dirty py text

/-- The failures that are left where `faulty` says whether a text may be faulty. -/
def Allowed (faulty : Prop) : Failure Raised → Prop
  | .raised (.parseError _) => True
  | .raised (.syntaxError _) => True
  | .raised .valueError => faulty
  | .indexError => False
  | .unfinished => False

/-- A span that starts where its node does, or, for one on a receiver, if and only if the receiver is
known to start there. Where there are literals in quotes, nothing is said. -/
def SpanFits (quoted : Prop) (s : Span) : Prop :=
  quoted ∨ ∃ first, s.first = some first ∧
    (s.start = first ↔ ∀ recorded, s.receiver = some recorded → recorded = some first)

def LabelFits (quoted : Prop) (l : Labelled) : Prop := ∀ s ∈ l.span, SpanFits quoted s

def Placed (quoted : Prop) (n : Node) : Prop := n.All (LabelFits quoted)

def PlacedAll (quoted : Prop) (ns : List Node) : Prop := ∀ n ∈ ns, Placed quoted n

/-- Whether a text may be faulty, whether there are literals in quotes, and where the tokens are
from. -/
structure Setting where
  py : Interpreter
  faulty : Prop
  quoted : Prop
  floor : ℕ

def Setting.from (x : Setting) (floor : ℕ) : Setting := { x with floor := floor }

/-- What is known of the tokens. Where nothing is in quotes they stand in order. -/
def Setting.stream (x : Setting) : Stream Token where
  isEnd t := t.kind == .eof
  weight := innerLength
  fine t := (∀ text ∈ textsOf t, Dirty x.py text → x.faulty) ∧
    (t.kind = .string ∨ t.kind = .char → x.quoted) ∧ (x.quoted ∨ x.floor ≤ t.pos)
  before t u := x.quoted ∨ t.pos < u.pos

variable {α : Type}

abbrev Eats (x : Setting) (k : ℕ) (P : List Token → Prop) (Q : α → Prop) (p : Parse α) : Prop :=
  Consumes x.stream (Allowed x.faulty) k P Q p

abbrev Stays (x : Setting) (k : ℕ) (P : List Token → Prop) (Q : α → Prop) (p : Parse α) : Prop :=
  Keeps x.stream (Allowed x.faulty) k P Q p

/-- The functions that are called back do what they should on tokens of a bounded weight. -/
structure Sound (x : Setting) (k : ℕ) (callbacks : Recursive) : Prop where
  fuel : k ≤ callbacks.fuel
  expression : ∀ floor P, Eats (x.from floor) k P (Placed x.quoted) callbacks.expression
  statement : ∀ floor P, Eats (x.from floor) k P (Placed x.quoted) callbacks.statement
  unary : ∀ floor P, Eats (x.from floor) k P (Placed x.quoted) callbacks.unary
  primary : ∀ floor P, Eats (x.from floor) k P (Placed x.quoted) callbacks.primary
  type : ∀ floor P, Eats (x.from floor) k P (fun _ => True) callbacks.type

theorem Sound.from {x : Setting} {k : ℕ} {callbacks : Recursive} (h : Sound x k callbacks) (floor : ℕ) :
    Sound (x.from floor) k callbacks :=
  ⟨h.fuel, h.expression, h.statement, h.unary, h.primary, h.type⟩

end Conditions

section Nodes
variable {quoted : Prop} {n m : Node} {ns ms : List Node}

theorem placed_node {label : Label} (h : PlacedAll quoted ns) : Placed quoted (node label ns) :=
  ⟨fun _ hs => absurd hs (Option.not_mem_none _), (allOf_iff _ ns).mpr h⟩

theorem Placed.children (h : Placed quoted n) : PlacedAll quoted n.children := by
  obtain ⟨label, children⟩ := n
  exact (allOf_iff _ children).mp h.2

theorem Placed.span_fits (h : Placed quoted n) : ∀ s ∈ n.span, SpanFits quoted s := by
  obtain ⟨label, children⟩ := n
  exact h.1

theorem Placed.withSpan (h : Placed quoted n) {s : Option Span}
    (hs : ∀ span ∈ s, SpanFits quoted span) : Placed quoted (n.withSpan s) :=
  ⟨hs, (allOf_iff _ n.children).mpr h.children⟩

@[simp] theorem placedAll_nil : PlacedAll quoted [] := fun _ hn => absurd hn List.not_mem_nil

@[simp] theorem placedAll_cons : PlacedAll quoted (n :: ns) ↔ Placed quoted n ∧ PlacedAll quoted ns :=
  List.forall_mem_cons

@[simp] theorem placedAll_append :
    PlacedAll quoted (ns ++ ms) ↔ PlacedAll quoted ns ∧ PlacedAll quoted ms :=
  List.forall_mem_append

theorem placed_concat (hns : PlacedAll quoted ns) (hn : Placed quoted n) :
    PlacedAll quoted (ns ++ [n]) :=
  placedAll_append.mpr ⟨hns, List.forall_mem_singleton.mpr hn⟩

end Nodes

section Helpers
variable {x : Setting} {k : ℕ} {P : List Token → Prop} {α β : Type} {Q : α → Prop} {R : β → Prop}
  {f : Token → Parse β} {t : Token} {us : List Token}

theorem ne_eof {kind : TokenKind} (h : t.kind = kind) (hne : kind ≠ .eof) : t.kind ≠ .eof := by
  rw [h]
  exact hne

theorem notEnd (h : t.kind ≠ .eof) : x.stream.isEnd t = false := beq_eq_false_iff_ne.mpr h

/-- To move past a token that has been looked at. -/
theorem eats_token (h : t.kind ≠ .eof)
    (hf : x.stream.fine t → Stays x k (fun l => l = us) R (f t)) :
    Eats x (k + 1) (fun l => l = t :: us) R (advance >>= f) := by
  refine consumes_advance (fun t' us' heq => ?_) (fun t' us' heq hfine => ?_)
  · cases heq
    exact notEnd h
  · cases heq
    exact hf hfine

theorem stays_token (h : t.kind ≠ .eof)
    (hf : x.stream.fine t → Stays x k (fun l => l = us) R (f t)) :
    Stays x k (fun l => l = t :: us) R (advance >>= f) := by
  refine keeps_advance (fun t' us' heq => ?_) (fun t' us' heq hfine => ?_)
  · cases heq
    exact notEnd h
  · cases heq
    exact hf hfine

theorem eats_fail (e : ParseError) : Eats x k P Q (fail e) := consumes_raise trivial

theorem stays_fail (e : ParseError) : Stays x k P Q (fail e) := (eats_fail e).keeps

theorem expect_eats {kind : TokenKind} (hkind : kind ≠ .eof) :
    Eats x k P (fun _ => True) (expect kind) := by
  refine Consumes.lower (consumes_peek (fun t us _ => ?_))
  by_cases h : t.kind = kind
  · rw [if_neg (not_not.mpr h)]
    have hadvance : Eats x (k + 1) (fun l => l = t :: us) (fun _ => True)
        (advance >>= (pure : Token → Parse Token)) :=
      eats_token (ne_eof h hkind) (fun _ => keeps_pure trivial)
    rwa [bind_pure] at hadvance
  · rw [if_pos h]
    exact eats_fail _

theorem expectText_eats {kind : TokenKind} (hkind : kind ≠ .eof) :
    Eats x k P (fun _ => True) (expectText kind) :=
  Consumes.lower ((expect_eats hkind).bind (fun _ _ => keeps_pure trivial))

theorem accept_stays {kind : TokenKind} (hkind : kind ≠ .eof) :
    Stays x k P (fun _ => True) (accept kind) := by
  refine keeps_peek (fun t us _ => ?_)
  split
  · rename_i h
    exact stays_token (ne_eof h hkind) (fun _ => keeps_pure trivial)
  · exact keeps_pure trivial

theorem lastPos_stays : Stays x k P (fun _ => True) lastPos :=
  keeps_mark (fun _ _ => keeps_pure trivial)

theorem span_stays {n : Node} {start : Token} (hn : Placed x.quoted n) :
    Stays x k P (Placed x.quoted) (span n start) := by
  refine lastPos_stays.bind (fun stop _ => keeps_pure (hn.withSpan ?_))
  intro s hs
  cases hs
  refine Or.inr ⟨start.pos, rfl, fun _ recorded hnone => ?_, fun _ => rfl⟩
  cases hnone

/-- A span on a receiver is placed behind the first token of the node. -/
theorem spanOn_stays {n receiver : Node} {first : ℕ} {t : Token} (hn : Placed x.quoted n)
    (hlt : x.quoted ∨ first < t.pos) : Stays x k P (Placed x.quoted) (spanOn n first receiver t) := by
  refine lastPos_stays.bind (fun stop _ => keeps_pure (hn.withSpan ?_))
  intro s hs
  cases hs
  refine hlt.imp id (fun hlt => ⟨first, rfl, ?_⟩)
  cases receiver.span with
  | none =>
    refine ⟨fun hstart => ?_, fun hall => ?_⟩
    · have hpos : t.pos = first := hstart
      omega
    · cases hall none rfl
  | some s =>
    refine ⟨fun hstart recorded hsome => ?_, fun hall => ?_⟩
    · have hpos : s.start = first := hstart
      cases hsome
      rw [← hpos]
      rfl
    · exact Option.some.inj (hall (some s.start) rfl)

theorem commaTurn_turns {endKind : TokenKind} {parseItem : Parse α} {items : List α}
    (hitem : Eats x k (fun _ => True) Q parseItem) (hitems : ∀ a ∈ items, Q a) :
    Turns x.stream (Allowed x.faulty) k (fun _ => True) (fun items => ∀ a ∈ items, Q a)
      (fun items => ∀ a ∈ items, Q a) (commaTurn endKind parseItem items) := by
  refine (hitem.bind_keeps (fun item hq => ?_)).turns
  have hall : ∀ a ∈ items ++ [item], Q a :=
    List.forall_mem_append.mpr ⟨hitems, List.forall_mem_singleton.mpr hq⟩
  refine keeps_peek (fun t us _ => ?_)
  split
  · exact keeps_pure hall
  · rename_i h
    refine stays_token (ne_eof (not_not.mp h) (by decide)) (fun _ => keeps_peek (fun t us _ => ?_))
    split
    · exact keeps_pure hall
    · exact keeps_pure hall

theorem parseCommaList_stays {fuel : ℕ} {endKind : TokenKind} {parseItem : Parse α} (hfuel : k ≤ fuel)
    (hitem : Eats x k (fun _ => True) Q parseItem) :
    Stays x k P (fun items => ∀ a ∈ items, Q a) (parseCommaList fuel endKind parseItem) := by
  have hnil : ∀ a ∈ ([] : List α), Q a := fun _ ha => absurd ha List.not_mem_nil
  refine keeps_peek (fun t us _ => ?_)
  split
  · exact keeps_iterate hfuel hnil (fun items hitems => commaTurn_turns hitem hitems)
  · exact keeps_pure hnil

end Helpers

section Types
variable {x : Setting} {k : ℕ} {P : List Token → Prop} {self : Recursive} (hself : Sound x k self)

theorem parseDottedName_eats : Eats x k P (fun _ => True) parseDottedName := by
  refine (expectText_eats (by decide)).bind_keeps (fun name _ => keeps_peek (fun t us _ => ?_))
  split
  · rename_i h
    refine stays_token (ne_eof h (by decide)) (fun _ => ?_)
    exact (expectText_eats (by decide)).keeps.bind (fun _ _ => keeps_pure trivial)
  · exact keeps_pure trivial

theorem parseLength_stays : Stays x k P (fun _ => True) parseLength := by
  refine keeps_peek (fun t us _ => ?_)
  split
  · refine (expect_eats (by decide)).keeps.bind (fun t _ => ?_)
    split
    · exact stays_fail _
    · exact keeps_pure trivial
  · exact keeps_pure trivial

include hself

theorem expression_eats : Eats x k P (Placed x.quoted) self.expression := hself.expression x.floor P

theorem statement_eats : Eats x k P (Placed x.quoted) self.statement := hself.statement x.floor P

theorem type_eats : Eats x k P (fun _ => True) self.type := hself.type x.floor P

theorem parseTypeArgList_eats : Eats x (k + 1) P (fun _ => True) (parseTypeArgList self) := by
  refine (expect_eats (by decide)).bind (fun _ _ => ?_)
  refine (parseCommaList_stays hself.fuel (type_eats hself)).bind (fun _ _ => ?_)
  exact (expect_eats (by decide)).keeps.bind (fun _ _ => keeps_pure trivial)

theorem parseType_eats : Eats x (k + 1) P (fun _ => True) (parseType self) := by
  refine consumes_peek (fun t us _ => ?_)
  split
  · rename_i h
    refine eats_token (ne_eof h (by decide)) (fun _ => ?_)
    refine (expect_eats (by decide)).keeps.bind (fun _ _ => ?_)
    exact (type_eats hself).keeps.bind (fun _ _ => keeps_pure trivial)
  · split
    · rename_i h
      refine eats_token (ne_eof h (by decide)) (fun _ => ?_)
      refine (expect_eats (by decide)).keeps.bind (fun _ _ => ?_)
      refine (parseCommaList_stays hself.fuel (type_eats hself)).bind (fun _ _ => ?_)
      refine (expect_eats (by decide)).keeps.bind (fun _ _ => ?_)
      refine (type_eats hself).keeps.bind (fun _ _ => ?_)
      exact (accept_stays (by decide)).bind (fun _ _ => keeps_pure trivial)
    · split
      · rename_i h
        refine eats_token (ne_eof h (by decide)) (fun _ => ?_)
        exact (type_eats hself).keeps.bind (fun _ _ => keeps_pure trivial)
      · split
        · rename_i h
          refine eats_token (ne_eof h (by decide)) (fun _ => ?_)
          refine parseLength_stays.bind (fun length _ => ?_)
          refine (expect_eats (by decide)).keeps.bind (fun _ _ => ?_)
          refine (type_eats hself).keeps.bind (fun _ _ => ?_)
          cases length with
          | none => exact keeps_pure trivial
          | some n => exact keeps_pure trivial
        · refine parseDottedName_eats.bind_keeps (fun name _ => keeps_peek (fun t us _ => ?_))
          split
          · exact (parseTypeArgList_eats hself).keeps.bind (fun _ _ => keeps_pure trivial)
          · exact keeps_pure trivial

theorem parseColonType_stays : Stays x k P (fun _ => True) (parseColonType self) := by
  refine keeps_peek (fun t us _ => ?_)
  split
  · rename_i h
    refine stays_token (ne_eof h (by decide)) (fun _ => ?_)
    exact (parseType_eats hself).lower.keeps.bind (fun _ _ => keeps_pure trivial)
  · exact keeps_pure trivial

omit hself in
theorem parseTypeParam_eats : Eats x k P (fun _ => True) parseTypeParam := by
  refine (expectText_eats (by decide)).bind_keeps (fun name _ => keeps_peek (fun t us _ => ?_))
  split
  · refine parseDottedName_eats.keeps.bind (fun constraint _ => ?_)
    split
    · exact keeps_pure trivial
    · exact stays_fail _
  · exact keeps_pure trivial

theorem parseTypeParams_stays : Stays x k P (fun _ => True) (parseTypeParams self) := by
  refine keeps_peek (fun t us _ => ?_)
  split
  · exact keeps_pure trivial
  · rename_i h
    refine stays_token (ne_eof (not_not.mp h) (by decide)) (fun _ => ?_)
    refine (parseCommaList_stays hself.fuel parseTypeParam_eats).bind (fun _ _ => ?_)
    exact (expect_eats (by decide)).keeps.bind (fun _ _ => keeps_pure trivial)

end Types

section Blocks
variable {x : Setting} {k : ℕ} {P : List Token → Prop} {t : Token} {us : List Token}
  {self : Recursive} (hself : Sound x k self)
include hself

theorem parseBlock_eats : Eats x (k + 1) P (Placed x.quoted) (parseBlock self) := by
  have hturn (stmts : List Node) (hstmts : PlacedAll x.quoted stmts) :
      Turns x.stream (Allowed x.faulty) k (fun _ => True) (PlacedAll x.quoted) (PlacedAll x.quoted)
        (blockTurn self stmts) := by
    refine turns_peek (fun t us _ => ?_)
    split
    · exact turns_leave hstmts
    · refine ((statement_eats hself).bind_keeps (fun stmt hstmt => keeps_pure ?_)).turns
      exact placed_concat hstmts hstmt
  refine (expect_eats (by decide)).bind (fun _ _ => ?_)
  refine (keeps_iterate hself.fuel placedAll_nil hturn).bind (fun stmts hstmts => ?_)
  exact (expect_eats (by decide)).keeps.bind (fun _ _ => keeps_pure (placed_node hstmts))

theorem parsePattern_stays :
    Stays x k P (fun pattern => PlacedAll x.quoted pattern.toList) (parsePattern self) := by
  refine keeps_peek (fun t us _ => ?_)
  split
  · rename_i h
    exact stays_token (ne_eof h (by decide)) (fun _ => keeps_pure placedAll_nil)
  · refine (expression_eats hself).keeps.bind (fun pattern hpattern => keeps_pure ?_)
    exact List.forall_mem_singleton.mpr hpattern

theorem parseMatchArms_eats :
    Eats x (k + 1) P (fun arms => PlacedAll x.quoted (armNodes arms)) (parseMatchArms self) := by
  have hturn (arms : List Arm) (harms : PlacedAll x.quoted (armNodes arms)) :
      Turns x.stream (Allowed x.faulty) k (fun _ => True)
        (fun arms => PlacedAll x.quoted (armNodes arms))
        (fun arms => PlacedAll x.quoted (armNodes arms)) (armTurn self arms) := by
    refine turns_peek (fun t us _ => ?_)
    split
    · exact turns_leave harms
    · refine ((parsePattern_stays hself).bind_consumes (fun pattern hpattern => ?_)).turns
      refine (expect_eats (by decide)).bind_keeps (fun _ _ => ?_)
      refine (expression_eats hself).keeps.bind (fun body hbody => ?_)
      refine (accept_stays (by decide)).bind (fun _ _ => keeps_pure ?_)
      have hsame : armNodes (arms ++ [(pattern, body)]) =
          armNodes arms ++ (pattern.toList ++ [body]) := by
        rw [armNodes, List.flatMap_append, List.flatMap_singleton]
        rfl
      change PlacedAll x.quoted (armNodes (arms ++ [(pattern, body)]))
      rw [hsame, placedAll_append, placedAll_append]
      exact ⟨harms, hpattern, List.forall_mem_singleton.mpr hbody⟩
  refine (expect_eats (by decide)).bind (fun _ _ => ?_)
  refine (keeps_iterate (I := fun arms => PlacedAll x.quoted (armNodes arms)) hself.fuel
    placedAll_nil hturn).bind (fun arms harms => ?_)
  exact (expect_eats (by decide)).keeps.bind (fun _ _ => keeps_pure harms)

theorem parseParamType_stays : Stays x k P (fun _ => True) (parseParamType self) := by
  refine keeps_peek (fun t us _ => ?_)
  split
  · rename_i h
    refine stays_token (ne_eof h (by decide)) (fun _ => ?_)
    exact (parseType_eats hself).lower.keeps.bind (fun _ _ => keeps_pure trivial)
  · split
    · exact stays_fail _
    · exact keeps_pure trivial

/-- The default value of a parameter. -/
abbrev DefaultPlaced (quoted : Prop) (p : ParamNode) : Prop := PlacedAll quoted p.2.toList

theorem parseParam_eats (allowDefault : Bool) :
    Eats x k P (DefaultPlaced x.quoted) (parseParam self allowDefault) := by
  refine (expectText_eats (by decide)).bind_keeps (fun name _ => ?_)
  refine (parseParamType_stays hself).bind (fun type _ => keeps_peek (fun t us _ => ?_))
  split
  · rename_i h
    split
    · refine stays_token (ne_eof h (by decide)) (fun _ => ?_)
      refine (expression_eats hself).keeps.bind (fun default hdefault => keeps_pure ?_)
      exact List.forall_mem_singleton.mpr hdefault
    · exact stays_fail _
  · split
    · exact stays_fail _
    · exact keeps_pure placedAll_nil

theorem parseParamList_stays (allowDefault : Bool) :
    Stays x k P (fun params => PlacedAll x.quoted (defaultsOf params))
      (parseParamList self allowDefault) := by
  have hitem : Eats x k (fun _ => True) (DefaultPlaced x.quoted)
      (parseParamItem self allowDefault) := by
    refine consumes_peek (fun t us _ => ?_)
    split
    · exact eats_fail _
    · exact parseParam_eats hself allowDefault
  refine (parseCommaList_stays hself.fuel hitem).mono (fun params hparams n hn => ?_)
  obtain ⟨p, hp, hdefault⟩ := List.mem_filterMap.mp hn
  exact hparams p hp n (Option.mem_toList.mpr hdefault)

theorem parseFunctionExpr_eats (start : Token) :
    Eats x (k + 1) P (Placed x.quoted) (parseFunctionExpr self start) := by
  refine (expect_eats (by decide)).bind (fun _ _ => ?_)
  refine (parseParamList_stays hself false).bind (fun params hparams => ?_)
  refine (expect_eats (by decide)).keeps.bind (fun _ _ => ?_)
  refine (parseColonType_stays hself).bind (fun returnType _ => ?_)
  refine (accept_stays (by decide)).bind (fun fallible _ => ?_)
  refine (parseBlock_eats hself).lower.keeps.bind (fun body hbody => ?_)
  exact span_stays (placed_node
    (placedAll_append.mpr ⟨hparams, List.forall_mem_singleton.mpr hbody⟩))

theorem parseReturned_stays : Stays x k P (PlacedAll x.quoted) (parseReturned self) := by
  refine keeps_peek (fun t us _ => ?_)
  split
  · refine (expression_eats hself).keeps.bind (fun expr hexpr => keeps_pure ?_)
    exact List.forall_mem_singleton.mpr hexpr
  · exact keeps_pure placedAll_nil

theorem parseReturn_eats (h : t.kind ≠ .eof) :
    Eats x (k + 1) (fun l => l = t :: us) (Placed x.quoted) (parseReturn self) := by
  refine eats_token h (fun _ => ?_)
  refine (parseReturned_stays hself).bind (fun expr hexpr => ?_)
  refine (span_stays (placed_node hexpr)).bind (fun stmt hstmt => ?_)
  exact (accept_stays (by decide)).bind (fun _ _ => keeps_pure hstmt)

theorem parseErrReturn_eats (h : t.kind ≠ .eof) :
    Eats x (k + 1) (fun l => l = t :: us) (Placed x.quoted) (parseErrReturn self) := by
  refine eats_token h (fun _ => ?_)
  refine (expression_eats hself).keeps.bind (fun expr hexpr => ?_)
  refine (accept_stays (by decide)).bind (fun _ _ => ?_)
  exact span_stays (placed_node (List.forall_mem_singleton.mpr hexpr))

theorem parseCallArgs_stays : Stays x k P (PlacedAll x.quoted) (parseCallArgs self) :=
  parseCommaList_stays hself.fuel (expression_eats hself)

theorem parseStructLiteralFields_stays :
    Stays x k P (fun fields => PlacedAll x.quoted (fields.map Prod.snd))
      (parseStructLiteralFields self) := by
  have hitem : Eats x k (fun _ => True) (fun f => Placed x.quoted f.2) (parseFieldValue self) := by
    refine (expectText_eats (by decide)).bind_keeps (fun name _ => ?_)
    refine (expect_eats (by decide)).keeps.bind (fun _ _ => ?_)
    exact (expression_eats hself).keeps.bind (fun value hvalue => keeps_pure hvalue)
  exact (parseCommaList_stays hself.fuel hitem).mono
    (fun fields hfields => List.forall_mem_map.mpr hfields)

theorem parseMapLiteralEntries_stays :
    Stays x k P (PlacedAll x.quoted) (parseMapLiteralEntries self) := by
  have hitem : Eats x k (fun _ => True) (PlacedAll x.quoted) (parseEntry self) := by
    refine (expression_eats hself).bind_keeps (fun key hkey => ?_)
    refine (expect_eats (by decide)).keeps.bind (fun _ _ => ?_)
    refine (expression_eats hself).keeps.bind (fun value hvalue => keeps_pure ?_)
    exact placedAll_cons.mpr ⟨hkey, List.forall_mem_singleton.mpr hvalue⟩
  refine (parseCommaList_stays hself.fuel hitem).map (fun entries hentries n hn => ?_)
  obtain ⟨entry, hentry, hn⟩ := List.mem_flatten.mp hn
  exact hentries entry hentry n hn

end Blocks

end NewClLang.ParserOutcomes
