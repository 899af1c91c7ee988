import Mathlib.Algebra.Order.BigOperators.Group.List
import Mathlib.Algebra.Order.Group.Nat
import NewClLang.EmbeddedTexts
import NewClLang.ParserOutcomes

set_option autoImplicit false

/-!
# What the parser of expressions comes to

The functions from the literals up to the levels of operators.
-/
namespace NewClLang.ExpressionOutcomes
open EmbeddedTexts ExceptOutcomes ExpressionParser Lexer ParsedNodes ParserBasics ParserOutcomes
  RoseTrees StatementParser TokenParsers TypeRefs
open ModuleSyntax (formatTypeRef)

section Interpolations
variable {x : Setting} {k : ℕ} {P : List Token → Prop} {t : Token} {us : List Token} {text : List Char}
  {tokens : List Token} {self : Recursive}

/-- Where there are literals in quotes, nothing is said of a node. -/
theorem placed_of_quoted {quoted : Prop} (h : quoted) (n : Node) : Placed quoted n := by
  induction n using RoseTree.induct with
  | hnode label children ih => exact ⟨fun _ _ => Or.inl h, (allOf_iff _ children).mpr ih⟩

/-- The tokens of the text of an interpolation are as they should be. -/
theorem good_of_cut (hquoted : x.quoted) (hfaulty : Dirty x.py text → x.faulty)
    (hlex : lex x.py text = .ok tokens) (h : Cut x.py text tokens) :
    Good x.stream tokens ⟨none, tokens⟩ := by
  refine ⟨?_, List.suffix_refl _, fun t ht => ⟨fun inner hinner hdirty => ?_, fun _ => hquoted,
    Or.inl hquoted⟩, ?_⟩
  · obtain ⟨front, hpieces, rfl⟩ := h
    have hkinds := hpieces.kinds
    change Closed x.stream (front ++ [_])
    clear hpieces hlex
    induction front with
    | nil => exact .last rfl
    | cons t ts ih =>
      have hhead := hkinds t List.mem_cons_self
      exact .more (notEnd hhead) (ih (fun u hu => hkinds u (List.mem_cons_of_mem t hu)))
  · exact hfaulty (.inside hlex ht hinner hdirty)
  · exact List.pairwise_of_forall (fun _ _ => Or.inl hquoted)

/-- At the end of its tokens a parser does no more. -/
theorem expect_eof_gives {c : Cursor Token} {ts : List Token} (hc : Good x.stream ts c) :
    Gives (Allowed x.faulty) c (expect .eof) (fun _ _ => True) := by
  refine gives_peek hc (fun t us hrest => ?_)
  split
  · exact .error trivial
  · rw [Gives, advance, hrest]
    exact .ok trivial

variable (hself : Sound x k self)
include hself

theorem parsePart_stays {part : Part} (hquoted : x.quoted)
    (hpart : ∀ text, part = .expr text → (Dirty x.py text → x.faulty) ∧ text.length + 1 ≤ k) :
    Stays x k P (Placed x.quoted) (parsePart x.py self part) := by
  cases part with
  | literal text => exact keeps_pure (placed_node placedAll_nil)
  | expr text =>
    obtain ⟨hfaulty, hlength⟩ := hpart text rfl
    intro ts c hk hc hP
    have hlexed : Gives (Allowed x.faulty) c (lexText x.py text)
        (fun tokens c' =>
          c' = c ∧ Good x.stream tokens ⟨none, tokens⟩ ∧ x.stream.total tokens ≤ k) := by
      have hends := lex_ends x.py text
      rw [Gives, lexText]
      cases hlex : lex x.py text with
      | ok tokens =>
        have hcut := hends.result hlex
        exact .ok ⟨rfl, good_of_cut hquoted hfaulty hlex hcut,
          Nat.le_trans hcut.weights_le hlength⟩
      | error e =>
        refine .error ?_
        rcases hends.raised hlex with ⟨message, rfl⟩ | ⟨rfl, hhere⟩
        · exact trivial
        · exact hfaulty (.here hhere)
    refine hlexed.bind (fun tokens c' h => ?_)
    obtain ⟨rfl, hgood, htotal⟩ := h
    have hwhole : Gives (Allowed x.faulty) ⟨none, tokens⟩ (parseWhole self) (fun _ _ => True) := by
      refine (expression_eats (P := fun _ => True) hself tokens _ htotal hgood trivial).bind
        (fun expr c'' hexpr => ?_)
      exact (expect_eof_gives hexpr.1).bind (fun _ _ _ => .ok trivial)
    refine (gives_within hwhole).bind (fun expr c'' h => ?_)
    rw [h.1]
    exact .ok ⟨hc, placed_of_quoted hquoted _⟩

theorem parseInterpolatedParts_stays {parts : List Part} (hquoted : x.quoted)
    (hparts : ∀ text, .expr text ∈ parts → (Dirty x.py text → x.faulty) ∧ text.length + 1 ≤ k) :
    Stays x k P (PlacedAll x.quoted) (parseInterpolatedParts x.py self parts) := by
  induction parts generalizing P with
  | nil => exact keeps_pure placedAll_nil
  | cons part rest ih =>
    have hfirst : Stays x k P (Placed x.quoted) (parsePart x.py self part) :=
      parsePart_stays hself hquoted (fun text heq => hparts text (heq ▸ List.mem_cons_self))
    refine hfirst.bind (fun first hplaced => ?_)
    refine (ih (fun text hmem => hparts text (List.mem_cons_of_mem part hmem))).bind
      (fun others hothers => keeps_pure ?_)
    exact placedAll_cons.mpr ⟨hplaced, hothers⟩

omit hself in
theorem part_length {value : List Part} (h : .expr text ∈ value) :
    text.length + 2 ≤ (value.map partLength).sum :=
  List.le_sum_of_mem (List.mem_map_of_mem (f := partLength) h)

theorem parseString_eats (h : t.kind = .string) :
    Eats x (k + 1) (fun l => l = t :: us) (Placed x.quoted) (parseString x.py self) := by
  intro ts c hk hc hP
  have hweight : innerLength t < x.stream.total ts := hc.weight_lt hP
  refine eats_token (ne_eof h (by decide)) (fun hfine => ?_) ts c hk hc hP
  have hquoted : x.quoted := hfine.2.1 (Or.inl h)
  cases hvalue : Token.string t with
  | plain text => exact span_stays (placed_node placedAll_nil)
  | interpolated parts =>
    refine (parseInterpolatedParts_stays hself hquoted (fun text hmem => ⟨hfine.1 text ?_, ?_⟩)).bind
      (fun nodes hnodes => span_stays (placed_node hnodes))
    · rw [textsOf, hvalue]
      exact List.mem_filterMap.mpr ⟨_, hmem, rfl⟩
    · have hlength := part_length hmem
      rw [innerLength, hvalue] at hweight
      change (parts.map partLength).sum < _ at hweight
      omega

end Interpolations

section Primaries
variable {x : Setting} {k : ℕ} {P : List Token → Prop} {t : Token} {us : List Token}
  {self : Recursive}

theorem parseLiteral_eats {label : Token → Label} (h : t.kind ≠ .eof) :
    Eats x (k + 1) (fun l => l = t :: us) (Placed x.quoted) (parseLiteral label) :=
  eats_token h (fun _ => span_stays (placed_node placedAll_nil))

theorem parseEnumRef_eats {name : String} (h : t.kind ≠ .eof) :
    Eats x (k + 1) (fun l => l = t :: us) (Placed x.quoted) (parseEnumRef name) := by
  refine eats_token h (fun _ => ?_)
  exact (expectText_eats (by decide)).keeps.bind (fun _ _ => keeps_pure (placed_node placedAll_nil))

theorem structAhead_stays (h : t.kind ≠ .eof) :
    Stays x k (fun l => l = t :: us) (fun _ => True) structAhead := by
  refine stays_token h (fun _ => keeps_peek (fun u vs _ => ?_))
  split
  · exact keeps_pure trivial
  · split
    · rename_i hident
      refine stays_token (ne_eof hident (by decide)) (fun _ => keeps_peek (fun _ _ _ => ?_))
      exact keeps_pure trivial
    · exact keeps_pure trivial

variable (hself : Sound x k self)
include hself

theorem primary_eats : Eats x k P (Placed x.quoted) self.primary := hself.primary x.floor P

theorem parseElse_stays : Stays x k P (PlacedAll x.quoted) (parseElse self) := by
  refine keeps_peek (fun t us _ => ?_)
  split
  · rename_i h
    refine stays_token (ne_eof h (by decide)) (fun _ => keeps_peek (fun u vs _ => ?_))
    split
    · refine (primary_eats hself).keeps.bind (fun nested hnested => keeps_pure ?_)
      have hstmt : Placed x.quoted (node .expressionStatement [nested]) :=
        placed_node (List.forall_mem_singleton.mpr hnested)
      exact List.forall_mem_singleton.mpr (placed_node (List.forall_mem_singleton.mpr hstmt))
    · refine (parseBlock_eats hself).lower.keeps.bind (fun block hblock => keeps_pure ?_)
      exact List.forall_mem_singleton.mpr hblock
  · exact keeps_pure placedAll_nil

theorem parseIf_eats (h : t.kind ≠ .eof) :
    Eats x (k + 1) (fun l => l = t :: us) (Placed x.quoted) (parseIf self) := by
  refine eats_token h (fun _ => ?_)
  refine (expression_eats hself).keeps.bind (fun condition hcondition => ?_)
  refine (parseBlock_eats hself).lower.keeps.bind (fun thenBlock hthen => ?_)
  refine (parseElse_stays hself).bind (fun elseBlock helse => span_stays (placed_node ?_))
  exact placedAll_cons.mpr ⟨hcondition, placedAll_cons.mpr ⟨hthen, helse⟩⟩

theorem parseMatch_eats (h : t.kind ≠ .eof) :
    Eats x (k + 1) (fun l => l = t :: us) (Placed x.quoted) (parseMatch self) := by
  refine eats_token h (fun _ => ?_)
  refine (expression_eats hself).keeps.bind (fun scrutinee hscrutinee => ?_)
  refine (parseMatchArms_eats hself).lower.keeps.bind (fun arms harms => span_stays (placed_node ?_))
  exact placedAll_cons.mpr ⟨hscrutinee, harms⟩

theorem parseBlockExpr_eats : Eats x (k + 1) P (Placed x.quoted) (parseBlockExpr self) := by
  refine consumes_peek (fun t us _ => ?_)
  refine (parseBlock_eats hself).bind (fun block hblock => span_stays (placed_node ?_))
  exact List.forall_mem_singleton.mpr hblock

theorem parseAppliedName_stays {name : String} :
    Stays x k P (fun _ => True) (parseAppliedName self name) := by
  refine keeps_peek (fun t us _ => ?_)
  split
  · exact (parseTypeArgList_eats hself).lower.keeps.bind (fun _ _ => keeps_pure trivial)
  · exact keeps_pure trivial

theorem parseNew_eats (h : t.kind ≠ .eof) :
    Eats x (k + 1) (fun l => l = t :: us) (Placed x.quoted) (parseNew self) := by
  refine eats_token h (fun _ => ?_)
  refine parseDottedName_eats.keeps.bind (fun dotted _ => ?_)
  refine (parseAppliedName_stays hself).bind (fun name _ => ?_)
  refine (expect_eats (by decide)).keeps.bind (fun _ _ => ?_)
  refine (parseStructLiteralFields_stays hself).bind (fun fields hfields => ?_)
  exact (expect_eats (by decide)).keeps.bind (fun _ _ => keeps_pure (placed_node hfields))

theorem parseElemType_stays {length : Option ℕ} :
    Stays x k P (fun _ => True) (parseElemType self length) := by
  refine keeps_peek (fun t us _ => ?_)
  split
  · exact keeps_pure trivial
  · exact (parseType_eats hself).lower.keeps.bind (fun _ _ => keeps_pure trivial)

theorem parseArrayLiteral_eats (h : t.kind ≠ .eof) :
    Eats x (k + 1) (fun l => l = t :: us) (Placed x.quoted) (parseArrayLiteral self) := by
  refine eats_token h (fun _ => ?_)
  refine parseLength_stays.bind (fun length _ => ?_)
  refine (expect_eats (by decide)).keeps.bind (fun _ _ => ?_)
  refine (parseElemType_stays hself).bind (fun elemType _ => ?_)
  refine (expect_eats (by decide)).keeps.bind (fun _ _ => ?_)
  refine (parseCommaList_stays hself.fuel (expression_eats hself)).bind (fun elements helements => ?_)
  refine (expect_eats (by decide)).keeps.bind (fun _ _ => ?_)
  cases length with
  | none => exact span_stays (placed_node helements)
  | some n => exact span_stays (placed_node helements)

theorem parseTypedMap_stays {start : Token} :
    Stays x k P (Placed x.quoted) (parseTypedMap self start) := by
  refine (parseTypeArgList_eats hself).lower.keeps.bind (fun args _ => ?_)
  refine (expect_eats (by decide)).keeps.bind (fun _ _ => ?_)
  refine (parseMapLiteralEntries_stays hself).bind (fun entries hentries => ?_)
  exact (expect_eats (by decide)).keeps.bind (fun _ _ => span_stays (placed_node hentries))

theorem parseMap_stays {start : Token} (h : t.kind ≠ .eof) :
    Stays x k (fun l => l = t :: us) (Placed x.quoted) (parseMap self start) := by
  refine stays_token h (fun _ => keeps_peek (fun u vs _ => ?_))
  split
  · exact stays_fail _
  · refine (parseMapLiteralEntries_stays hself).bind (fun entries hentries => ?_)
    exact (expect_eats (by decide)).keeps.bind (fun _ _ => span_stays (placed_node hentries))

theorem parseStructFields_stays {start : Token} {name : String} (h : t.kind ≠ .eof) :
    Stays x k (fun l => l = t :: us) (Placed x.quoted) (parseStructFields self start name) := by
  refine stays_token h (fun _ => ?_)
  refine (parseStructLiteralFields_stays hself).bind (fun fields hfields => ?_)
  exact (expect_eats (by decide)).keeps.bind (fun _ _ => span_stays (placed_node hfields))

theorem parseQualified_stays {start : Token} {name : String} (h : t.kind ≠ .eof) :
    Stays x k (fun l => l = t :: us) (Placed x.quoted) (parseQualified self start name) := by
  refine stays_token h (fun _ => ?_)
  refine (expectText_eats (by decide)).keeps.bind (fun member _ => keeps_peek (fun u vs _ => ?_))
  split
  · rename_i hcolons
    exact (parseEnumRef_eats (ne_eof hcolons (by decide))).lower.keeps
  · split
    · rename_i hbrace
      exact parseStructFields_stays hself (ne_eof hbrace (by decide))
    · exact span_stays (placed_node placedAll_nil)

theorem parseStructOrName_stays {start : Token} {name : String} :
    Stays x k P (Placed x.quoted) (parseStructOrName self start name) := by
  have hname (l : List Token) : Stays x k (fun l' => l' = l) (Placed x.quoted)
      (span (node (.identifier name []) []) start) := span_stays (placed_node placedAll_nil)
  refine keeps_peek (fun t us _ => ?_)
  split
  · rename_i hbrace
    have hne := ne_eof hbrace (by decide)
    refine keeps_ahead (structAhead_stays hne) (fun isStruct _ => ?_)
    split
    · exact parseStructFields_stays hself hne
    · exact hname _
  · exact hname _

/-- Where no call and no literal comes of the brackets, the parser goes back to the name. -/
theorem parseApplied_stays {start : Token} {name : String} :
    Stays x k P (Placed x.quoted) (parseApplied self start name) := by
  intro ts c hk hc hP
  have hname (c' : Cursor Token) : Gives (Allowed x.faulty) c'
      (reset c >>= fun _ => parseStructOrName self start name)
      (fun n c'' => Good x.stream ts c'' ∧ Placed x.quoted n) :=
    gives_reset (parseStructOrName_stays (P := fun _ => True) hself ts c hk hc trivial)
  have hk' : x.stream.total ts.tail ≤ k := Nat.le_trans (total_tail_le ts) hk
  refine gives_mark (((parseTypeArgList_eats (P := fun _ => True) hself).lower ts c hk hc trivial).bind
    (fun args c' hc' => gives_peek hc'.1 (fun t us hrest => ?_)))
  split
  · rename_i h
    have hcall : Stays x k (fun l => l = t :: us) (Placed x.quoted) (advance >>= fun _ =>
        parseCallArgs self >>= fun nodes => expect .rparen >>= fun _ =>
          span (node (.functionCall name args) nodes) start) := by
      refine stays_token (ne_eof h (by decide)) (fun _ => ?_)
      refine (parseCallArgs_stays hself).bind (fun nodes hnodes => ?_)
      exact (expect_eats (by decide)).keeps.bind (fun _ _ => span_stays (placed_node hnodes))
    exact (hcall ts.tail c' hk' hc'.1 hrest).mono (fun _ _ hn => ⟨hn.1.of_tail, hn.2⟩)
  · split
    · rename_i h
      have hahead := structAhead_stays (ne_eof h (by decide)) ts.tail c' hk' hc'.1 hrest
      refine gives_mark (hahead.bind (fun isStruct _ _ => gives_reset ?_))
      split
      · have hstruct : Stays x k (fun _ => True) (Placed x.quoted)
            (parseStructOrName self start (formatTypeRef (.generic (.named name) args))) :=
          parseStructOrName_stays hself
        exact (hstruct ts.tail c' hk' hc'.1 trivial).mono (fun _ _ hn => ⟨hn.1.of_tail, hn.2⟩)
      · exact hname c'
    · exact hname c'

theorem parseNamed_stays {start : Token} {name : String} :
    Stays x k P (Placed x.quoted) (parseNamed self start name) := by
  refine keeps_peek (fun t us _ => keeps_mark (fun c hc => ?_))
  have hrest : c.rest = t :: us := hc
  rw [hrest]
  dsimp only
  split
  · exact parseTypedMap_stays hself
  · split
    · rename_i h
      exact parseMap_stays hself (ne_eof h.2 (by decide))
    · split
      · rename_i h
        have hdot : kindAt (t :: us) 0 = some .dot := by
          simp only [qualifiedAhead, Bool.and_eq_true, beq_iff_eq] at h
          exact h.1.1
        exact parseQualified_stays hself (ne_eof (Option.some.inj hdot) (by decide))
      · split
        · rename_i h
          exact (parseEnumRef_eats (ne_eof h (by decide))).lower.keeps
        · split
          · exact parseApplied_stays hself
          · exact parseStructOrName_stays hself

theorem parseIdentifier_eats (h : t.kind ≠ .eof) :
    Eats x (k + 1) (fun l => l = t :: us) (Placed x.quoted) (parseIdentifier self) := by
  refine eats_token h (fun _ => ?_)
  dsimp only
  split
  · exact span_stays (placed_node placedAll_nil)
  · exact parseNamed_stays hself

theorem parseParens_eats (h : t.kind ≠ .eof) :
    Eats x (k + 1) (fun l => l = t :: us) (Placed x.quoted) (parseParens self) := by
  refine eats_token h (fun _ => ?_)
  refine (expression_eats hself).keeps.bind (fun expr hexpr => ?_)
  exact (expect_eats (by decide)).keeps.bind (fun _ _ => keeps_pure hexpr)

theorem parseFun_eats (h : t.kind ≠ .eof) :
    Eats x (k + 1) (fun l => l = t :: us) (Placed x.quoted) (parseFun self) :=
  eats_token h (fun _ => (parseFunctionExpr_eats hself t).lower.keeps)

theorem parsePrimary_eats : Eats x (k + 1) P (Placed x.quoted) (parsePrimary x.py self) := by
  refine consumes_peek (fun t us _ => ?_)
  split
  · rename_i h
    exact parseIf_eats hself (ne_eof h (by decide))
  · rename_i h
    exact parseMatch_eats hself (ne_eof h (by decide))
  · rename_i h
    exact parseReturn_eats hself (ne_eof h (by decide))
  · rename_i h
    exact parseErrReturn_eats hself (ne_eof h (by decide))
  · exact parseBlockExpr_eats hself
  · rename_i h
    exact parseString_eats hself h
  · rename_i h
    exact parseLiteral_eats (ne_eof h (by decide))
  · rename_i h
    exact parseLiteral_eats (ne_eof h (by decide))
  · rename_i h
    exact parseLiteral_eats (ne_eof h (by decide))
  · rename_i h
    exact parseLiteral_eats (ne_eof h (by decide))
  · rename_i h
    exact parseFun_eats hself (ne_eof h (by decide))
  · rename_i h
    exact parseLiteral_eats (ne_eof h (by decide))
  · rename_i h
    exact parseNew_eats hself (ne_eof h (by decide))
  · rename_i h
    exact parseIdentifier_eats hself (ne_eof h (by decide))
  · rename_i h
    exact parseArrayLiteral_eats hself (ne_eof h (by decide))
  · rename_i h
    exact parseParens_eats hself (ne_eof h (by decide))
  · exact eats_fail _

end Primaries

section Postfixes
variable {x : Setting} {k first : ℕ} {P : List Token → Prop} {t : Token} {us : List Token}
  {importedModules : List String} {expr : Node}

/-- Behind the first token of an expression there are tokens with greater positions. -/
theorem behind_first (hfirst : first < x.floor) (h : x.stream.fine t) : x.quoted ∨ first < t.pos :=
  h.2.2.imp id (fun hle => Nat.lt_of_lt_of_le hfirst hle)

theorem spanOfCall_stays {n name : Node} (hn : Placed x.quoted n) (hlt : x.quoted ∨ first < t.pos) :
    Stays x k P (Placed x.quoted) (spanOfCall n first name t) := by
  unfold spanOfCall
  split
  · exact spanOn_stays hn hlt
  · exact keeps_pure hn

theorem fallibleSuffix_eats {op : String} (hfirst : first < x.floor) (h : t.kind ≠ .eof)
    (hexpr : Placed x.quoted expr) :
    Eats x (k + 1) (fun l => l = t :: us) (Placed x.quoted) (fallibleSuffix op first expr) :=
  eats_token h (fun hfine =>
    spanOn_stays (placed_node (List.forall_mem_singleton.mpr hexpr)) (behind_first hfirst hfine))

theorem memberCall_placed {field : String} {args : List Node} (hexpr : Placed x.quoted expr)
    (hargs : PlacedAll x.quoted args) :
    Placed x.quoted (memberCall importedModules expr field args) := by
  unfold memberCall
  split
  · split
    · exact placed_node hargs
    · exact placed_node (placedAll_cons.mpr ⟨hexpr, hargs⟩)
  · exact placed_node (placedAll_cons.mpr ⟨hexpr, hargs⟩)

/-- The second of two tokens that a suffix begins with. -/
theorem stays_question {α : Type} {Q : α → Prop} {f : Token → Parse α}
    (h : kindAt (t :: us) 1 = some .question) (hf : ∀ u vs, Stays x k (fun l => l = vs) Q (f u)) :
    Stays x k (fun l => l = us) Q (advance >>= f) := by
  refine keeps_advance (fun u vs heq => ?_) (fun u vs _ _ => hf u vs)
  cases heq
  exact notEnd (ne_eof (Option.some.inj h) (by decide))

variable {self : Recursive} (hself : Sound x k self)
include hself

theorem callSuffix_eats (hfirst : first < x.floor) (h : t.kind ≠ .eof) :
    Eats x (k + 1) (fun l => l = t :: us) (Placed x.quoted) (callSuffix self first expr) := by
  refine eats_token h (fun hfine => ?_)
  have hlt := behind_first hfirst hfine
  split
  · split
    · refine (parseType_eats hself).lower.keeps.bind (fun typeName _ => ?_)
      refine (expect_eats (by decide)).keeps.bind (fun _ _ => ?_)
      exact spanOfCall_stays (placed_node placedAll_nil) hlt
    · refine (parseCallArgs_stays hself).bind (fun args hargs => ?_)
      refine (expect_eats (by decide)).keeps.bind (fun _ _ => ?_)
      exact spanOfCall_stays (placed_node hargs) hlt
  · refine (parseCallArgs_stays hself).bind (fun args _ => ?_)
    exact (expect_eats (by decide)).keeps.bind (fun _ _ => stays_fail _)

theorem indexSuffix_eats {typeArgs : Option (List TypeRef)} (h : t.kind ≠ .eof)
    (hexpr : Placed x.quoted expr) :
    Eats x (k + 1) (fun l => l = t :: us) (Placed x.quoted) (indexSuffix self expr typeArgs) := by
  refine eats_token h (fun _ => ?_)
  refine (expression_eats hself).keeps.bind (fun start hstart => keeps_peek (fun u vs _ => ?_))
  split
  · rename_i hcolon
    refine stays_token (ne_eof hcolon (by decide)) (fun _ => keeps_peek (fun u vs _ => ?_))
    split
    · refine (expect_eats (by decide)).keeps.bind (fun _ _ => keeps_pure (placed_node ?_))
      exact placedAll_cons.mpr ⟨hexpr, List.forall_mem_singleton.mpr hstart⟩
    · refine (expression_eats hself).keeps.bind (fun stop hstop => ?_)
      refine (expect_eats (by decide)).keeps.bind (fun _ _ => keeps_pure (placed_node ?_))
      exact placedAll_cons.mpr
        ⟨hexpr, placedAll_cons.mpr ⟨hstart, List.forall_mem_singleton.mpr hstop⟩⟩
  · refine (expect_eats (by decide)).keeps.bind (fun _ _ => keeps_pure (placed_node ?_))
    exact placedAll_cons.mpr ⟨hexpr, List.forall_mem_singleton.mpr hstart⟩

/-- To look at the brackets leaves the parser where it is. -/
theorem typeArgsAhead_gives {ts : List Token} {c : Cursor Token} (hk : x.stream.total ts ≤ k + 1)
    (hc : Good x.stream ts c) :
    Gives (Allowed x.faulty) c (typeArgsAhead self) (fun _ c' => c' = c) := by
  refine gives_mark ((gives_attempt (parseTypeArgList_eats (P := fun _ => True) hself ts c hk hc
    trivial)).bind (fun args c' hargs => ?_))
  cases args with
  | none => exact gives_reset (.ok rfl)
  | some args =>
    exact gives_peek (hargs.1 args rfl).1 (fun _ _ _ => gives_reset (.ok rfl))

theorem bracketSuffix_eats (h : t.kind ≠ .eof) (hexpr : Placed x.quoted expr) :
    Eats x (k + 1) (fun l => l = t :: us) (Placed x.quoted) (bracketSuffix self expr) := by
  unfold bracketSuffix
  split
  · exact indexSuffix_eats hself h hexpr
  · intro ts c hk hc hP
    refine gives_mark ((typeArgsAhead_gives hself hk hc).bind (fun ahead c' hc' => ?_))
    rw [hc']
    have hargs : Eats x (k + 1) (fun l => l = t :: us) (fun _ => True) (parseTypeArgList self) :=
      parseTypeArgList_eats hself
    split
    · exact indexSuffix_eats hself h hexpr ts c hk hc hP
    · split
      · refine (hargs.bind (fun _ _ => keeps_pure ?_)) ts c hk hc hP
        exact (placed_node placedAll_nil).withSpan hexpr.span_fits
      · split
        · exact (hargs.bind (fun _ _ => keeps_pure (placed_node placedAll_nil))) ts c hk hc hP
        · exact indexSuffix_eats hself h hexpr ts c hk hc hP

theorem moduleSuffix_stays {qname : String} :
    Stays x k P (Placed x.quoted) (moduleSuffix self qname) := by
  refine (parseTypeArgList_eats hself).lower.keeps.bind
    (fun typeArgs _ => keeps_peek (fun t us _ => ?_))
  split
  · rename_i h
    refine stays_token (ne_eof h (by decide)) (fun _ => ?_)
    refine (parseCallArgs_stays hself).bind (fun args hargs => ?_)
    exact (expect_eats (by decide)).keeps.bind (fun _ _ => keeps_pure (placed_node hargs))
  · split
    · exact keeps_pure (placed_node placedAll_nil)
    · rename_i h
      refine stays_token (ne_eof (not_not.mp h) (by decide)) (fun _ => ?_)
      refine (parseStructLiteralFields_stays hself).bind (fun fields hfields => ?_)
      exact (expect_eats (by decide)).keeps.bind (fun _ _ => keeps_pure (placed_node hfields))

theorem dotSuffix_eats (hfirst : first < x.floor) (h : t.kind ≠ .eof)
    (hexpr : Placed x.quoted expr) :
    Eats x (k + 1) (fun l => l = t :: us) (Placed x.quoted)
      (dotSuffix importedModules self first expr) := by
  have hfield (field : String) : Placed x.quoted (node (.fieldAccess field) [expr]) :=
    placed_node (List.forall_mem_singleton.mpr hexpr)
  refine eats_token h (fun hfine => ?_)
  refine (expectText_eats (by decide)).keeps.bind (fun field _ => keeps_peek (fun u vs _ => ?_))
  refine keeps_mark (fun c hrest => ?_)
  split
  · split
    · exact moduleSuffix_stays hself
    · exact keeps_pure (hfield field)
  · split
    · rename_i hparen
      have hsame : c.rest = u :: vs := hrest
      rw [hsame]
      refine stays_token (ne_eof hparen (by decide)) (fun _ => ?_)
      refine (parseCallArgs_stays hself).bind (fun args hargs => ?_)
      refine (expect_eats (by decide)).keeps.bind (fun _ _ => ?_)
      exact spanOn_stays (memberCall_placed hexpr hargs) (behind_first hfirst hfine)
    · exact keeps_pure (hfield field)

theorem errorHandlerSuffix_eats (hfirst : first < x.floor) (h : t.kind ≠ .eof)
    (hquestion : kindAt (t :: us) 1 = some .question) (hexpr : Placed x.quoted expr) :
    Eats x (k + 1) (fun l => l = t :: us) (Placed x.quoted)
      (errorHandlerSuffix self first expr) := by
  refine eats_token h (fun hfine => stays_question hquestion (fun u vs => ?_))
  refine (expectText_eats (by decide)).keeps.bind (fun errorName _ => ?_)
  refine (parseBlock_eats hself).lower.keeps.bind (fun handler hhandler => ?_)
  refine spanOn_stays (placed_node ?_) (behind_first hfirst hfine)
  exact placedAll_cons.mpr ⟨hexpr, List.forall_mem_singleton.mpr hhandler⟩

theorem errorMatchSuffix_eats (hfirst : first < x.floor) (h : t.kind ≠ .eof)
    (hquestion : kindAt (t :: us) 1 = some .question) (hexpr : Placed x.quoted expr) :
    Eats x (k + 1) (fun l => l = t :: us) (Placed x.quoted) (errorMatchSuffix self first expr) := by
  refine eats_token h (fun hfine => stays_question hquestion (fun u vs => ?_))
  refine (expectText_eats (by decide)).keeps.bind (fun errorName _ => ?_)
  refine (parseMatchArms_eats hself).lower.keeps.bind (fun arms harms => ?_)
  exact spanOn_stays (placed_node (placedAll_cons.mpr ⟨hexpr, harms⟩)) (behind_first hfirst hfine)

/-- A suffix that is there has a token. -/
abbrev Suffixed (x : Setting) (ts : List Token) (r : Option Node) (c : Cursor Token) : Prop :=
  Good x.stream ts c ∧ ∀ n ∈ r, Good x.stream ts.tail c ∧ Placed x.quoted n

omit hself in
theorem suffixed_some {p : Parse Node} {ts : List Token} {c : Cursor Token}
    (h : Eats x (k + 1) (fun l => l = t :: us) (Placed x.quoted) p) (hk : x.stream.total ts ≤ k)
    (hc : Good x.stream ts c) (hrest : c.rest = t :: us) :
    Gives (Allowed x.faulty) c (some <$> p) (Suffixed x ts) := by
  have hmap : Eats x k (fun l => l = t :: us) (fun r => ∀ n ∈ r, Placed x.quoted n) (some <$> p) :=
    h.lower.map (fun n hn m hm => Option.mem_some_iff.mp hm ▸ hn)
  exact (hmap ts c hk hc hrest).mono (fun r c' hr => ⟨hr.1.of_tail, fun n hn => ⟨hr.1, hr.2 n hn⟩⟩)

omit hself in
theorem suffixed_none {ts : List Token} {c : Cursor Token} (hc : Good x.stream ts c) :
    Gives (Allowed x.faulty) c (pure none) (Suffixed x ts) :=
  .ok ⟨hc, fun _ hn => absurd hn (Option.not_mem_none _)⟩

theorem suffix_gives {ts : List Token} {c : Cursor Token} (hfirst : first < x.floor)
    (hexpr : Placed x.quoted expr) (hk : x.stream.total ts ≤ k) (hc : Good x.stream ts c) :
    Gives (Allowed x.faulty) c (suffix importedModules self first expr) (Suffixed x ts) := by
  refine gives_peek hc (fun t us hrest => gives_mark ?_)
  rw [hrest]
  split
  · rename_i h
    exact suffixed_some (callSuffix_eats hself hfirst (ne_eof h (by decide))) hk hc hrest
  · rename_i h
    exact suffixed_some (bracketSuffix_eats hself (ne_eof h (by decide)) hexpr) hk hc hrest
  · rename_i h
    exact suffixed_some (dotSuffix_eats hself hfirst (ne_eof h (by decide)) hexpr) hk hc hrest
  · rename_i h
    exact suffixed_some (fallibleSuffix_eats hfirst (ne_eof h (by decide)) hexpr) hk hc hrest
  · rename_i h
    exact suffixed_some (fallibleSuffix_eats hfirst (ne_eof h (by decide)) hexpr) hk hc hrest
  · rename_i h
    split
    · rename_i hquestion
      exact suffixed_some (errorHandlerSuffix_eats hself hfirst (ne_eof h (by decide)) hquestion hexpr)
        hk hc hrest
    · exact suffixed_none hc
  · rename_i h
    split
    · rename_i hquestion
      exact suffixed_some (errorMatchSuffix_eats hself hfirst (ne_eof h (by decide)) hquestion hexpr)
        hk hc hrest
    · exact suffixed_none hc
  · exact suffixed_none hc

theorem suffixTurn_turns (hfirst : first < x.floor) (hexpr : Placed x.quoted expr) :
    Turns x.stream (Allowed x.faulty) k P (Placed x.quoted) (Placed x.quoted)
      (suffixTurn importedModules self first expr) := by
  intro ts c hk hc hP
  refine (suffix_gives hself hfirst hexpr hk hc).bind (fun next c' hnext => ?_)
  cases next with
  | none => exact .ok ⟨hnext.1, hexpr⟩
  | some n => exact .ok (hnext.2 n rfl)

end Postfixes

section Operators
variable {x : Setting} {k : ℕ} {P : List Token → Prop} {importedModules : List String}
  {self : Recursive}

variable (hself : Sound x k self)
include hself

/-- The tokens behind the first one have greater positions, so that no suffix begins at it. -/
theorem parsePostfix_eats :
    Eats x (k + 1) P (Placed x.quoted) (parsePostfix x.py importedModules self) := by
  intro ts c hk hc hP
  refine gives_peek hc (fun t us hrest => ?_)
  have hsuffix : t :: us <:+ ts := hrest ▸ hc.suffix
  have hlater : ∀ u ∈ us, x.quoted ∨ t.pos < u.pos :=
    (List.pairwise_cons.mp (hrest ▸ hc.ordered)).1
  have hfine : ∀ u ∈ us, x.stream.fine u :=
    fun u hu => hc.fine u (hrest ▸ List.mem_cons_of_mem t hu)
  have hhere : Good x.stream (t :: us) c := hrest ▸ hc.self
  have htotal : x.stream.total (t :: us) ≤ k + 1 := Nat.le_trans (total_suffix hsuffix) hk
  refine (parsePrimary_eats (P := fun _ => True) hself (t :: us) c htotal hhere trivial).bind
    (fun expr c' hexpr => ?_)
  have hbehind : Good (x.from (t.pos + 1)).stream us c' :=
    hexpr.1.change rfl (fun u hu h => ⟨h.1, h.2.1, hlater u hu⟩) rfl
  have hloop : Stays (x.from (t.pos + 1)) k (fun _ => True) (Placed x.quoted)
      (iterate (suffixTurn importedModules self t.pos) self.fuel expr) :=
    keeps_iterate (I := Placed x.quoted) hself.fuel hexpr.2
      (fun n hn => suffixTurn_turns (hself.from _) (Nat.lt_succ_self _) hn)
  refine (hloop us c' (total_tail htotal) hbehind trivial).mono (fun n c'' hn => ⟨?_, hn.2⟩)
  have hback : Good x.stream us c'' := hn.1.change rfl (fun u hu _ => hfine u hu) rfl
  exact hback.mono (suffix_tail hsuffix)

theorem parseUnary_eats :
    Eats x (k + 1) P (Placed x.quoted) (parseUnary x.py importedModules self) := by
  refine consumes_peek (fun t us _ => ?_)
  split
  · rename_i h
    have hne : t.kind ≠ .eof := fun heof => absurd (heof ▸ h) (by decide)
    refine eats_token hne (fun _ => ?_)
    refine (hself.unary x.floor _).keeps.bind (fun operand hoperand => keeps_pure ?_)
    exact placed_node (List.forall_mem_singleton.mpr hoperand)
  · exact parsePostfix_eats hself

omit hself in
/-- A level of operators is as sound as the operands. -/
theorem parseLevel_eats {fuel : ℕ} {ops : List TokenKind} {parseOperand : Parse Node}
    (hfuel : k ≤ fuel) (heof : TokenKind.eof ∉ ops)
    (hoperand : ∀ P, Eats x (k + 1) P (Placed x.quoted) parseOperand) :
    Eats x (k + 1) P (Placed x.quoted) (parseLevel fuel ops parseOperand) := by
  refine (hoperand P).bind (fun left hleft => keeps_iterate hfuel hleft (fun left hleft => ?_))
  refine turns_peek (fun t us _ => ?_)
  split
  · rename_i h
    have hne : t.kind ≠ .eof := fun hkind => heof (hkind ▸ h)
    refine Consumes.turns (Consumes.lower (eats_token hne (fun _ => ?_)))
    refine (hoperand _).lower.keeps.bind (fun right hright => keeps_pure (placed_node ?_))
    exact placedAll_cons.mpr ⟨hleft, List.forall_mem_singleton.mpr hright⟩
  · exact turns_leave hleft

theorem parseMultiplicative_eats :
    Eats x (k + 1) P (Placed x.quoted) (parseMultiplicative x.py importedModules self) :=
  parseLevel_eats hself.fuel (by decide) (fun _ => parseUnary_eats hself)

theorem parseAdditive_eats :
    Eats x (k + 1) P (Placed x.quoted) (parseAdditive x.py importedModules self) :=
  parseLevel_eats hself.fuel (by decide) (fun _ => parseMultiplicative_eats hself)

theorem parseComparison_eats :
    Eats x (k + 1) P (Placed x.quoted) (parseComparison x.py importedModules self) :=
  parseLevel_eats hself.fuel (by decide) (fun _ => parseAdditive_eats hself)

theorem parseLogicAnd_eats :
    Eats x (k + 1) P (Placed x.quoted) (parseLogicAnd x.py importedModules self) :=
  parseLevel_eats hself.fuel (by decide) (fun _ => parseComparison_eats hself)

theorem parseLogicOr_eats :
    Eats x (k + 1) P (Placed x.quoted) (parseLogicOr x.py importedModules self) :=
  parseLevel_eats hself.fuel (by decide) (fun _ => parseLogicAnd_eats hself)

theorem parseExpression_eats :
    Eats x (k + 1) P (Placed x.quoted) (parseExpression x.py importedModules self) :=
  parseLogicOr_eats hself

end Operators

end NewClLang.ExpressionOutcomes
