import NewClLang.ExpressionOutcomes

set_option autoImplicit false

/-!
# What the parser comes to: statements and programs

Parsing ends with a program or with an error that is declared, if no interpolation has a number that
the lexer does not convert.
-/
namespace NewClLang.StatementOutcomes
open EmbeddedTexts ExceptOutcomes ExpressionOutcomes ExpressionParser Lexer ParsedNodes ParserBasics
  ParserOutcomes StatementParser TokenParsers TypeRefs
open PythonText (Interpreter)

section Statements
variable {x : Setting} {k : ℕ} {P : List Token → Prop} {t : Token} {us : List Token}
  {importedModules : List String}

theorem parseBreak_eats (h : t.kind ≠ .eof) :
    Eats x (k + 1) (fun l => l = t :: us) (Placed x.quoted) parseBreak := by
  refine eats_token h (fun _ => (accept_stays (by decide)).bind (fun _ _ => ?_))
  exact span_stays (placed_node placedAll_nil)

theorem parseImport_eats (h : t.kind ≠ .eof) :
    Eats x (k + 1) (fun l => l = t :: us) (Placed x.quoted) parseImport := by
  refine eats_token h (fun _ => ?_)
  refine (expectText_eats (by decide)).keeps.bind (fun name _ => keeps_peek (fun u vs _ => ?_))
  split
  · exact stays_fail _
  · split
    · exact stays_fail _
    · refine (span_stays (placed_node placedAll_nil)).bind (fun stmt hstmt => ?_)
      exact (accept_stays (by decide)).bind (fun _ _ => keeps_pure hstmt)

theorem parseSymbol_stays : Stays x k P (fun _ => True) parseSymbol := by
  refine keeps_peek (fun t us _ => ?_)
  split
  · rename_i h
    refine stays_token (ne_eof h (by decide)) (fun _ => ?_)
    exact (expect_eats (by decide)).keeps.bind (fun _ _ => keeps_pure trivial)
  · exact keeps_pure trivial

theorem parseLib_stays : Stays x k P (fun _ => True) parseLib := by
  refine keeps_peek (fun t us _ => ?_)
  split
  · rename_i h
    exact stays_token (ne_eof h (by decide)) (fun _ => keeps_pure trivial)
  · exact keeps_pure trivial

theorem parseSuccessName_stays : Stays x k P (fun _ => True) parseSuccessName := by
  refine keeps_mark (fun c _ => ?_)
  split
  · rename_i h
    refine keeps_advance (fun t us heq => ?_) (fun t us heq _ => ?_)
    · rw [← heq] at h
      exact notEnd (ne_eof (Option.some.inj h.1) (by decide))
    · refine keeps_advance (fun u vs hvs => ?_) (fun _ _ _ _ => keeps_pure trivial)
      rw [← heq, ← hvs] at h
      exact notEnd (ne_eof (Option.some.inj h.2) (by decide))
  · exact keeps_pure trivial

variable {self : Recursive} (hself : Sound x k self)
include hself

theorem parseLet_eats (h : t.kind ≠ .eof) :
    Eats x (k + 1) (fun l => l = t :: us) (Placed x.quoted) (parseLet x.py importedModules self) := by
  refine eats_token h (fun _ => ?_)
  refine (expectText_eats (by decide)).keeps.bind (fun name _ => ?_)
  refine (parseColonType_stays hself).bind (fun annotated _ => ?_)
  refine (expect_eats (by decide)).keeps.bind (fun _ _ => ?_)
  refine (parseExpression_eats hself).lower.keeps.bind (fun init hinit => ?_)
  refine (span_stays (placed_node (List.forall_mem_singleton.mpr hinit))).bind (fun stmt hstmt => ?_)
  exact (accept_stays (by decide)).bind (fun _ _ => keeps_pure hstmt)

theorem parseTypeAlias_eats (h : t.kind ≠ .eof) :
    Eats x (k + 1) (fun l => l = t :: us) (Placed x.quoted) (parseTypeAlias self) := by
  refine eats_token h (fun _ => ?_)
  refine (expectText_eats (by decide)).keeps.bind (fun name _ => ?_)
  refine (expect_eats (by decide)).keeps.bind (fun _ _ => ?_)
  refine (parseType_eats hself).lower.keeps.bind (fun target _ => ?_)
  refine (span_stays (placed_node placedAll_nil)).bind (fun stmt hstmt => ?_)
  exact (accept_stays (by decide)).bind (fun _ _ => keeps_pure hstmt)

theorem parseReceiver_stays : Stays x k P (fun _ => True) (parseReceiver self) := by
  refine keeps_peek (fun t us _ => ?_)
  split
  · rename_i h
    refine stays_token (ne_eof h (by decide)) (fun _ => ?_)
    refine (expectText_eats (by decide)).keeps.bind (fun name _ => ?_)
    refine (expect_eats (by decide)).keeps.bind (fun _ _ => ?_)
    refine (parseType_eats hself).lower.keeps.bind (fun type _ => ?_)
    exact (expect_eats (by decide)).keeps.bind (fun _ _ => keeps_pure trivial)
  · exact keeps_pure trivial

theorem parseFunction_eats (h : t.kind ≠ .eof) :
    Eats x (k + 1) (fun l => l = t :: us) (Placed x.quoted) (parseFunction self) := by
  refine eats_token h (fun _ => ?_)
  refine (parseReceiver_stays hself).bind (fun receiver _ => ?_)
  refine (expectText_eats (by decide)).keeps.bind (fun name _ => ?_)
  refine (parseTypeParams_stays hself).bind (fun typeParams _ => ?_)
  refine (expect_eats (by decide)).keeps.bind (fun _ _ => ?_)
  refine (parseParamList_stays hself true).bind (fun params hparams => ?_)
  refine (expect_eats (by decide)).keeps.bind (fun _ _ => ?_)
  refine (parseColonType_stays hself).bind (fun returnType _ => ?_)
  refine (accept_stays (by decide)).bind (fun fallible _ => ?_)
  refine (parseBlock_eats hself).lower.keeps.bind (fun body hbody => ?_)
  refine (accept_stays (by decide)).bind (fun _ _ => keeps_pure (placed_node ?_))
  exact placedAll_append.mpr ⟨hparams, List.forall_mem_singleton.mpr hbody⟩

theorem parseFunctionSignatureOnly_eats {lib : Option StringValue} (h : t.kind ≠ .eof) :
    Eats x (k + 1) (fun l => l = t :: us) (Placed x.quoted) (parseFunctionSignatureOnly self lib) := by
  refine eats_token h (fun _ => keeps_peek (fun u vs _ => ?_))
  split
  · exact stays_fail _
  · refine (expectText_eats (by decide)).keeps.bind (fun name _ => ?_)
    refine (parseTypeParams_stays hself).bind (fun typeParams _ => ?_)
    split
    · exact stays_fail _
    · refine (expect_eats (by decide)).keeps.bind (fun _ _ => ?_)
      refine (parseParamList_stays hself false).bind (fun params hparams => ?_)
      refine (expect_eats (by decide)).keeps.bind (fun _ _ => ?_)
      refine (parseColonType_stays hself).bind (fun returnType _ => ?_)
      refine (accept_stays (by decide)).bind (fun fallible _ => ?_)
      refine parseSymbol_stays.bind (fun symbol _ => keeps_peek (fun w ws _ => ?_))
      split
      · exact stays_fail _
      · refine keeps_pure (placed_node ?_)
        exact placedAll_append.mpr ⟨hparams, List.forall_mem_singleton.mpr (placed_node placedAll_nil)⟩

theorem externTurn_turns {lib : Option StringValue} {funcs : List Node}
    (hfuncs : PlacedAll x.quoted funcs) :
    Turns x.stream (Allowed x.faulty) k P (PlacedAll x.quoted) (PlacedAll x.quoted)
      (externTurn self lib funcs) := by
  refine turns_peek (fun t us _ => ?_)
  split
  · exact turns_leave hfuncs
  · split
    · exact (eats_fail _).turns
    · split
      · exact (eats_fail _).turns
      · rename_i h
        have hne := ne_eof (not_not.mp h) (by decide)
        refine ((parseFunctionSignatureOnly_eats hself hne).lower.bind_keeps (fun fn hfn => ?_)).turns
        exact (accept_stays (by decide)).bind (fun _ _ => keeps_pure (placed_concat hfuncs hfn))

theorem parseExternBlock_eats (h : t.kind ≠ .eof) :
    Eats x (k + 1) (fun l => l = t :: us) (Placed x.quoted) (parseExternBlock self) := by
  refine eats_token h (fun _ => ?_)
  refine parseLib_stays.bind (fun lib _ => ?_)
  refine (expect_eats (by decide)).keeps.bind (fun _ _ => ?_)
  refine (keeps_iterate (I := PlacedAll x.quoted) hself.fuel placedAll_nil
    (fun funcs hfuncs => externTurn_turns hself hfuncs)).bind (fun funcs hfuncs => ?_)
  refine (expect_eats (by decide)).keeps.bind (fun _ _ => ?_)
  exact (accept_stays (by decide)).bind (fun _ _ => span_stays (placed_node hfuncs))

theorem parseDefer_eats (h : t.kind ≠ .eof) :
    Eats x (k + 1) (fun l => l = t :: us) (Placed x.quoted) (parseDefer self) := by
  refine eats_token h (fun _ => ?_)
  refine (parseBlock_eats hself).lower.keeps.bind (fun body hbody => ?_)
  exact span_stays (placed_node (List.forall_mem_singleton.mpr hbody))

theorem parseSpawn_eats (h : t.kind ≠ .eof) :
    Eats x (k + 1) (fun l => l = t :: us) (Placed x.quoted) (parseSpawn self) := by
  refine eats_token h (fun _ => keeps_peek (fun u vs _ => ?_))
  split
  · exact stays_fail _
  · rename_i hfun
    refine stays_token (ne_eof (not_not.mp hfun) (by decide)) (fun _ => ?_)
    refine (parseFunctionExpr_eats hself u).lower.keeps.bind (fun func hfunc => ?_)
    refine (accept_stays (by decide)).bind (fun _ _ => span_stays (placed_node ?_))
    exact List.forall_mem_singleton.mpr hfunc

theorem parseFailure_stays :
    Stays x k P (fun r => PlacedAll x.quoted (r.map Prod.snd).toList) (parseFailure self) := by
  refine keeps_peek (fun t us _ => ?_)
  split
  · rename_i h
    refine stays_token (ne_eof h (by decide)) (fun _ => ?_)
    refine (expectText_eats (by decide)).keeps.bind (fun name _ => ?_)
    refine (parseBlock_eats hself).lower.keeps.bind (fun block hblock => keeps_pure ?_)
    exact List.forall_mem_singleton.mpr hblock
  · exact keeps_pure placedAll_nil

theorem parseTry_eats (h : t.kind ≠ .eof) :
    Eats x (k + 1) (fun l => l = t :: us) (Placed x.quoted) (parseTry x.py importedModules self) := by
  refine eats_token h (fun _ => parseSuccessName_stays.bind (fun successName _ => ?_))
  refine (parseExpression_eats hself).lower.keeps.bind (fun call hcall => ?_)
  refine (parseBlock_eats hself).lower.keeps.bind (fun successBlock hsuccess => ?_)
  refine (parseFailure_stays hself).bind (fun failure hfailure => ?_)
  refine (accept_stays (by decide)).bind (fun _ _ => span_stays (placed_node ?_))
  exact placedAll_cons.mpr ⟨hcall, placedAll_cons.mpr ⟨hsuccess, hfailure⟩⟩

theorem parseForCondition_eats :
    Eats x (k + 1) P (Placed x.quoted) (parseForCondition x.py importedModules self) := by
  refine (parseExpression_eats hself).bind (fun condition hcondition => ?_)
  refine (parseBlock_eats hself).lower.keeps.bind (fun body hbody => ?_)
  refine (accept_stays (by decide)).bind (fun _ _ => keeps_pure (placed_node ?_))
  exact placedAll_cons.mpr ⟨hcondition, List.forall_mem_singleton.mpr hbody⟩

theorem parseForEach_eats {index : String} (h : t.kind ≠ .eof) :
    Eats x (k + 1) (fun l => l = t :: us) (Placed x.quoted)
      (parseForEach x.py importedModules self index) := by
  refine eats_token h (fun _ => ?_)
  refine (expectText_eats (by decide)).keeps.bind (fun value _ => ?_)
  refine (expect_eats (by decide)).keeps.bind (fun _ _ => ?_)
  refine (parseExpression_eats hself).lower.keeps.bind (fun iterable hiterable => ?_)
  refine (parseBlock_eats hself).lower.keeps.bind (fun body hbody => keeps_pure (placed_node ?_))
  exact placedAll_cons.mpr ⟨hiterable, List.forall_mem_singleton.mpr hbody⟩

theorem parseForRange_eats {index : String} (h : t.kind ≠ .eof) :
    Eats x (k + 1) (fun l => l = t :: us) (Placed x.quoted)
      (parseForRange x.py importedModules self index) := by
  refine eats_token h (fun _ => ?_)
  refine (parseExpression_eats hself).lower.keeps.bind (fun start hstart => ?_)
  refine (expect_eats (by decide)).keeps.bind (fun _ _ => ?_)
  refine (parseExpression_eats hself).lower.keeps.bind (fun stop hstop => ?_)
  refine (parseBlock_eats hself).lower.keeps.bind (fun body hbody => keeps_pure (placed_node ?_))
  exact placedAll_cons.mpr ⟨hstart, placedAll_cons.mpr ⟨hstop, List.forall_mem_singleton.mpr hbody⟩⟩

/-- Where the name is not that of an index, the parser goes back to it. -/
theorem parseFor_eats (h : t.kind ≠ .eof) :
    Eats x (k + 1) (fun l => l = t :: us) (Placed x.quoted) (parseFor x.py importedModules self) := by
  refine eats_token h (fun _ => keeps_peek (fun u vs _ => ?_))
  split
  · exact (parseForCondition_eats hself).lower.keeps
  · intro ts c hk hc hP
    have hk' : x.stream.total ts.tail ≤ k := Nat.le_trans (total_tail_le ts) hk
    have hindex : Eats x k (fun _ => True) (fun _ => True) (expectText .ident) :=
      expectText_eats (by decide)
    refine gives_mark ((hindex ts c hk hc trivial).bind
      (fun index c' hc' => gives_peek hc'.1 (fun w ws hrest => ?_)))
    split
    · rename_i hcomma
      exact ((parseForEach_eats hself (ne_eof hcomma (by decide))).lower.keeps ts.tail c' hk' hc'.1
        hrest).mono (fun _ _ hn => ⟨hn.1.of_tail, hn.2⟩)
    · split
      · rename_i hin
        exact ((parseForRange_eats hself (ne_eof hin (by decide))).lower.keeps ts.tail c' hk' hc'.1
          hrest).mono (fun _ _ hn => ⟨hn.1.of_tail, hn.2⟩)
      · exact gives_reset
          ((parseForCondition_eats (P := fun _ => True) hself).lower.keeps ts c hk hc trivial)

theorem parseStructField_eats : Eats x (k + 1) P (fun _ => True) (parseStructField self) := by
  refine (parseType_eats hself).bind (fun nameOrType _ => keeps_peek (fun t us _ => ?_))
  split
  · rename_i h
    refine stays_token (ne_eof h (by decide)) (fun _ => ?_)
    split
    · exact (parseType_eats hself).lower.keeps.bind (fun _ _ => keeps_pure trivial)
    · exact stays_fail _
  · split
    · exact keeps_pure trivial
    · exact stays_fail _

theorem parseStruct_eats (h : t.kind ≠ .eof) :
    Eats x (k + 1) (fun l => l = t :: us) (Placed x.quoted) (parseStruct self) := by
  refine eats_token h (fun _ => ?_)
  refine (expectText_eats (by decide)).keeps.bind (fun name _ => ?_)
  refine (parseTypeParams_stays hself).bind (fun typeParams _ => ?_)
  refine (expect_eats (by decide)).keeps.bind (fun _ _ => ?_)
  refine (parseCommaList_stays hself.fuel (parseStructField_eats hself).lower).bind (fun fields _ => ?_)
  refine (expect_eats (by decide)).keeps.bind (fun _ _ => ?_)
  exact (accept_stays (by decide)).bind (fun _ _ => keeps_pure (placed_node placedAll_nil))

theorem parseMethodHead_eats (h : t.kind ≠ .eof) :
    Eats x (k + 1) (fun l => l = t :: us) (fun _ => True) (parseMethodHead self) := by
  refine eats_token h (fun _ => keeps_peek (fun u vs _ => ?_))
  split
  · exact stays_fail _
  · refine (expectText_eats (by decide)).keeps.bind (fun name _ => ?_)
    refine (expect_eats (by decide)).keeps.bind (fun _ _ => ?_)
    refine (parseParamList_stays hself false).bind (fun params _ => ?_)
    refine (expect_eats (by decide)).keeps.bind (fun _ _ => ?_)
    refine (parseColonType_stays hself).bind (fun ret _ => ?_)
    refine (accept_stays (by decide)).bind (fun fallible _ => keeps_peek (fun w ws _ => ?_))
    split
    · exact stays_fail _
    · exact (accept_stays (by decide)).bind (fun _ _ => keeps_pure trivial)

theorem ifaceTurn_turns (members : List MethodHead × List TypeRef) :
    Turns x.stream (Allowed x.faulty) k P (fun _ => True) (fun _ => True) (ifaceTurn self members) := by
  refine turns_peek (fun t us _ => ?_)
  split
  · exact turns_leave trivial
  · split
    · exact (eats_fail _).turns
    · split
      · rename_i h
        refine ((parseMethodHead_eats hself (ne_eof h (by decide))).lower.bind_keeps
          (fun _ _ => ?_)).turns
        exact keeps_pure trivial
      · refine ((parseType_eats hself).lower.bind_keeps (fun _ _ => ?_)).turns
        exact (accept_stays (by decide)).bind (fun _ _ => keeps_pure trivial)

theorem parseIface_eats (h : t.kind ≠ .eof) :
    Eats x (k + 1) (fun l => l = t :: us) (Placed x.quoted) (parseIface self) := by
  refine eats_token h (fun _ => ?_)
  refine (expectText_eats (by decide)).keeps.bind (fun name _ => ?_)
  refine (expect_eats (by decide)).keeps.bind (fun _ _ => ?_)
  refine (keeps_iterate (I := fun _ => True) (R := fun _ => True) hself.fuel trivial
    (fun members _ => ifaceTurn_turns hself members)).bind (fun members _ => ?_)
  refine (expect_eats (by decide)).keeps.bind (fun _ _ => ?_)
  exact (accept_stays (by decide)).bind (fun _ _ => keeps_pure (placed_node placedAll_nil))

theorem parseEnum_eats (h : t.kind ≠ .eof) :
    Eats x (k + 1) (fun l => l = t :: us) (Placed x.quoted) (parseEnum self) := by
  refine eats_token h (fun _ => ?_)
  refine (expectText_eats (by decide)).keeps.bind (fun name _ => ?_)
  refine (expect_eats (by decide)).keeps.bind (fun _ _ => ?_)
  refine (parseCommaList_stays (Q := fun _ => True) hself.fuel
    (expectText_eats (by decide))).bind (fun variants _ => ?_)
  refine (expect_eats (by decide)).keeps.bind (fun _ _ => ?_)
  exact (accept_stays (by decide)).bind (fun _ _ => keeps_pure (placed_node placedAll_nil))

theorem parseAssigned_stays {expr : Node} (hexpr : Placed x.quoted expr) :
    Stays x k P (Placed x.quoted) (parseAssigned x.py importedModules self expr) := by
  refine keeps_peek (fun t us _ => ?_)
  split
  · rename_i h
    have hne : t.kind ≠ .eof := fun heof => absurd (heof ▸ h) (by decide)
    refine stays_token hne (fun _ => ?_)
    refine (parseExpression_eats hself).lower.keeps.bind (fun rhs hrhs => keeps_pure (placed_node ?_))
    exact placedAll_cons.mpr ⟨hexpr, List.forall_mem_singleton.mpr hrhs⟩
  · split
    · rename_i h
      have hne : t.kind ≠ .eof := fun heof => absurd (heof ▸ h) (by decide)
      refine stays_token hne (fun _ => keeps_pure (placed_node ?_))
      exact List.forall_mem_singleton.mpr hexpr
    · exact keeps_pure (placed_node (List.forall_mem_singleton.mpr hexpr))

theorem parseIdentStmt_eats :
    Eats x (k + 1) P (Placed x.quoted) (parseIdentStmt x.py importedModules self) := by
  refine (parseExpression_eats hself).bind (fun expr hexpr => ?_)
  refine (parseAssigned_stays hself hexpr).bind (fun stmt hstmt => ?_)
  exact (accept_stays (by decide)).bind (fun _ _ => keeps_pure hstmt)

theorem parseExpressionStatement_eats :
    Eats x (k + 1) P (Placed x.quoted) (parseExpressionStatement x.py importedModules self) := by
  refine (parseExpression_eats hself).bind (fun expr hexpr => ?_)
  refine (accept_stays (by decide)).bind (fun _ _ => keeps_pure (placed_node ?_))
  exact List.forall_mem_singleton.mpr hexpr

theorem parseStatement_eats :
    Eats x (k + 1) P (Placed x.quoted) (parseStatement x.py importedModules self) := by
  refine consumes_peek (fun t us _ => ?_)
  split
  · exact eats_fail _
  · exact eats_fail _
  · rename_i h
    exact parseLet_eats hself (ne_eof h (by decide))
  · rename_i h
    refine consumes_mark (fun c hrest => ?_)
    have hsame : c.rest = t :: us := hrest
    split
    · rw [hsame]
      exact parseFunction_eats hself (ne_eof h (by decide))
    · exact parseExpressionStatement_eats hself
  · rename_i h
    exact parseReturn_eats hself (ne_eof h (by decide))
  · rename_i h
    exact parseStruct_eats hself (ne_eof h (by decide))
  · rename_i h
    exact parseEnum_eats hself (ne_eof h (by decide))
  · exact eats_fail _
  · rename_i h
    exact parseFor_eats hself (ne_eof h (by decide))
  · rename_i h
    exact parseErrReturn_eats hself (ne_eof h (by decide))
  · rename_i h
    exact parseTry_eats hself (ne_eof h (by decide))
  · rename_i h
    exact parseDefer_eats hself (ne_eof h (by decide))
  · rename_i h
    exact parseSpawn_eats hself (ne_eof h (by decide))
  · exact eats_fail _
  · rename_i h
    exact parseBreak_eats (ne_eof h (by decide))
  · exact parseIdentStmt_eats hself
  · exact parseExpressionStatement_eats hself

end Statements

section Programs
variable {x : Setting} {k : ℕ} {importedModules : List String}

/-- With enough levels of calls back every function of the parser is sound. No tokens are so few that
no level is enough. -/
theorem parsers_sound (x : Setting) (importedModules : List String) (k : ℕ) :
    Sound x k (parsers x.py importedModules k) := by
  induction k with
  | zero =>
    have hnone {α : Type} {floor : ℕ} {P : List Token → Prop} {Q : α → Prop} {p : Parse α} :
        Eats (x.from floor) 0 P Q p := by
      intro ts c hk hc _
      obtain ⟨t, us, hrest⟩ := hc.head
      have hlt := hc.weight_lt hrest
      omega
    exact ⟨Nat.le_refl 0, fun _ _ => hnone, fun _ _ => hnone, fun _ _ => hnone, fun _ _ => hnone,
      fun _ _ => hnone⟩
  | succ k ih =>
    exact ⟨Nat.le_refl _, fun floor _ => parseExpression_eats (ih.from floor),
      fun floor _ => parseStatement_eats (ih.from floor),
      fun floor _ => parseUnary_eats (ih.from floor), fun floor _ => parsePrimary_eats (ih.from floor),
      fun floor _ => parseType_eats (ih.from floor)⟩

variable {P : List Token → Prop} {self : Recursive} (hself : Sound x k self)
include hself

theorem programTurn_turns {stmts : List Node} (hstmts : PlacedAll x.quoted stmts) :
    Turns x.stream (Allowed x.faulty) k P (PlacedAll x.quoted) (PlacedAll x.quoted)
      (programTurn self stmts) := by
  have hturn {us : List Token} {t : Token} {p : Parse Node}
      (h : Eats x (k + 1) (fun l => l = t :: us) (Placed x.quoted) p) :
      Turns x.stream (Allowed x.faulty) k (fun l => l = t :: us) (PlacedAll x.quoted)
        (PlacedAll x.quoted) (p >>= fun stmt => pure (.inl (stmts ++ [stmt]))) := by
    refine (h.lower.bind_keeps (fun stmt hstmt => keeps_pure ?_)).turns
    exact placed_concat hstmts hstmt
  refine turns_peek (fun t us _ => ?_)
  split
  · exact turns_leave hstmts
  · rename_i h
    exact hturn (parseImport_eats (ne_eof h (by decide)))
  · rename_i h
    exact hturn (parseTypeAlias_eats hself (ne_eof h (by decide)))
  · rename_i h
    exact hturn (parseExternBlock_eats hself (ne_eof h (by decide)))
  · rename_i h
    exact hturn (parseIface_eats hself (ne_eof h (by decide)))
  · refine ((statement_eats hself).bind_keeps (fun stmt hstmt => keeps_pure ?_)).turns
    exact placed_concat hstmts hstmt

theorem parseProgram_stays :
    Stays x k P (fun n => Placed x.quoted n ∧ n.label.label = .program) (parseProgram self) :=
  (keeps_iterate (I := PlacedAll x.quoted) hself.fuel placedAll_nil
    (fun _ hstmts => programTurn_turns hself hstmts)).bind
      (fun _ hstmts => keeps_pure ⟨placed_node hstmts, rfl⟩)

omit hself in
/-- The run of the parser on tokens that are as they should be. -/
theorem parse_ends {tokens : List Token} (h : Good x.stream tokens ⟨none, tokens⟩) :
    Ends (Allowed x.faulty) (fun n => Placed x.quoted n ∧ n.label.label = .program)
      (parse x.py tokens importedModules) := by
  have hfuel : x.stream.total tokens ≤ fuelFor tokens := Nat.le_succ _
  have hrun := parseProgram_stays (P := fun _ => True) (parsers_sound x
    (if importedModules.isEmpty then scanImports tokens else importedModules) (fuelFor tokens))
  exact Ends.map (hrun tokens _ hfuel h trivial) (fun _ hn => hn.2)

end Programs

section Declared
variable {py : Interpreter} {tokens : List Token} {importedModules : List String}

/-- The last token is the end, and no other is. -/
def EndsInEof (tokens : List Token) : Prop :=
  ∃ front last, tokens = front ++ [last] ∧ last.kind = .eof ∧ ∀ t ∈ front, t.kind ≠ .eof

/-- A program, or an error that the parser or the lexer of an interpolation declares. -/
inductive Declared : Except (Failure Raised) Node → Prop where
  | program {n : Node} (h : n.label.label = .program) : Declared (.ok n)
  | parseError (e : ParseError) : Declared (.error (.raised (.parseError e)))
  | syntaxError (message : String) : Declared (.error (.raised (.syntaxError message)))

theorem closed_of_endsInEof {x : Setting} (h : EndsInEof tokens) : Closed x.stream tokens := by
  obtain ⟨front, last, rfl, hlast, hfront⟩ := h
  induction front with
  | nil => exact .last (beq_iff_eq.mpr hlast)
  | cons t ts ih =>
    exact .more (notEnd (hfront t List.mem_cons_self))
      (ih (fun u hu => hfront u (List.mem_cons_of_mem t hu)))

/-- Where the lexer does not convert a number, a statement that begins with the interpolation fails. -/
theorem statement_raises {text : List Char} {parts : List Part} {pos : ℕ} {rest : List Token}
    (h : lex py text = .error .valueError) (self : Recursive) :
    parseStatement py importedModules self
      ⟨none, ⟨.string, .string (.interpolated (.expr text :: parts)), pos⟩ :: rest⟩ =
        .error (.raised .valueError) := by
  have hparts (c : Cursor Token) :
      parseInterpolatedParts py self (.expr text :: parts) c = .error (.raised .valueError) := by
    have hlexed : lexText py text c = .error (.raised .valueError) := by
      rw [lexText, h]
      rfl
    exact bind_error (bind_error hlexed)
  have hprimary : parsePrimary py self
      ⟨none, ⟨.string, .string (.interpolated (.expr text :: parts)), pos⟩ :: rest⟩ =
        .error (.raised .valueError) := bind_error (hparts _)
  have hunary : parseUnary py importedModules self
      ⟨none, ⟨.string, .string (.interpolated (.expr text :: parts)), pos⟩ :: rest⟩ =
        .error (.raised .valueError) := bind_error hprimary
  have hexpression : parseExpression py importedModules self
      ⟨none, ⟨.string, .string (.interpolated (.expr text :: parts)), pos⟩ :: rest⟩ =
        .error (.raised .valueError) :=
    bind_error (bind_error (bind_error (bind_error (bind_error hunary))))
  exact bind_error hexpression

theorem parse_raises {text : List Char} {parts : List Part} {pos : ℕ} {rest : List Token}
    (h : lex py text = .error .valueError) :
    parse py (⟨.string, .string (.interpolated (.expr text :: parts)), pos⟩ :: rest) importedModules =
      .error (.raised .valueError) := by
  have hrun (imported : List String) (k : ℕ) : parseProgram (parsers py imported (k + 1))
      ⟨none, ⟨.string, .string (.interpolated (.expr text :: parts)), pos⟩ :: rest⟩ =
        .error (.raised .valueError) :=
    bind_error (bind_error (bind_error (statement_raises h (parsers py imported k))))
  rw [parse, fuelFor, hrun]
  rfl

end Declared

end NewClLang.StatementOutcomes
