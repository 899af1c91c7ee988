import NewClLang.StatementOutcomes

set_option autoImplicit false

/-!
# Source locations

`compiler/source_location.py`, the positions of the tokens, and the spans of the nodes. Without
literals in quotes the tokens stand where they begin, and a span is exact unless it goes on from a
receiver whose own is not.
-/
namespace NewClLang.SourceLocations
open EmbeddedTexts ExceptOutcomes Lexer LexerTotality ParsedNodes ParserBasics ParserOutcomes RoseTrees
  StatementOutcomes StatementParser TokenParsers
open LexicalReading (readLexeme)
open PythonText (Interpreter charAt charAt_cons)

section Lines

/-- `source.rfind("\n", 0, pos)`. -/
def lastNewline (source : List Char) : ℕ → Option ℕ
  | 0 => none
  | pos + 1 => if source[pos]? = some '\n' then some pos else lastNewline source pos

/-- `line_col_for_node`, for a node of a file with this source. -/
def lineColForNode (source : List Char) (l : Labelled) : ℕ × ℕ :=
  match l.span with
  | none => (0, 0)
  | some span =>
    let pos := span.start
    let line := (source.take pos).count '\n' + 1
    let col := match lastNewline source pos with
      | none => pos + 1
      | some newline => pos - newline
    (line, col)

/-- The line and the column of the character at an offset. Behind a newline a line begins. -/
def place (source : List Char) : ℕ → ℕ × ℕ
  | 0 => (1, 1)
  | pos + 1 =>
    let (line, col) := place source pos
    if source[pos]? = some '\n' then (line + 1, 1) else (line, col + 1)

variable {source : List Char} {p q : ℕ}

theorem lastNewline_lt {newline : ℕ} (h : lastNewline source p = some newline) : newline < p := by
  induction p with
  | zero => cases h
  | succ p ih =>
    rw [lastNewline] at h
    split at h
    · cases h
      exact Nat.lt_succ_self _
    · exact Nat.lt_succ_of_lt (ih h)

theorem place_line (source : List Char) (p : ℕ) :
    (place source p).1 = (source.take p).count '\n' + 1 := by
  induction p with
  | zero => rfl
  | succ p ih =>
    rw [place, List.take_add_one, List.count_append]
    dsimp only
    split
    · rename_i h
      rw [h, ih]
      rfl
    · rename_i h
      have hnone : (source[p]?.toList).count '\n' = 0 := by
        refine List.count_eq_zero.mpr (fun hmem => h ?_)
        exact Option.mem_toList.mp hmem
      rw [hnone, ih]

theorem place_col (source : List Char) (p : ℕ) :
    (place source p).2 = match lastNewline source p with
      | none => p + 1
      | some newline => p - newline := by
  induction p with
  | zero => rfl
  | succ p ih =>
    rw [place, lastNewline]
    dsimp only
    split
    · exact (Nat.add_sub_cancel_left p 1).symm
    · change (place source p).2 + 1 = _
      rw [ih]
      cases hlast : lastNewline source p with
      | none => rfl
      | some newline =>
        have hlt := lastNewline_lt hlast
        change p - newline + 1 = p + 1 - newline
        omega

/-- `line_col_for_node` gives the place of the position at which the span starts. -/
theorem lineColForNode_eq (label : Label) (span : Span) :
    lineColForNode source ⟨label, some span⟩ = place source span.start :=
  Prod.ext (place_line source span.start).symm (place_col source span.start).symm

/-- What is behind is on a later line, or on the same line in a later column. -/
theorem place_lt (source : List Char) (h : p < q) : (place source p).1 < (place source q).1 ∨
    (place source p).1 = (place source q).1 ∧ (place source p).2 < (place source q).2 := by
  have hstep (r : ℕ) : (place source r).1 < (place source (r + 1)).1 ∨
      (place source r).1 = (place source (r + 1)).1 ∧
        (place source r).2 < (place source (r + 1)).2 := by
    rw [place]
    dsimp only
    split
    · exact Or.inl (Nat.lt_succ_self _)
    · exact Or.inr ⟨rfl, Nat.lt_succ_self _⟩
  induction q with
  | zero => exact absurd h (Nat.not_lt_zero p)
  | succ q ih =>
    have hnext := hstep q
    rcases Nat.lt_succ_iff_lt_or_eq.mp h with hlt | rfl
    · have hbefore := ih hlt
      omega
    · exact hnext

theorem place_injective : place source p = place source q ↔ p = q := by
  refine ⟨fun h => ?_, fun h => congrArg _ h⟩
  rcases Nat.lt_trichotomy p q with hlt | heq | hlt
  · have hplace := place_lt source hlt
    rw [h] at hplace
    omega
  · exact heq
  · have hplace := place_lt source hlt
    rw [h] at hplace
    omega

end Lines

section Tokens
variable {py : Interpreter} {source : List Char} {i j stop : ℕ} {tokens before : List Token}
  {token : Option Token}

/-- No token is a literal in quotes. -/
def NoQuotes (tokens : List Token) : Prop := ∀ t ∈ tokens, t.kind ≠ .string ∧ t.kind ≠ .char

/-- The text has a literal in quotes before it has anything that the lexer does not read. -/
inductive Quoted (py : Interpreter) : List Char → Prop where
  | here {c : Char} {rest next : List Char} (h : readLexeme py (c :: rest) = .next next)
    (hquote : c = '"' ∨ c = '\'') : Quoted py (c :: rest)
  | later {text rest : List Char} (h : readLexeme py text = .next rest) (hrest : Quoted py rest) :
    Quoted py text

/-- Every token that the lexer yields behind others has the offset at which its turn begins, which is
behind theirs. The end is behind all of them. -/
structure TokensExact (py : Interpreter) (source : List Char) : Prop where
  offset : ∀ before i t j, Pieces py source 0 before i → lexStep py source i = .ok (some t, j) →
    t.pos = i ∧ ∀ u ∈ before, u.pos < t.pos
  increasing : ∀ tokens, lex py source = .ok tokens → tokens.Pairwise fun t u => t.pos < u.pos

/-- Where a turn of the lexer comes to, there is what has not been read. -/
theorem lexStep_next (h : lexStep py source i = .ok (token, j)) :
    i < j ∧ ∃ c rest, source.drop i = c :: rest ∧ charAt source i = .ok c ∧
      readLexeme py (c :: rest) = .next (source.drop j) := by
  obtain ⟨c, hc, -⟩ := bind_eq_ok.mp h
  have hdrop : source[i]? = some c := by
    unfold charAt at hc
    split at hc
    · rename_i d hd
      cases hc
      exact hd
    · cases hc
  obtain ⟨hlt, heq⟩ := List.getElem?_eq_some_iff.mp hdrop
  have hrest : source.drop i = c :: source.drop (i + 1) := by
    rw [List.drop_eq_getElem_cons hlt, heq]
  have hreads := lexStep_reads py hrest
  rw [h] at hreads
  generalize hread : readLexeme py (source.drop i) = r at hreads
  cases hreads with
  | next hlt => exact ⟨hlt, c, _, hrest, hc, hrest ▸ hread⟩

theorem lexStep_lt (h : lexStep py source i = .ok (token, j)) : i < j := (lexStep_next h).1

/-- A token stands where its turn begins if and only if it is no literal in quotes. -/
theorem pos_eq_iff {t : Token} (h : lexStep py source i = .ok (some t, j)) :
    t.pos = i ↔ t.kind ≠ .string ∧ t.kind ≠ .char := by
  have hne : j ≠ i := Nat.ne_of_gt (lexStep_lt h)
  cases lexStep_lexeme h with
  | string _ _ ht =>
    rw [ht]
    exact iff_of_false hne (fun hkinds => hkinds.1 rfl)
  | char _ ht =>
    rw [ht]
    exact iff_of_false hne (fun hkinds => hkinds.2 rfl)
  | unquoted _ _ _ h => exact iff_of_true h.pos ⟨h.noString, h.noChar⟩

/-- Where a lexeme is read, the turn of the lexer comes to what is behind it. -/
theorem lexStep_of_read {text next : List Char} (htext : source.drop i = text)
    (h : readLexeme py text = .next next) :
    ∃ token j, lexStep py source i = .ok (token, j) ∧ i < j ∧ source.drop j = next := by
  cases text with
  | nil => cases h
  | cons c rest =>
    have hreads := lexStep_reads py htext
    rw [htext, h] at hreads
    generalize hstep : lexStep py source i = x at hreads
    generalize hread : LexicalReading.Reading.next next = r at hreads
    cases hreads with
    | @next token j hlt hle =>
      cases hread
      exact ⟨token, j, rfl, hlt, rfl⟩
    | malformed => cases hread
    | faulty => cases hread

theorem lexStep_quote {c : Char} (hc : charAt source i = .ok c) (hquote : c = '"' ∨ c = '\'')
    (h : lexStep py source i = .ok (token, j)) : ∃ t ∈ token, t.kind = .string ∨ t.kind = .char := by
  have hdigit : ¬ py.isdigit c = true := by
    rcases hquote with rfl | rfl
    · rw [py.digit_ascii '"' (by decide)]
      decide
    · rw [py.digit_ascii '\'' (by decide)]
      decide
  rw [lexStep, bind_ok hc] at h
  rcases hquote with rfl | rfl
  · rw [if_neg (by decide), if_neg (by decide), if_neg hdigit, if_pos rfl] at h
    obtain ⟨scanned, -, hpair⟩ := map_eq_ok.mp h
    cases hpair
    exact ⟨_, rfl, Or.inl rfl⟩
  · rw [if_neg (by decide), if_neg (by decide), if_neg hdigit, if_neg (by decide), if_pos rfl] at h
    obtain ⟨scanned, -, hpair⟩ := map_eq_ok.mp h
    cases hpair
    exact ⟨_, rfl, Or.inr rfl⟩

/-- The texts in which the lexer comes to no literal in quotes. -/
theorem noQuotes_iff : (∀ tokens stop, Pieces py source i tokens stop → NoQuotes tokens) ↔
    ¬ Quoted py (source.drop i) := by
  constructor
  · intro h hquoted
    generalize htext : source.drop i = text at hquoted
    induction hquoted generalizing i with
    | @here c rest next hread hquote =>
      obtain ⟨token, j, hstep, hlt, -⟩ := lexStep_of_read htext hread
      obtain ⟨t, ht, hkind⟩ := lexStep_quote (charAt_cons htext) hquote hstep
      have hkinds := h _ j (.piece hstep hlt (.done j)) t
        (List.mem_append_left _ (Option.mem_toList.mpr ht))
      exact hkind.elim hkinds.1 hkinds.2
    | later hread _ ih =>
      obtain ⟨token, j, hstep, hlt, hdrop⟩ := lexStep_of_read htext hread
      exact ih (fun tokens stop hpieces t ht =>
        h _ stop (.piece hstep hlt hpieces) t (List.mem_append_right _ ht)) hdrop
  · intro hquoted tokens stop hpieces
    induction hpieces with
    | done i => exact fun t ht => absurd ht List.not_mem_nil
    | @piece i j stop token tokens hstep hlt hrest ih =>
      obtain ⟨-, c, rest, hdrop, hc, hread⟩ := lexStep_next hstep
      rw [hdrop] at hquoted
      have hnone {quote : Char} (hquote : charAt source i = .ok quote) :
          ¬ (quote = '"' ∨ quote = '\'') := by
        cases hc.symm.trans hquote
        exact fun h => hquoted (.here hread h)
      intro t ht
      rcases List.mem_append.mp ht with ht | ht
      · obtain rfl := Option.mem_toList.mp ht
        cases lexStep_lexeme hstep with
        | string hquote => exact absurd (Or.inl rfl) (hnone hquote)
        | char hquote => exact absurd (Or.inr rfl) (hnone hquote)
        | unquoted _ _ _ h => exact ⟨h.noString, h.noChar⟩
      · exact ih (fun hlater => hquoted (.later hread hlater)) t ht

theorem Pieces.snoc {k : ℕ} (hbefore : Pieces py source k before i)
    (h : lexStep py source i = .ok (token, j)) : Pieces py source k (before ++ token.toList) j := by
  induction hbefore with
  | done i =>
    have hlast := Pieces.piece h (lexStep_lt h) (.done j)
    rwa [List.append_nil] at hlast
  | piece hstep hlt hrest ih =>
    rw [List.append_assoc]
    exact .piece hstep hlt (ih h)

/-- Where each token stands at the beginning of its turn, no token is a literal in quotes. -/
theorem TokensExact.noQuotes (h : TokensExact py source) (hbefore : Pieces py source 0 before i)
    (hpieces : Pieces py source i tokens stop) : NoQuotes tokens := by
  induction hpieces generalizing before with
  | done i => exact fun t ht => absurd ht List.not_mem_nil
  | @piece i j stop token tokens hstep hlt hrest ih =>
    intro t ht
    rcases List.mem_append.mp ht with ht | ht
    · obtain rfl := Option.mem_toList.mp ht
      exact (pos_eq_iff hstep).mp (h.offset before i t j hbefore hstep).1
    · exact ih (Pieces.snoc hbefore hstep) t ht

/-- Tokens that stand at the beginnings of their turns stand in order. -/
theorem pieces_increasing (h : Pieces py source i tokens stop) (hquotes : NoQuotes tokens) :
    i ≤ stop ∧ (∀ t ∈ tokens, i ≤ t.pos ∧ t.pos < stop) ∧
      tokens.Pairwise fun t u => t.pos < u.pos := by
  induction h with
  | done i => exact ⟨Nat.le_refl i, fun t ht => absurd ht List.not_mem_nil, .nil⟩
  | @piece i j stop token tokens hstep hlt hrest ih =>
    have hrestQuotes : NoQuotes tokens := fun t ht => hquotes t (List.mem_append_right _ ht)
    obtain ⟨hle, hbounds, hordered⟩ := ih hrestQuotes
    cases token with
    | none =>
      refine ⟨by omega, fun t ht => ?_, hordered⟩
      have hbound := hbounds t ht
      omega
    | some t =>
      have hpos : t.pos = i := (pos_eq_iff hstep).mpr (hquotes t List.mem_cons_self)
      refine ⟨by omega, fun u hu => ?_, List.pairwise_cons.mpr ⟨fun u hu => ?_, hordered⟩⟩
      · rcases List.mem_cons.mp hu with rfl | hu
        · omega
        · have hbound := hbounds u hu
          omega
      · have hbound := hbounds u hu
        omega

theorem cut_increasing (h : Cut py source tokens)
    (hquotes : ∀ tokens stop, Pieces py source 0 tokens stop → NoQuotes tokens) :
    NoQuotes tokens ∧ tokens.Pairwise fun t u => t.pos < u.pos := by
  obtain ⟨front, hpieces, rfl⟩ := h
  have hfront := hquotes front _ hpieces
  obtain ⟨-, hbounds, hordered⟩ := pieces_increasing hpieces hfront
  refine ⟨fun t ht => ?_, List.pairwise_append.mpr ⟨hordered, List.pairwise_singleton _ _, ?_⟩⟩
  · rcases List.mem_append.mp ht with ht | ht
    · exact hfront t ht
    · rw [List.mem_singleton.mp ht]
      exact ⟨TokenKind.noConfusion, TokenKind.noConfusion⟩
  · intro t ht u hu
    rw [List.mem_singleton.mp hu]
    exact (hbounds t ht).2

theorem tokensExact_of_noQuotes
    (hquotes : ∀ tokens stop, Pieces py source 0 tokens stop → NoQuotes tokens) :
    TokensExact py source := by
  refine ⟨fun before i t j hbefore hstep => ?_, fun tokens hlex => ?_⟩
  · have hall := hquotes _ _ (Pieces.snoc hbefore hstep)
    have hpos := (pos_eq_iff hstep).mpr (hall t (List.mem_append_right _ List.mem_cons_self))
    have hbounds := (pieces_increasing hbefore (hquotes _ _ hbefore)).2.1
    refine ⟨hpos, fun u hu => ?_⟩
    rw [hpos]
    exact (hbounds u hu).2
  · exact (cut_increasing ((lex_ends py source).result hlex) hquotes).2

end Tokens

section Nodes
variable {py : Interpreter} {source : List Char} {tokens : List Token} {n : Node}
  {importedModules : List String}

/-- A node with a span begins at a place of the file, and `line_col_for_node` gives it. -/
def Exact (source : List Char) (l : Labelled) : Prop :=
  ∀ s ∈ l.span, ∃ first, s.first = some first ∧ lineColForNode source l = place source first

/-- A span that goes on from a receiver has one that is said to begin where the node does. -/
def Anchored (l : Labelled) : Prop :=
  ∀ s ∈ l.span, ∀ recorded, s.receiver = some recorded → recorded = s.first

/-- The tokens and the nodes of a text are where they are said to be. -/
structure PositionsExact (py : Interpreter) (source : List Char) : Prop where
  tokens : TokensExact py source
  nodes : ∀ tokens importedModules n, lex py source = .ok tokens →
    parse py tokens importedModules = .ok n → n.All (Exact source)

/-- There are no literals in quotes, and no span goes on from a receiver that is not said to begin
where it begins. -/
structure Anchorable (py : Interpreter) (source : List Char) : Prop where
  noQuotes : ¬ Quoted py source
  anchored : ∀ tokens importedModules n, lex py source = .ok tokens →
    parse py tokens importedModules = .ok n → n.All Anchored

theorem exact_iff {l : Labelled} (h : LabelFits False l) : Exact source l ↔ Anchored l := by
  obtain ⟨label, span⟩ := l
  cases span with
  | none =>
    exact iff_of_true (fun s hs => absurd hs (Option.not_mem_none s))
      (fun s hs => absurd hs (Option.not_mem_none s))
  | some s =>
    obtain ⟨first, hfirst, hiff⟩ := (h s rfl).resolve_left id
    have hexact : Exact source ⟨label, some s⟩ ↔ s.start = first := by
      constructor
      · intro hplace
        obtain ⟨first', hfirst', heq⟩ := hplace s rfl
        cases hfirst.symm.trans hfirst'
        rw [lineColForNode_eq] at heq
        exact place_injective.mp heq
      · intro heq s' hs'
        cases hs'
        exact ⟨first, hfirst, by rw [lineColForNode_eq, heq]⟩
    rw [hexact, hiff]
    constructor
    · intro hall s' hs' recorded hrecorded
      cases hs'
      rw [hall recorded hrecorded, hfirst]
    · intro hall recorded hrecorded
      rw [hall s rfl recorded hrecorded, hfirst]

theorem all_congr {P Q R : Labelled → Prop} (h : n.All P) (hiff : ∀ l, P l → (Q l ↔ R l)) :
    n.All Q ↔ n.All R := by
  induction n using RoseTree.induct with
  | hnode label children ih =>
    have hchildren := (allOf_iff _ children).mp h.2
    have hsame : AllOf Q children ↔ AllOf R children := by
      rw [allOf_iff, allOf_iff]
      exact forall₂_congr (fun t ht => ih t ht (hchildren t ht))
    exact and_congr (hiff label h.1) hsame

/-- What the parser makes of a text without literals in quotes. -/
theorem parse_placed (hlex : lex py source = .ok tokens)
    (hquotes : ∀ tokens stop, Pieces py source 0 tokens stop → NoQuotes tokens)
    (hparse : parse py tokens importedModules = .ok n) : Placed False n := by
  have hcut := (lex_ends py source).result hlex
  obtain ⟨hnone, hordered⟩ := cut_increasing hcut hquotes
  have hends : EndsInEof tokens := by
    obtain ⟨front, hpieces, rfl⟩ := hcut
    exact ⟨front, _, rfl, rfl, hpieces.kinds⟩
  have hgood : Good (Setting.mk py True False 0).stream tokens ⟨none, tokens⟩ := by
    refine ⟨closed_of_endsInEof hends, List.suffix_refl _, fun t ht => ⟨fun _ _ _ => trivial, ?_,
      Or.inr (Nat.zero_le _)⟩, hordered.imp (fun hlt => Or.inr hlt)⟩
    exact fun hkinds => hkinds.elim (hnone t ht).1 (hnone t ht).2
  have hresult : Ends (Allowed True) (fun n => Placed False n ∧ n.label.label = .program)
    (parse py tokens importedModules) := parse_ends hgood
  exact (hresult.result hparse).1

end Nodes

end NewClLang.SourceLocations
