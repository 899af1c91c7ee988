import NewClLang.LexerTotality
import NewClLang.StatementParser

set_option autoImplicit false

/-!
# The texts inside of tokens

A text that a token leaves to another parser is shorter than the text that the token has been read
from.
-/
namespace NewClLang.EmbeddedTexts
open ExceptOutcomes Lexer LexerTotality ParserBasics PythonText StatementParser
open TypeSyntax (strip isSpace)

section Strings
variable {py : Interpreter} {source : List Char} {start i j : ℕ}

theorem strip_length (t : List Char) : (strip t).length ≤ t.length :=
  Nat.le_trans (List.rdropWhile_prefix _ _).length_le (List.dropWhile_suffix _).length_le

theorem slice_length (source : List Char) (i j : ℕ) : (slice source i j).length ≤ j - i := by
  rw [slice_eq, List.length_take]
  exact Nat.min_le_left _ _

theorem interpolationLoop_length {fuel depth : ℕ} {quote : Option Char} {expr : List Char}
    (hstart : start ≤ i) (h : interpolationLoop source start fuel i depth quote = .ok (expr, j)) :
    start + expr.length + 1 ≤ j := by
  induction fuel generalizing i depth quote with
  | zero => cases h
  | succ fuel ih =>
    rw [interpolationLoop] at h
    split at h
    · cases h
    · obtain ⟨ch, -, h⟩ := bind_eq_ok.mp h
      have hnext : start ≤ i + 1 := Nat.le_succ_of_le hstart
      cases quote with
      | some q =>
        dsimp only at h
        split at h
        · exact ih (Nat.le_add_right_of_le hstart) h
        · exact ih hnext h
      | none =>
        dsimp only at h
        split at h
        · exact ih hnext h
        · split at h
          · exact ih hnext h
          · split at h
            · split at h
              · split at h
                · cases h
                · cases h
                  have hstrip := strip_length (slice source start i)
                  have hslice := slice_length source start i
                  omega
              · exact ih hnext h
            · split at h
              · split at h
                · cases h
                · exact ih hnext h
              · exact ih hnext h

theorem decodeUnicode_le {value : List Char} (h : decodeUnicode py source i = .ok (value, j)) :
    i ≤ j := by
  have hscan := le_scanWhile (· != '\x7d') source (i + 3)
  unfold decodeUnicode at h
  dsimp only at h
  split at h
  · cases h
  · split at h
    · cases h
    · split at h
      · cases h
      · cases h
      · split at h
        · cases h
        · obtain ⟨c, -, hpair⟩ := map_eq_ok.mp h
          cases hpair
          omega

theorem decodeEscape_le {quote : Char} {value : List Char}
    (h : decodeEscape py source i quote = .ok (value, j)) : i ≤ j := by
  unfold decodeEscape at h
  split at h
  · cases h
  · obtain ⟨ec, -, h⟩ := bind_eq_ok.mp h
    cases hsimple : simpleEscape quote ec with
    | some c =>
      rw [hsimple] at h
      cases h
      omega
    | none =>
      rw [hsimple] at h
      obtain ⟨braced, -, h⟩ := bind_eq_ok.mp h
      split at h
      · exact decodeUnicode_le h
      · cases h
        omega

theorem partLengths_append (ps qs : List Part) :
    ((ps ++ qs).map partLength).sum = (ps.map partLength).sum + (qs.map partLength).sum := by
  rw [List.map_append, List.sum_append]

/-- Literal text takes nothing. -/
theorem partLengths_flush (parts : List Part) (chars : List Char) :
    ((flush parts chars).map partLength).sum = (parts.map partLength).sum := by
  unfold flush
  split
  · rfl
  · rw [partLengths_append]
    rfl

theorem stringLoop_length {fuel : ℕ} {chars : List Char} {parts : List Part} {interpolated : Bool}
    {value : StringValue}
    (h : stringLoop py source start fuel i chars parts interpolated = .ok (value, j)) :
    valueLength value + i + 1 ≤ (parts.map partLength).sum + j := by
  induction fuel generalizing i chars parts interpolated with
  | zero => cases h
  | succ fuel ih =>
    rw [stringLoop] at h
    split at h
    · cases h
    · obtain ⟨ch, -, h⟩ := bind_eq_ok.mp h
      split at h
      · cases h
        have hparts : valueLength (if interpolated = true then .interpolated (flush parts chars)
            else .plain chars) ≤ (parts.map partLength).sum := by
          split
          · exact Nat.le_of_eq (partLengths_flush parts chars)
          · exact Nat.zero_le _
        omega
      · split at h
        · obtain ⟨⟨value', j'⟩, hescape, h⟩ := bind_eq_ok.mp h
          have hle := decodeEscape_le hescape
          have hrest := ih h
          omega
        · split at h
          · obtain ⟨doubled, -, h⟩ := bind_eq_ok.mp h
            split at h
            · have hrest := ih h
              omega
            · obtain ⟨⟨expr, j'⟩, hexpr, h⟩ := bind_eq_ok.mp h
              have hscanned := interpolationLoop_length (Nat.le_refl _) hexpr
              have hrest := ih h
              rw [partLengths_append, partLengths_flush] at hrest
              have hpart : ([Part.expr expr].map partLength).sum = expr.length + 2 := rfl
              omega
          · split at h
            · obtain ⟨doubled, -, h⟩ := bind_eq_ok.mp h
              split at h
              · have hrest := ih h
                omega
              · cases h
            · have hrest := ih h
              omega

end Strings

section Tokens
variable {py : Interpreter} {source : List Char} {i j : ℕ} {t : Token}

theorem scanString_length {value : StringValue} (h : scanString py source i = .ok (value, j)) :
    valueLength value + i + 2 ≤ j := by
  have hloop := stringLoop_length h
  rw [List.map_nil, List.sum_nil] at hloop
  omega

/-- A token that is no literal in quotes has the position at which it begins. -/
structure Unquoted (i : ℕ) (t : Token) : Prop where
  noString : t.kind ≠ .string
  noChar : t.kind ≠ .char
  pos : t.pos = i
  plain : Token.string t = .plain []

theorem lexNumber_unquoted (h : lexNumber py source i = .ok (t, j)) : Unquoted i t := by
  obtain ⟨pointed, -, h⟩ := bind_eq_ok.mp h
  obtain ⟨ranged, -, h⟩ := bind_eq_ok.mp h
  split at h
  · unfold lexFloat at h
    split at h
    · cases h
    · obtain ⟨ch, -, h⟩ := bind_eq_ok.mp h
      split at h
      · cases h
      · dsimp only at h
        split at h
        · cases h
          exact ⟨by simp, by simp, rfl, rfl⟩
        · cases h
  · unfold lexInteger at h
    dsimp only at h
    split at h
    · obtain ⟨value, -, hvalue⟩ := map_eq_ok.mp h
      cases hvalue
      exact ⟨by simp, by simp, rfl, rfl⟩
    · cases h

theorem keyword_unquoted : ∀ row ∈ keywords, row.2 ≠ .string ∧ row.2 ≠ .char := by decide

theorem symbol_unquoted :
    ∀ row ∈ threes ++ (twos ++ ones), row.2 ≠ .string ∧ row.2 ≠ .char := by decide

theorem lexWord_unquoted : Unquoted i (lexWord py source i).1 := by
  have hkind : (lexWord py source i).1.kind ≠ .string ∧ (lexWord py source i).1.kind ≠ .char := by
    simp only [lexWord]
    cases hlookup : keywords.lookup (slice source i (scanWhile (isWordChar py) source i)) with
    | none => decide
    | some kind => exact keyword_unquoted _ (AssociationLists.mem_of_lookup hlookup)
  refine ⟨hkind.1, hkind.2, rfl, ?_⟩
  simp only [lexWord]
  split <;> rfl

theorem symbolAt_unquoted {table : List (List Char × TokenKind)} {width : ℕ}
    (hkinds : ∀ row ∈ table, row.2 ≠ .string ∧ row.2 ≠ .char)
    (h : symbolAt source table width i = some (t, j)) : Unquoted i t := by
  unfold symbolAt at h
  split at h
  · obtain ⟨kind, hkind, htoken⟩ := Option.map_eq_some_iff.mp h
    cases htoken
    have hrow := hkinds _ (AssociationLists.mem_of_lookup hkind)
    exact ⟨hrow.1, hrow.2, rfl, rfl⟩
  · cases h

theorem lexSymbol_unquoted {c : Char} (h : lexSymbol source i c = .ok (t, j)) : Unquoted i t := by
  unfold lexSymbol at h
  split at h
  · rename_i lexed hlexed
    cases h
    rcases Option.or_eq_some_iff.mp hlexed with hthree | ⟨-, hlexed⟩
    · exact symbolAt_unquoted (fun row hrow => symbol_unquoted row (List.mem_append_left _ hrow)) hthree
    · rcases Option.or_eq_some_iff.mp hlexed with htwo | ⟨-, hone⟩
      · exact symbolAt_unquoted (fun row hrow =>
          symbol_unquoted row (List.mem_append_right _ (List.mem_append_left _ hrow))) htwo
      · exact symbolAt_unquoted (fun row hrow =>
          symbol_unquoted row (List.mem_append_right _ (List.mem_append_right _ hrow))) hone
  · split at h
    · obtain ⟨range, -, h⟩ := bind_eq_ok.mp h
      split at h
      · cases h
        exact ⟨by simp, by simp, rfl, rfl⟩
      · cases h
        exact ⟨by simp, by simp, rfl, rfl⟩
    · cases h

/-- The character at which a turn of the lexer begins tells the literals in quotes from the rest. -/
inductive Lexeme (py : Interpreter) (source : List Char) (i : ℕ) (t : Token) (j : ℕ) : Prop where
  | string {value : StringValue} (hquote : charAt source i = .ok '"')
    (hscan : scanString py source i = .ok (value, j)) (ht : t = ⟨.string, .string value, j⟩)
  | char {code : ℕ} (hquote : charAt source i = .ok '\'') (ht : t = ⟨.char, .char code, j⟩)
  | unquoted {c : Char} (hc : charAt source i = .ok c) (hstring : c ≠ '"') (hchar : c ≠ '\'')
    (h : Unquoted i t)

theorem lexStep_lexeme (h : lexStep py source i = .ok (some t, j)) : Lexeme py source i t j := by
  obtain ⟨ch, hch, h⟩ := bind_eq_ok.mp h
  split at h
  · cases h
  · split at h
    · cases h
    · split at h
      · rename_i hdigit
        obtain ⟨⟨number, k⟩, hnumber, hpair⟩ := map_eq_ok.mp h
        cases hpair
        refine .unquoted hch ?_ ?_ (lexNumber_unquoted hnumber)
        · rintro rfl
          cases (py.digit_ascii '"' (by decide)).symm.trans hdigit
        · rintro rfl
          cases (py.digit_ascii '\'' (by decide)).symm.trans hdigit
      · split at h
        · rename_i hquote
          subst hquote
          obtain ⟨⟨value, k⟩, hscan, hpair⟩ := map_eq_ok.mp h
          cases hpair
          exact .string hch hscan rfl
        · split at h
          · rename_i hquote
            subst hquote
            obtain ⟨scanned, -, hpair⟩ := map_eq_ok.mp h
            cases hpair
            exact .char hch rfl
          · rename_i hstring hchar
            split at h
            · cases h
              exact .unquoted hch hstring hchar lexWord_unquoted
            · obtain ⟨⟨symbol, k⟩, hsymbol, hpair⟩ := map_eq_ok.mp h
              cases hpair
              exact .unquoted hch hstring hchar (lexSymbol_unquoted hsymbol)

/-- The token and the texts inside of it fit into what has been read. -/
theorem Lexeme.length_le (h : Lexeme py source i t j) (hlt : i < j) : innerLength t + 1 + i ≤ j := by
  cases h with
  | @string value _ hscan ht =>
    have hlength := scanString_length hscan
    rw [ht]
    change valueLength value + 1 + i ≤ j
    omega
  | char _ ht =>
    rw [ht]
    change 0 + 1 + i ≤ j
    omega
  | unquoted _ _ _ h =>
    rw [innerLength, h.plain]
    change 0 + 1 + i ≤ j
    omega

end Tokens

section Texts
variable {py : Interpreter} {source : List Char} {i stop : ℕ} {tokens : List Token}

def weights (tokens : List Token) : ℕ := (tokens.map fun t => innerLength t + 1).sum

theorem weights_append (ts us : List Token) : weights (ts ++ us) = weights ts + weights us := by
  rw [weights, List.map_append, List.sum_append, weights, weights]

theorem pieces_weights (h : Pieces py source i tokens stop) : weights tokens + i ≤ stop := by
  induction h with
  | done i => exact Nat.le_of_eq (Nat.zero_add i)
  | @piece i j stop token tokens h hlt hrest ih =>
    rw [weights_append]
    cases token with
    | none =>
      change 0 + weights tokens + i ≤ stop
      omega
    | some t =>
      have hpiece := (lexStep_lexeme h).length_le hlt
      have hone : weights (some t).toList = innerLength t + 1 := rfl
      omega

/-- Tokens that are cut out of the whole text, with the end behind them. -/
def Cut (py : Interpreter) (source : List Char) (tokens : List Token) : Prop :=
  ∃ front, Pieces py source 0 front source.length ∧
    tokens = front ++ [⟨.eof, .text [], source.length⟩]

/-- The errors of the lexer. -/
def LexFails (py : Interpreter) (source : List Char) (e : PythonText.Raised) : Prop :=
  (∃ message, e = .syntaxError message) ∨ (e = .valueError ∧ LexicalReading.Faulty py source)

theorem lex_ends (py : Interpreter) (source : List Char) :
    Ends (LexFails py source) (Cut py source) (lex py source) := by
  have hloop := lexLoop_reads py source (Nat.zero_le _) (Nat.lt_succ_self (source.length - 0))
  rw [Nat.sub_zero, List.drop_zero] at hloop
  rcases hloop with ⟨front, hlex, hpieces, -⟩ | ⟨message, hlex, -⟩ | ⟨hlex, hfaulty⟩
  · rw [lex, bind_ok hlex]
    exact .ok ⟨front, hpieces, rfl⟩
  · rw [lex, bind_error hlex]
    exact .error (Or.inl ⟨message, rfl⟩)
  · rw [lex, bind_error hlex]
    exact .error (Or.inr ⟨rfl, hfaulty⟩)

/-- The tokens of a text, with the texts inside of them, are no longer than the text and its end. -/
theorem Cut.weights_le (h : Cut py source tokens) : weights tokens ≤ source.length + 1 := by
  obtain ⟨front, hpieces, htokens⟩ := h
  have hfront := pieces_weights hpieces
  have hlast : weights [(⟨.eof, .text [], source.length⟩ : Token)] = 1 := rfl
  rw [htokens, weights_append, hlast]
  exact Nat.succ_le_succ hfront

end Texts

end NewClLang.EmbeddedTexts
