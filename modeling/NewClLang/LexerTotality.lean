import NewClLang.AssociationLists
import NewClLang.LexicalReading

set_option autoImplicit false

/-!
# The lexer ends, with tokens or with a syntax error
-/
namespace NewClLang.LexerTotality
open ExceptOutcomes PythonText Lexer LexicalReading
open AssociationLists (mem_of_lookup)
open TypeSyntax (isSpace strip)

section Agreement
variable {α β : Type} {source : List Char} {i : ℕ}

/-- What a function of the lexer does from a position on is what is read there. -/
inductive Agrees (source : List Char) (i : ℕ) : Except Raised (α × ℕ) → Reading → Prop where
  | next {a : α} {j : ℕ} (hlt : i < j) (hle : j ≤ source.length) :
    Agrees source i (.ok (a, j)) (.next (source.drop j))
  | malformed {message : String} : Agrees source i (.error (.syntaxError message)) .malformed
  | faulty : Agrees source i (.error .valueError) .faulty

theorem Agrees.next_of {a : α} {j : ℕ} {rest : List Char} (hlt : i < j) (hle : j ≤ source.length)
    (hrest : source.drop j = rest) : Agrees source i (.ok (a, j)) (.next rest) :=
  hrest ▸ .next hlt hle

theorem Agrees.bind {x : Except Raised (α × ℕ)} {r : Reading} (h : Agrees source i x r)
    {f : α × ℕ → Except Raised (β × ℕ)} {g : List Char → Reading}
    (hf : ∀ a j, i < j → j ≤ source.length → Agrees source i (f (a, j)) (g (source.drop j))) :
    Agrees source i (x >>= f) (r.andThen g) := by
  cases h with
  | next hlt hle => exact hf _ _ hlt hle
  | malformed => exact .malformed
  | faulty => exact .faulty

theorem Agrees.map {x : Except Raised (α × ℕ)} {r : Reading} (h : Agrees source i x r)
    {f : α × ℕ → β × ℕ} (hf : ∀ a j, (f (a, j)).2 = j) : Agrees source i (x.map f) r := by
  cases h with
  | @next a j hlt hle =>
    have hpair : f (a, j) = ((f (a, j)).1, j) := Prod.ext rfl (hf a j)
    change Agrees source i (.ok (f (a, j))) _
    rw [hpair]
    exact .next hlt hle
  | malformed => exact .malformed
  | faulty => exact .faulty

theorem Agrees.before {x : Except Raised (α × ℕ)} {r : Reading} {k : ℕ} (h : Agrees source i x r)
    (hle : k ≤ i) : Agrees source k x r := by
  cases h with
  | next hlt hend => exact .next (Nat.lt_of_le_of_lt hle hlt) hend
  | malformed => exact .malformed
  | faulty => exact .faulty

end Agreement

section Escapes
variable {py : Interpreter} {source rest : List Char} {i : ℕ}

theorem drop_two {c d : Char} (h : source.drop i = c :: d :: rest) : source.drop (i + 2) = rest :=
  drop_next (drop_next h)

theorem drop_doubled {c : Char} (h : source.drop (i + 1) = rest) (hc : rest.head? = some c) :
    source.drop (i + 2) = rest.tail := by
  obtain ⟨tail, rfl⟩ := List.head?_eq_some_iff.mp hc
  exact drop_next h

theorem length_le (h : source.drop i = []) : source.length ≤ i := List.drop_eq_nil_iff.mp h

theorem decodeUnicode_reads {body : List Char} (h : source.drop (i + 3) = body) :
    Agrees source i (decodeUnicode py source i) (readUnicode py body) := by
  have hrest := drop_scanWhile (· != '\x7d') source (i + 3)
  have hdigits := slice_scanWhile (· != '\x7d') source (i + 3)
  rw [h] at hrest hdigits
  have hafter := le_scanWhile (· != '\x7d') source (i + 3)
  unfold decodeUnicode readUnicode
  generalize scanWhile (· != '\x7d') source (i + 3) = j at hrest hdigits hafter
  simp only [hdigits]
  cases hbrace : body.dropWhile (· != '\x7d') with
  | nil =>
    rw [hbrace] at hrest
    rw [if_pos (length_le hrest)]
    exact .malformed
  | cons brace rest =>
    rw [hbrace] at hrest
    rw [if_neg (Nat.not_le.mpr (lt_of_drop hrest))]
    simp only
    by_cases hempty : body.takeWhile (· != '\x7d') = []
    · rw [if_pos hempty, if_pos hempty]
      exact .malformed
    · rw [if_neg hempty, if_neg hempty]
      cases hint : pythonInt py (body.takeWhile (· != '\x7d')) 16 with
      | error e =>
        cases pythonInt_error hint
        exact .malformed
      | ok cp =>
        simp only
        by_cases hpoint : 0x10FFFF < cp ∨ (0xD800 ≤ cp ∧ cp ≤ 0xDFFF)
        · rw [if_pos hpoint, if_pos hpoint]
          exact .malformed
        · rw [if_neg hpoint, if_neg hpoint]
          by_cases hneg : cp < 0
          · rw [if_pos hneg, chr, if_neg (by omega)]
            exact .faulty
          · rw [if_neg hneg, chr, if_pos (by omega)]
            exact .next_of (by omega) (lt_of_drop hrest) (drop_next hrest)

theorem simpleEscape_ne {quote ec c : Char} (hquote : quote = '"' ∨ quote = '\'')
    (h : simpleEscape quote ec = some c) : ec ≠ 'u' := by
  rintro rfl
  rcases hquote with rfl | rfl <;> cases h

theorem decodeEscape_reads {quote : Char} (hquote : quote = '"' ∨ quote = '\'')
    (h : source.drop i = '\\' :: rest) :
    Agrees source i (decodeEscape py source i quote) (readEscape py rest) := by
  have hnext := drop_next h
  unfold decodeEscape
  cases rest with
  | nil =>
    rw [if_pos (length_le hnext)]
    exact .malformed
  | cons ec rest =>
    have hlt := lt_of_drop hnext
    rw [if_neg (by omega), bind_ok (charAt_cons hnext), readEscape]
    have hafter := drop_next hnext
    cases hsimple : simpleEscape quote ec with
    | some c =>
      rw [if_neg fun hu => simpleEscape_ne hquote hsimple hu.1]
      exact .next_of (by omega) hlt hafter
    | none =>
      simp only
      rw [bind_ok (nextIs_eq source (i + 2) '\x7b'), hafter]
      simp only [beq_iff_eq]
      by_cases hbraced : ec = 'u' ∧ rest.head? = some '\x7b'
      · rw [if_pos hbraced, if_pos hbraced]
        obtain ⟨body, rfl⟩ := List.head?_eq_some_iff.mp hbraced.2
        exact decodeUnicode_reads (drop_next hafter)
      · rw [if_neg hbraced, if_neg hbraced]
        exact .next_of (by omega) hlt hafter

end Escapes

section Interpolation
variable {source rest : List Char} {start i : ℕ} {c : Char}

theorem slice_next (hstart : start ≤ i) (h : source.drop i = c :: rest) :
    slice source start (i + 1) = slice source start i ++ [c] := by
  have hlt := lt_of_drop h
  have hget : source[i]? = some c := by rw [← List.head?_drop, h, List.head?_cons]
  rw [slice, slice, List.take_add_one, hget, Option.toList_some, List.drop_append_of_le_length]
  rw [List.length_take]
  omega

theorem strip_eq_nil {t : List Char} : strip t = [] ↔ t.all isSpace = true := by
  rw [strip, List.rdropWhile_eq_nil_iff, List.all_eq_true]
  constructor
  · intro h c hc
    cases hdrop : t.dropWhile isSpace with
    | nil => exact List.dropWhile_eq_nil_iff.mp hdrop c hc
    | cons d rest =>
      have hspace := h d (hdrop ▸ List.mem_cons_self)
      have hne : t.dropWhile isSpace ≠ [] := by rw [hdrop]; exact List.cons_ne_nil d rest
      have hother := List.head_dropWhile_not isSpace hne
      simp only [hdrop, List.head_cons] at hother
      rw [hspace] at hother
      cases hother
  · exact fun h c hc => h c ((List.dropWhile_suffix isSpace).subset hc)

theorem interpolationLoop_reads {fuel depth : ℕ} {quote : Option Char} {blank : Bool}
    (hstart : start ≤ i) (hfuel : source.length - i < fuel)
    (hblank : blank = (slice source start i).all isSpace) :
    Agrees source start (interpolationLoop source start fuel i depth quote)
      (readExpr depth quote blank (source.drop i)) := by
  induction fuel generalizing i depth quote blank with
  | zero => omega
  | succ fuel ih =>
    rw [interpolationLoop]
    cases htext : source.drop i with
    | nil =>
      rw [if_pos (length_le htext)]
      exact .malformed
    | cons ch rest =>
      have hlt := lt_of_drop htext
      have hnext := drop_next htext
      have hspace : (blank && isSpace ch) = (slice source start (i + 1)).all isSpace := by
        rw [slice_next hstart htext, List.all_append, hblank]
        simp
      rw [if_neg (Nat.not_le.mpr hlt), bind_ok (charAt_cons htext)]
      have hturn (depth : ℕ) (quote : Option Char) :
          Agrees source start (interpolationLoop source start fuel (i + 1) depth quote)
            (readExpr depth quote (blank && isSpace ch) (source.drop (i + 1))) :=
        ih (Nat.le_succ_of_le hstart) (by omega) hspace
      rw [hnext] at hturn
      cases quote with
      | some q =>
        by_cases hescape : ch = '\\'
        · unfold readExpr
          simp only [if_pos hescape]
          cases rest with
          | nil =>
            have hend := length_le hnext
            cases fuel with
            | zero => omega
            | succ fuel =>
              rw [interpolationLoop, if_pos (by omega)]
              exact .malformed
          | cons c rest =>
            have hboth : (blank && isSpace ch && isSpace c) =
                (slice source start (i + 2)).all isSpace := by
              rw [slice_next (Nat.le_succ_of_le hstart) hnext, List.all_append, ← hspace]
              simp
            have hskip : Agrees source start
                (interpolationLoop source start fuel (i + 2) depth (some q))
                (readExpr depth (some q) (blank && isSpace ch && isSpace c)
                  (source.drop (i + 2))) :=
              ih (by omega) (by omega) hboth
            rw [drop_next hnext] at hskip
            exact hskip
        · unfold readExpr
          simp only [if_neg hescape]
          exact hturn depth _
      | none =>
        by_cases hquote : ch = '\'' ∨ ch = '"'
        · simp only [readExpr, if_pos hquote]
          exact hturn depth _
        · by_cases hopen : ch ∈ ['(', '[', '\x7b']
          · simp only [readExpr, if_neg hquote, if_pos hopen]
            exact hturn (depth + 1) none
          · by_cases hbrace : ch = '\x7d'
            · simp only [readExpr, if_neg hquote, if_neg hopen, if_pos hbrace]
              by_cases hlast : depth - 1 = 0
              · rw [if_pos hlast, if_pos hlast]
                by_cases hempty : strip (slice source start i) = []
                · rw [if_pos hempty, if_pos (hblank.trans (strip_eq_nil.mp hempty))]
                  exact .malformed
                · have hfilled : ¬ blank = true := fun h =>
                    hempty (strip_eq_nil.mpr (hblank.symm.trans h))
                  rw [if_neg hempty, if_neg hfilled]
                  exact .next_of (by omega) hlt hnext
              · rw [if_neg hlast, if_neg hlast]
                exact hturn (depth - 1) none
            · simp only [readExpr, if_neg hquote, if_neg hopen, if_neg hbrace]
              by_cases hclose : ch ∈ [')', ']']
              · rw [if_pos hclose, if_pos hclose]
                by_cases hdepth : depth - 1 < 1
                · rw [if_pos hdepth, if_pos hdepth]
                  exact .malformed
                · rw [if_neg hdepth, if_neg hdepth]
                  exact hturn (depth - 1) none
              · rw [if_neg hclose, if_neg hclose]
                exact hturn depth none

theorem scanInterpolationExpr_reads (source : List Char) (i : ℕ) :
    Agrees source i (scanInterpolationExpr source i) (readExpr 1 none true (source.drop i)) := by
  refine interpolationLoop_reads (Nat.le_refl i) (Nat.lt_succ_self _) ?_
  rw [slice_eq, Nat.sub_self, List.take_zero, List.all_nil]

end Interpolation

section Strings
variable {py : Interpreter} {source rest : List Char} {start i : ℕ}

theorem stringLoop_reads {fuel : ℕ} {chars : List Char} {parts : List Part} {interpolated : Bool}
    (hfuel : source.length - i < fuel) :
    Agrees source i (stringLoop py source start fuel i chars parts interpolated)
      (readString py fuel (source.drop i)) := by
  induction fuel generalizing i chars parts interpolated with
  | zero => omega
  | succ fuel ih =>
    rw [stringLoop]
    cases htext : source.drop i with
    | nil =>
      rw [if_pos (length_le htext)]
      exact .malformed
    | cons ch rest =>
      have hlt := lt_of_drop htext
      have hnext := drop_next htext
      have hlater (j : ℕ) (chars : List Char) (parts : List Part) (interpolated : Bool)
          (hj : i < j) :
          Agrees source i (stringLoop py source start fuel j chars parts interpolated)
            (readString py fuel (source.drop j)) :=
        (ih (by omega)).before (Nat.le_of_lt hj)
      rw [if_neg (Nat.not_le.mpr hlt), bind_ok (charAt_cons htext), readString]
      by_cases hquote : ch = '"'
      · rw [if_pos hquote, if_pos hquote]
        exact .next_of (Nat.lt_succ_self i) hlt hnext
      · rw [if_neg hquote, if_neg hquote]
        by_cases hescape : ch = '\\'
        · subst hescape
          rw [if_pos rfl, if_pos rfl]
          exact (decodeEscape_reads (Or.inl rfl) htext).bind fun value j hj _ => hlater j _ _ _ hj
        · rw [if_neg hescape, if_neg hescape]
          by_cases hopen : ch = '\x7b'
          · rw [if_pos hopen, if_pos hopen, bind_ok (nextIs_eq source (i + 1) '\x7b'), hnext]
            simp only [beq_iff_eq]
            by_cases hdoubled : rest.head? = some '\x7b'
            · rw [if_pos hdoubled, if_pos hdoubled, ← drop_doubled hnext hdoubled]
              exact hlater _ _ _ _ (by omega)
            · rw [if_neg hdoubled, if_neg hdoubled, ← hnext]
              exact ((scanInterpolationExpr_reads source (i + 1)).before (Nat.le_succ i)).bind
                fun expr j hj _ => hlater j _ _ _ hj
          · rw [if_neg hopen, if_neg hopen]
            by_cases hclose : ch = '\x7d'
            · rw [if_pos hclose, if_pos hclose, bind_ok (nextIs_eq source (i + 1) '\x7d'), hnext]
              simp only [beq_iff_eq]
              by_cases hdoubled : rest.head? = some '\x7d'
              · rw [if_pos hdoubled, if_pos hdoubled, ← drop_doubled hnext hdoubled]
                exact hlater _ _ _ _ (by omega)
              · rw [if_neg hdoubled, if_neg hdoubled]
                exact .malformed
            · rw [if_neg hclose, if_neg hclose, ← hnext]
              exact hlater _ _ _ _ (Nat.lt_succ_self i)

theorem scanString_reads {quote : Char} (h : source.drop i = quote :: rest) :
    Agrees source i (scanString py source i) (readString py (quote :: rest).length rest) := by
  have hlt := lt_of_drop h
  have hlength : (quote :: rest).length = source.length - i := by rw [← h, List.length_drop]
  rw [hlength, ← drop_next h]
  exact (stringLoop_reads (by omega)).before (Nat.le_succ i)

theorem charValue_reads (py : Interpreter) {ch : Char} (h : source.drop i = ch :: rest) :
    Agrees source i (charValue py source i)
      (if ch = '\\' then readEscape py rest else .next rest) := by
  rw [charValue, bind_ok (charAt_cons h)]
  by_cases hescape : ch = '\\'
  · subst hescape
    rw [if_pos rfl, if_pos rfl]
    exact decodeEscape_reads (Or.inr rfl) h
  · rw [if_neg hescape, if_neg hescape]
    exact .next_of (Nat.lt_succ_self i) (lt_of_drop h) (drop_next h)

theorem decodeUnicode_one {value : List Char} {j : ℕ}
    (h : decodeUnicode py source i = .ok (value, j)) : ∃ c, value = [c] := by
  simp only [decodeUnicode] at h
  split at h
  · cases h
  · split at h
    · cases h
    · split at h
      · cases h
      · cases h
      · split at h
        · cases h
        · obtain ⟨c, -, hc⟩ := map_eq_ok.mp h
          cases hc
          exact ⟨c, rfl⟩

theorem decodeEscape_one {quote : Char} {value : List Char} {j : ℕ}
    (h : decodeEscape py source i quote = .ok (value, j)) : ∃ c, value = [c] := by
  unfold decodeEscape at h
  split at h
  · cases h
  · obtain ⟨ec, -, h⟩ := bind_eq_ok.mp h
    split at h
    · cases h
      exact ⟨_, rfl⟩
    · obtain ⟨braced, -, h⟩ := bind_eq_ok.mp h
      split at h
      · exact decodeUnicode_one h
      · cases h
        exact ⟨ec, rfl⟩

/-- What stands between the quotes of a character literal is one character. -/
theorem charValue_one {value : List Char} {j : ℕ} (h : charValue py source i = .ok (value, j)) :
    ∃ c, value = [c] := by
  obtain ⟨ch, -, h⟩ := bind_eq_ok.mp h
  split at h
  · exact decodeEscape_one h
  · cases h
    exact ⟨ch, rfl⟩

theorem scanChar_reads {quote : Char} (h : source.drop i = quote :: rest) :
    Agrees source i (scanChar py source i) (readChar py rest) := by
  have hnext := drop_next h
  unfold scanChar
  cases rest with
  | nil =>
    rw [if_pos (length_le hnext)]
    exact .malformed
  | cons ch rest =>
    have hlt := lt_of_drop hnext
    rw [if_neg (by omega), bind_ok (nextIs_eq source (i + 1) '\''), hnext, readChar]
    simp only [List.head?_cons, beq_iff_eq, Option.some.injEq]
    by_cases hempty : ch = '\''
    · rw [if_pos hempty, if_pos hempty]
      exact .malformed
    · have hvalue := charValue_reads py hnext
      have hone (value : List Char) (j : ℕ) (h : charValue py source (i + 1) = .ok (value, j)) :=
        charValue_one h
      have hread : (if ch = '\\' then (readEscape py rest).andThen readQuote else readQuote rest) =
          (if ch = '\\' then readEscape py rest else .next rest).andThen readQuote := by
        split <;> rfl
      rw [if_neg hempty, if_neg hempty, hread]
      generalize (if ch = '\\' then readEscape py rest else .next rest) = reading at hvalue ⊢
      generalize charValue py source (i + 1) = x at hvalue hone ⊢
      cases hvalue with
      | malformed => exact .malformed
      | faulty => exact .faulty
      | @next value j hj hle =>
        obtain ⟨c, rfl⟩ := hone _ _ rfl
        change Agrees source i (nextIs source j '\'' >>= _) (readQuote (source.drop j))
        rw [bind_ok (nextIs_eq source j '\'')]
        cases hclose : source.drop j with
        | nil => exact .malformed
        | cons d tail =>
          by_cases hd : d = '\''
          · subst hd
            exact .next_of (by omega) (lt_of_drop hclose) (drop_next hclose)
          · have hopen : (some d == some '\'') = false := by simp [hd]
            have hquote : readQuote (d :: tail) = .malformed := if_neg (by simp [hd])
            rw [List.head?_cons, hopen, hquote]
            exact .malformed

end Strings

section Numbers
variable {py : Interpreter} {source rest : List Char} {start i : ℕ} {c : Char}

theorem readSuffix_eq (py : Interpreter) (source : List Char) (known : List (List Char)) (i : ℕ) :
    readSuffix py known (source.drop i) =
      if knownSuffix known (suffixAt py source i).1 = true then
        .next (source.drop (suffixAt py source i).2)
      else .malformed := by
  simp only [readSuffix, suffixAt, slice_scanWhile, drop_scanWhile]

theorem suffixAt_bounds (py : Interpreter) (hle : i ≤ source.length) :
    i ≤ (suffixAt py source i).2 ∧ (suffixAt py source i).2 ≤ source.length :=
  ⟨le_scanWhile _ source i, scanWhile_le _ hle⟩

theorem lexFloat_reads (hstart : start ≤ i) (h : source.drop i = c :: rest) :
    Agrees source start (lexFloat py source start i) (readFloat py rest) := by
  have hnext := drop_next h
  unfold lexFloat
  cases rest with
  | nil =>
    rw [if_pos (length_le hnext)]
    exact .malformed
  | cons ch rest =>
    have hlt := lt_of_drop hnext
    rw [if_neg (by omega), bind_ok (charAt_cons hnext), readFloat]
    cases hdigit : py.isdigit ch with
    | false =>
      rw [if_pos rfl, if_neg Bool.false_ne_true]
      exact .malformed
    | true =>
      have hsuffix := readSuffix_eq py source floatSuffixes (scanWhile py.isdigit source (i + 1))
      have hbounds := suffixAt_bounds py (scanWhile_le py.isdigit (Nat.le_of_lt hlt))
      have hafter := lt_scanWhile hnext hdigit
      rw [drop_scanWhile, hnext] at hsuffix
      rw [if_neg (by decide), if_pos rfl, hsuffix]
      by_cases hknown : knownSuffix floatSuffixes
          (suffixAt py source (scanWhile py.isdigit source (i + 1))).1 = true
      · simp only [if_pos hknown]
        exact .next (by omega) hbounds.2
      · simp only [if_neg hknown]
        exact .malformed

theorem lexInteger_reads (h : source.drop start = c :: rest) (hc : py.isdigit c = true) :
    Agrees source start (lexInteger py source start (scanWhile py.isdigit source start))
      (readInteger py ((source.drop start).takeWhile py.isdigit)
        ((source.drop start).dropWhile py.isdigit)) := by
  have hlt := lt_scanWhile h hc
  have hsuffix := readSuffix_eq py source integerSuffixes (scanWhile py.isdigit source start)
  have hbounds := suffixAt_bounds py (scanWhile_le py.isdigit (Nat.le_of_lt (lt_of_drop h)))
  have hne : (source.drop start).takeWhile py.isdigit ≠ [] := by
    rw [h, List.takeWhile_cons_of_pos hc]
    exact List.cons_ne_nil _ _
  have hint := pythonInt_digits py hne fun c hmem => List.mem_takeWhile_imp hmem
  rw [lexInteger, readInteger, slice_scanWhile, hint, ← drop_scanWhile, hsuffix]
  by_cases hknown : knownSuffix integerSuffixes
      (suffixAt py source (scanWhile py.isdigit source start)).1 = true
  · simp only [if_pos hknown, Reading.andThen]
    split
    · exact .next (by omega) hbounds.2
    · exact .faulty
  · simp only [if_neg hknown]
    exact .malformed

theorem lexNumber_reads (h : source.drop start = c :: rest) (hc : py.isdigit c = true) :
    Agrees source start (lexNumber py source start) (readNumber py (source.drop start)) := by
  have hlt := lt_scanWhile h hc
  have hrest := drop_scanWhile py.isdigit source start
  have hinteger := lexInteger_reads h hc
  rw [lexNumber, readNumber]
  generalize scanWhile py.isdigit source start = i at hlt hrest hinteger ⊢
  rw [bind_ok (nextIs_eq source i '.'), bind_ok (nextIs_eq source (i + 1) '.'), ← hrest,
    List.tail_drop]
  by_cases hpoint : (source.drop i).head? = some '.' ∧ (source.drop (i + 1)).head? ≠ some '.'
  · have hboth : ((source.drop i).head? == some '.') = true ∧
        ((source.drop (i + 1)).head? == some '.') = false :=
      ⟨beq_iff_eq.mpr hpoint.1, beq_eq_false_iff_ne.mpr hpoint.2⟩
    obtain ⟨tail, htail⟩ := List.head?_eq_some_iff.mp hpoint.1
    rw [if_pos hboth, if_pos hpoint, drop_next htail]
    exact lexFloat_reads (Nat.le_of_lt hlt) htail
  · have hnot : ¬(((source.drop i).head? == some '.') = true ∧
        ((source.drop (i + 1)).head? == some '.') = false) := fun h =>
      hpoint ⟨beq_iff_eq.mp h.1, beq_eq_false_iff_ne.mp h.2⟩
    rw [if_neg hnot, if_neg hpoint, hrest]
    exact hinteger

end Numbers

section Symbols
variable {py : Interpreter} {source rest : List Char} {start i width : ℕ} {c : Char}
variable {table : List (List Char × TokenKind)}

theorem symbolAt_some (hle : i ≤ source.length)
    (h : startsWithSymbol table width (source.drop i) = true) :
    i + width ≤ source.length ∧
      ∃ token, symbolAt source table width i = some (token, i + width) := by
  rw [startsWithSymbol, Bool.and_eq_true, decide_eq_true_eq, List.length_drop] at h
  have hend : i + width ≤ source.length := by omega
  obtain ⟨kind, hkind⟩ := Option.isSome_iff_exists.mp h.2
  refine ⟨hend, ⟨kind, .text (slice source i (i + width)), i⟩, ?_⟩
  simp only [symbolAt, if_pos hend, slice_eq, Nat.add_sub_cancel_left, hkind, Option.map_some]

theorem symbolAt_none (h : startsWithSymbol table width (source.drop i) = false) :
    symbolAt source table width i = none := by
  rw [startsWithSymbol, Bool.and_eq_false_iff, decide_eq_false_iff_not, List.length_drop] at h
  unfold symbolAt
  split
  · rcases h with h | h
    · omega
    · simp only [slice_eq, Nat.add_sub_cancel_left]
      rw [Option.isNone_iff_eq_none.mp (Option.isSome_eq_false_iff.mp h)]
      rfl
  · rfl

theorem lexSymbol_reads (h : source.drop i = c :: rest) :
    Agrees source i (lexSymbol source i c) (readSymbol (source.drop i)) := by
  have hlt := lt_of_drop h
  unfold lexSymbol readSymbol
  cases hthree : startsWithSymbol threes 3 (source.drop i) with
  | true =>
    obtain ⟨hend, token, htoken⟩ := symbolAt_some (Nat.le_of_lt hlt) hthree
    rw [if_pos rfl, htoken, List.drop_drop]
    exact .next (by omega) hend
  | false =>
    rw [if_neg Bool.false_ne_true, symbolAt_none hthree]
    cases htwo : startsWithSymbol twos 2 (source.drop i) with
    | true =>
      obtain ⟨hend, token, htoken⟩ := symbolAt_some (Nat.le_of_lt hlt) htwo
      rw [if_pos rfl, htoken, List.drop_drop]
      exact .next (by omega) hend
    | false =>
      rw [if_neg Bool.false_ne_true, symbolAt_none htwo]
      cases hone : startsWithSymbol ones 1 (source.drop i) with
      | true =>
        obtain ⟨hend, token, htoken⟩ := symbolAt_some (Nat.le_of_lt hlt) hone
        rw [if_pos rfl, htoken, List.drop_drop]
        exact .next (by omega) hend
      | false =>
        rw [if_neg Bool.false_ne_true, symbolAt_none hone]
        simp only [Option.or_none]
        rw [h, List.head?_cons]
        by_cases hpoint : c = '.'
        · rw [if_pos hpoint, if_pos (congrArg some hpoint),
            bind_ok (nextIs_eq source (i + 1) '.'), drop_next h, List.tail_cons]
          simp only [beq_iff_eq]
          by_cases hrange : rest.head? = some '.'
          · obtain ⟨tail, rfl⟩ := List.head?_eq_some_iff.mp hrange
            rw [if_pos hrange, if_pos hrange]
            exact .next_of (by omega) (lt_of_drop (drop_next h)) (drop_two h)
          · rw [if_neg hrange, if_neg hrange]
            exact .next_of (by omega) hlt (drop_next h)
        · rw [if_neg hpoint, if_neg fun hsome => hpoint (Option.some.inj hsome)]
          exact .malformed

theorem isWordChar_of_isalpha (h : py.isalpha c = true ∨ c = '_') : isWordChar py c = true := by
  rcases h with h | rfl
  · simp [isWordChar, Interpreter.isalnum, h]
  · simp [isWordChar]

end Symbols

section Lexemes
variable {py : Interpreter} {source rest : List Char} {i : ℕ} {c : Char}

/-- One turn of the lexer reads a lexeme. -/
theorem lexStep_reads (py : Interpreter) (h : source.drop i = c :: rest) :
    Agrees source i (lexStep py source i) (readLexeme py (source.drop i)) := by
  have hlt := lt_of_drop h
  have hnumber (hc : py.isdigit c = true) := lexNumber_reads h hc
  have hsymbol := lexSymbol_reads h
  rw [h] at hnumber hsymbol
  rw [lexStep, bind_ok (charAt_cons h), h, readLexeme]
  by_cases hblank : c ∈ [' ', '\t', '\n', '\r']
  · rw [if_pos hblank, if_pos hblank]
    exact .next_of (Nat.lt_succ_self i) hlt (drop_next h)
  · rw [if_neg hblank, if_neg hblank]
    by_cases hcomment : c = '#'
    · subst hcomment
      rw [if_pos rfl, if_pos rfl, ← h]
      exact .next_of (lt_scanWhile h (by decide)) (scanWhile_le _ (Nat.le_of_lt hlt))
        (drop_scanWhile _ source i)
    · rw [if_neg hcomment, if_neg hcomment]
      by_cases hdigit : py.isdigit c = true
      · rw [if_pos hdigit, if_pos hdigit]
        exact (hnumber hdigit).map fun _ _ => rfl
      · rw [if_neg hdigit, if_neg hdigit]
        by_cases hquote : c = '"'
        · rw [if_pos hquote, if_pos hquote]
          exact (scanString_reads h).map fun _ _ => rfl
        · rw [if_neg hquote, if_neg hquote]
          by_cases hchar : c = '\''
          · rw [if_pos hchar, if_pos hchar]
            exact (scanChar_reads h).map fun _ _ => rfl
          · rw [if_neg hchar, if_neg hchar]
            by_cases hword : py.isalpha c = true ∨ c = '_'
            · rw [if_pos hword, if_pos hword, ← h]
              exact .next_of (lt_scanWhile h (isWordChar_of_isalpha hword))
                (scanWhile_le _ (Nat.le_of_lt hlt)) (drop_scanWhile _ source i)
            · rw [if_neg hword, if_neg hword]
              exact hsymbol.map fun _ _ => rfl

end Lexemes

section Kinds
variable {py : Interpreter} {source : List Char} {i j : ℕ} {token : Token}

theorem keyword_kind : ∀ row ∈ keywords, row.2 ≠ .eof := by decide

theorem symbol_kind : ∀ row ∈ threes ++ (twos ++ ones), row.2 ≠ .eof := by decide

theorem lexNumber_kind (h : lexNumber py source i = .ok (token, j)) : token.kind ≠ .eof := by
  obtain ⟨pointed, -, h⟩ := bind_eq_ok.mp h
  obtain ⟨ranged, -, h⟩ := bind_eq_ok.mp h
  split at h
  · unfold lexFloat at h
    split at h
    · cases h
    · obtain ⟨ch, -, h⟩ := bind_eq_ok.mp h
      split at h
      · cases h
      · simp only at h
        split at h
        · cases h
          simp
        · cases h
  · simp only [lexInteger] at h
    split at h
    · obtain ⟨value, -, hvalue⟩ := map_eq_ok.mp h
      cases hvalue
      simp
    · cases h

theorem lexWord_kind : (lexWord py source i).1.kind ≠ .eof := by
  simp only [lexWord]
  cases hkind : keywords.lookup (slice source i (scanWhile (isWordChar py) source i)) with
  | none => decide
  | some kind => exact keyword_kind _ (mem_of_lookup hkind)

theorem symbolAt_kind {table : List (List Char × TokenKind)} {width : ℕ}
    (hkinds : ∀ row ∈ table, row.2 ≠ .eof) (h : symbolAt source table width i = some (token, j)) :
    token.kind ≠ .eof := by
  unfold symbolAt at h
  split at h
  · obtain ⟨kind, hkind, htoken⟩ := Option.map_eq_some_iff.mp h
    cases htoken
    exact hkinds _ (mem_of_lookup hkind)
  · cases h

theorem lexSymbol_kind {c : Char} (h : lexSymbol source i c = .ok (token, j)) :
    token.kind ≠ .eof := by
  unfold lexSymbol at h
  split at h
  · rename_i lexed hlexed
    cases h
    rcases Option.or_eq_some_iff.mp hlexed with hthree | ⟨-, hlexed⟩
    · exact symbolAt_kind (fun row hrow => symbol_kind row (List.mem_append_left _ hrow)) hthree
    · rcases Option.or_eq_some_iff.mp hlexed with htwo | ⟨-, hone⟩
      · exact symbolAt_kind (fun row hrow =>
          symbol_kind row (List.mem_append_right _ (List.mem_append_left _ hrow))) htwo
      · exact symbolAt_kind (fun row hrow =>
          symbol_kind row (List.mem_append_right _ (List.mem_append_right _ hrow))) hone
  · split at h
    · obtain ⟨range, -, h⟩ := bind_eq_ok.mp h
      split at h
      · cases h
        simp
      · cases h
        simp
    · cases h

/-- No turn of the lexer yields the token for the end. -/
theorem lexStep_kind (h : lexStep py source i = .ok (some token, j)) : token.kind ≠ .eof := by
  obtain ⟨ch, -, h⟩ := bind_eq_ok.mp h
  split at h
  · cases h
  · split at h
    · cases h
    · split at h
      · obtain ⟨⟨number, k⟩, hnumber, hpair⟩ := map_eq_ok.mp h
        cases hpair
        exact lexNumber_kind hnumber
      · split at h
        · obtain ⟨scanned, -, hpair⟩ := map_eq_ok.mp h
          cases hpair
          simp
        · split at h
          · obtain ⟨scanned, -, hpair⟩ := map_eq_ok.mp h
            cases hpair
            simp
          · split at h
            · cases h
              exact lexWord_kind
            · obtain ⟨⟨symbol, k⟩, hsymbol, hpair⟩ := map_eq_ok.mp h
              cases hpair
              exact lexSymbol_kind hsymbol

end Kinds

section Totality
variable {py : Interpreter} {source : List Char} {i : ℕ}

/-- The text between two positions is cut into the pieces that the tokens, and what is skipped
between them, have been read from. -/
inductive Pieces (py : Interpreter) (source : List Char) : ℕ → List Token → ℕ → Prop where
  | done (i : ℕ) : Pieces py source i [] i
  | piece {i j stop : ℕ} {token : Option Token} {tokens : List Token}
    (h : lexStep py source i = .ok (token, j)) (hlt : i < j)
    (hrest : Pieces py source j tokens stop) :
    Pieces py source i (token.toList ++ tokens) stop

/-- Tokens from the whole text, of which the last and no other is the end, or a `SyntaxError`. -/
inductive Lexed (py : Interpreter) (source : List Char) : Except Raised (List Token) → Prop where
  | tokens {tokens : List Token} {last : Token} (hpieces : Pieces py source 0 tokens source.length)
    (hkinds : ∀ token ∈ tokens, token.kind ≠ .eof) (hlast : last.kind = .eof) :
    Lexed py source (.ok (tokens ++ [last]))
  | syntaxError (message : String) : Lexed py source (.error (.syntaxError message))

theorem Pieces.kinds {tokens : List Token} {stop : ℕ} (h : Pieces py source i tokens stop) :
    ∀ token ∈ tokens, token.kind ≠ .eof := by
  induction h with
  | done i => exact fun token hmem => absurd hmem List.not_mem_nil
  | @piece i j stop token tokens h hlt hrest ih =>
    intro t hmem
    rcases List.mem_append.mp hmem with hmem | hmem
    · obtain rfl := Option.mem_toList.mp hmem
      exact lexStep_kind h
    · exact ih t hmem

theorem faulty_next {text rest : List Char} (h : readLexeme py text = .next rest) :
    Faulty py text ↔ Faulty py rest := by
  constructor
  · intro hfaulty
    cases hfaulty with
    | here hhere => cases h.symm.trans hhere
    | later hnext hrest =>
      cases h.symm.trans hnext
      exact hrest
  · exact .later h

theorem not_faulty {text : List Char} (h : readLexeme py text = .malformed) : ¬ Faulty py text := by
  intro hfaulty
  cases hfaulty with
  | here hhere => cases h.symm.trans hhere
  | later hnext hrest => cases h.symm.trans hnext

/-- The loop ends at the end of the text, with a `SyntaxError`, or where the text is faulty. -/
theorem lexLoop_reads (py : Interpreter) (source : List Char) {fuel : ℕ} (hle : i ≤ source.length)
    (hfuel : source.length - i < fuel) :
    (∃ tokens, lexLoop py source fuel i = .ok (tokens, source.length) ∧
        Pieces py source i tokens source.length ∧ ¬ Faulty py (source.drop i)) ∨
      (∃ message, lexLoop py source fuel i = .error (.syntaxError message) ∧
        ¬ Faulty py (source.drop i)) ∨
      (lexLoop py source fuel i = .error .valueError ∧ Faulty py (source.drop i)) := by
  induction fuel generalizing i with
  | zero => omega
  | succ fuel ih =>
    rw [lexLoop]
    cases htext : source.drop i with
    | nil =>
      have hend : i = source.length := Nat.le_antisymm hle (length_le htext)
      subst hend
      rw [if_neg (Nat.lt_irrefl _)]
      refine Or.inl ⟨[], rfl, .done _, fun hfaulty => ?_⟩
      cases hfaulty with
      | here h => cases h
      | later h => cases h
    | cons c rest =>
      have hstep := lexStep_reads py htext
      have hlt := lt_of_drop htext
      rw [if_pos hlt, ← htext]
      generalize hlexed : lexStep py source i = x at hstep
      generalize hread : readLexeme py (source.drop i) = r at hstep
      cases hstep with
      | malformed =>
        refine Or.inr (Or.inl ⟨_, rfl, fun hfaulty => ?_⟩)
        exact not_faulty hread hfaulty
      | faulty => exact Or.inr (Or.inr ⟨rfl, .here hread⟩)
      | @next token j hj hjle =>
        have hsame : Faulty py (source.drop i) ↔ Faulty py (source.drop j) := faulty_next hread
        rw [hsame]
        rcases ih hjle (by omega) with
          ⟨tokens, hloop, hpieces, hsound⟩ | ⟨message, hloop, hsound⟩ | ⟨hloop, hfaulty⟩
        · exact Or.inl ⟨token.toList ++ tokens, (bind_ok rfl).trans (bind_ok hloop),
            .piece hlexed hj hpieces, hsound⟩
        · exact Or.inr (Or.inl ⟨message, (bind_ok rfl).trans (bind_error hloop), hsound⟩)
        · exact Or.inr (Or.inr ⟨(bind_ok rfl).trans (bind_error hloop), hfaulty⟩)

/-- Lexing ends with tokens from the whole text or with a `SyntaxError` if and only if no number
that is not converted comes before what is malformed. -/
theorem lex_total (py : Interpreter) (source : List Char) :
    Lexed py source (lex py source) ↔ ¬ Faulty py source := by
  have hloop := lexLoop_reads py source (Nat.zero_le _)
    (Nat.lt_succ_self (source.length - 0))
  rw [Nat.sub_zero, List.drop_zero] at hloop
  rcases hloop with ⟨tokens, hlex, hpieces, hsound⟩ | ⟨message, hlex, hsound⟩ | ⟨hlex, hfaulty⟩
  · rw [lex, bind_ok hlex]
    exact ⟨fun _ => hsound, fun _ => .tokens hpieces hpieces.kinds rfl⟩
  · rw [lex, bind_error hlex]
    exact ⟨fun _ => hsound, fun _ => .syntaxError message⟩
  · rw [lex, bind_error hlex]
    refine ⟨fun h => ?_, fun h => absurd hfaulty h⟩
    cases h

/-- `"\u{-1}"`. -/
theorem lex_negative :
    ¬ ∀ (py : Interpreter) (source : List Char), Lexed py source (lex py source) := by
  intro h
  have hraised :
      lex ascii ['"', '\\', 'u', '\x7b', '-', '1', '\x7d', '"'] = .error .valueError := rfl
  have hlexed := h ascii ['"', '\\', 'u', '\x7b', '-', '1', '\x7d', '"']
  rw [hraised] at hlexed
  cases hlexed

end Totality

end NewClLang.LexerTotality
