import Mathlib.Data.List.TakeWhile
import NewClLang.ModuleNames

set_option autoImplicit false

/-!
# The dots of a printed type

`rsplit(".", 1)` and `lstrip("*?[]")` on what `format_type_ref` prints, in terms of the type. The last
dot belongs to the last qualified name, and what stands before it is the name's module alone only
where nothing but `*`, `?*` and `[]` stands before the name.
-/
namespace NewClLang.PrintedTypes
open TypeRefs ModuleSyntax ModuleNames

section Strings

/-- `rsplit(".", 1)`; `none` where there is no dot. -/
def rsplitDot : List Char → Option (List Char × List Char)
  | [] => none
  | c :: rest =>
    match rsplitDot rest with
    | some (before, after) => some (c :: before, after)
    | none => if c = '.' then some ([], rest) else none

def isMark (c : Char) : Bool := ['*', '?', '[', ']'].contains c

/-- `lstrip("*?[]")`. -/
def lstripMarks (text : List Char) : List Char := text.dropWhile isMark

/-- What an identifier of the lexer has none of. -/
def isNameChar (c : Char) : Bool :=
  !(['*', '?', '[', ']', '(', ')', ',', '-', '>', ' ', '.'].contains c)

structure Word (text : List Char) : Prop where
  nonempty : text ≠ []
  chars : ∀ c ∈ text, isNameChar c = true

theorem Word.of_all {text : List Char} (hne : text ≠ []) (h : text.all isNameChar = true) :
    Word text := ⟨hne, List.all_eq_true.mp h⟩

theorem rsplitDot_none {text : List Char} : rsplitDot text = none ↔ '.' ∉ text := by
  induction text with
  | nil => simp [rsplitDot]
  | cons c rest ih =>
    rw [rsplitDot]
    cases hrest : rsplitDot rest with
    | some split =>
      have hmem : '.' ∈ rest := by
        by_contra hnot
        rw [ih.mpr hnot] at hrest
        cases hrest
      simp [hmem]
    | none =>
      have hnot := ih.mp hrest
      by_cases hc : c = '.'
      · simp [hc]
      · simp [hc, hnot, Ne.symm hc]

theorem rsplitDot_append (xs : List Char) {ys before after : List Char}
    (h : rsplitDot ys = some (before, after)) :
    rsplitDot (xs ++ ys) = some (xs ++ before, after) := by
  induction xs with
  | nil => exact h
  | cons c rest ih => rw [List.cons_append, rsplitDot, ih, List.cons_append]

theorem rsplitDot_append_plain {xs before after : List Char}
    (h : rsplitDot xs = some (before, after)) {ys : List Char} (hys : '.' ∉ ys) :
    rsplitDot (xs ++ ys) = some (before, after ++ ys) := by
  induction xs generalizing before with
  | nil => cases h
  | cons c rest ih =>
    rw [rsplitDot] at h
    rw [List.cons_append, rsplitDot]
    cases hrest : rsplitDot rest with
    | some split =>
      rw [hrest] at h
      cases h
      rw [ih hrest]
    | none =>
      rw [hrest] at h
      have hnone : rsplitDot (rest ++ ys) = none := by
        rw [rsplitDot_none, List.mem_append, not_or]
        exact ⟨rsplitDot_none.mp hrest, hys⟩
      rw [hnone]
      by_cases hc : c = '.'
      · simp only [hc, if_true, Option.some.injEq, Prod.mk.injEq] at h ⊢
        exact ⟨h.1, by rw [h.2]⟩
      · simp [hc] at h

/-- Where the text in front has no dot, the last dot stands in the rest. -/
theorem rsplitDot_of_append {xs ys before after : List Char} (hxs : '.' ∉ xs)
    (h : rsplitDot (xs ++ ys) = some (before, after)) :
    ∃ inner, rsplitDot ys = some (inner, after) ∧ before = xs ++ inner := by
  cases hys : rsplitDot ys with
  | none =>
    have hnone : rsplitDot (xs ++ ys) = none := by
      rw [rsplitDot_none, List.mem_append, not_or]
      exact ⟨hxs, rsplitDot_none.mp hys⟩
    rw [hnone] at h
    cases h
  | some split =>
    obtain ⟨inner, after'⟩ := split
    rw [rsplitDot_append xs hys] at h
    cases h
    exact ⟨inner, rfl, rfl⟩

theorem rsplitDot_word (module : List Char) {symbol : List Char} (h : '.' ∉ symbol) :
    rsplitDot (module ++ '.' :: symbol) = some (module, symbol) := by
  have hdot : rsplitDot ('.' :: symbol) = some ([], symbol) := by
    rw [rsplitDot, rsplitDot_none.mpr h]
    rfl
  have hsplit := rsplitDot_append module hdot
  rw [List.append_nil] at hsplit
  exact hsplit

theorem Word.dot {text : List Char} (h : Word text) : '.' ∉ text := by
  intro hdot
  exact absurd (h.chars '.' hdot) (by decide)

theorem isNameChar_notMark {c : Char} (h : isNameChar c = true) : isMark c = false := by
  cases hmark : isMark c with
  | false => rfl
  | true =>
    have hmem : c ∈ ['*', '?', '[', ']'] := by simpa [isMark] using hmark
    simp only [List.mem_cons, List.not_mem_nil, or_false] at hmem
    rcases hmem with rfl | rfl | rfl | rfl <;> exact absurd h (by decide)

theorem Word.lstrip {text : List Char} (h : Word text) (rest : List Char) :
    lstripMarks (text ++ rest) = text ++ rest := by
  cases text with
  | nil => exact absurd rfl h.nonempty
  | cons c text =>
    have hmark := isNameChar_notMark (h.chars c List.mem_cons_self)
    rw [lstripMarks, List.cons_append, List.dropWhile_cons_of_neg]
    rw [hmark]
    exact Bool.false_ne_true

/-- Text that does not consist of marks keeps what follows it. -/
theorem lstrip_append {text : List Char} (h : ∃ c ∈ text, isMark c = false) (rest : List Char) :
    lstripMarks (text ++ rest) = lstripMarks text ++ rest := by
  obtain ⟨c, hc, hmark⟩ := h
  rw [lstripMarks, List.dropWhile_append, if_neg]
  · rfl
  · intro hempty
    have hall := List.dropWhile_eq_nil_iff.mp (List.isEmpty_iff.mp hempty) c hc
    rw [hmark] at hall
    cases hall

end Strings

section Names

/-- An identifier, or one behind the name of a module. -/
def IsName (name : String) : Prop :=
  Word name.toList ∨
    ∃ module symbol, Word module ∧ Word symbol ∧ name.toList = module ++ '.' :: symbol

/-- The module of a qualified name. -/
def moduleOf (name : String) : Option (List Char) := (rsplitDot name.toList).map Prod.fst

/-- The last component of a qualified name. -/
def symbolOf (name : String) : List Char := ((rsplitDot name.toList).map Prod.snd).getD name.toList

theorem isQualified_iff {name : String} : isQualified name = true ↔ '.' ∈ name.toList := by
  rw [isQualified, List.contains_iff_mem]

theorem IsName.qualified {name : String} (h : IsName name) (hdot : isQualified name = true) :
    ∃ module, Word module ∧ Word (symbolOf name) ∧ moduleOf name = some module ∧
      rsplitDot name.toList = some (module, symbolOf name) := by
  rw [isQualified_iff] at hdot
  rcases h with hword | ⟨module, symbol, hmodule, hsymbol, htext⟩
  · exact absurd hdot hword.dot
  · have hsplit := rsplitDot_word module hsymbol.dot
    rw [← htext] at hsplit
    refine ⟨module, hmodule, ?_, ?_, ?_⟩
    · rw [symbolOf, hsplit]
      exact hsymbol
    · rw [moduleOf, hsplit]
      rfl
    · rw [symbolOf, hsplit]
      rfl

theorem IsName.nonempty {name : String} (h : IsName name) :
    ∃ c ∈ name.toList, isNameChar c = true := by
  rcases h with hword | ⟨module, symbol, hmodule, -, htext⟩
  · obtain ⟨c, hc⟩ := List.exists_mem_of_ne_nil _ hword.nonempty
    exact ⟨c, hc, hword.chars c hc⟩
  · obtain ⟨c, hc⟩ := List.exists_mem_of_ne_nil _ hmodule.nonempty
    exact ⟨c, htext ▸ List.mem_append_left _ hc, hmodule.chars c hc⟩

end Names

section Types

/-- The last qualified name of a list. -/
def lastQualified (ns : List String) : Option String := ns.reverse.find? isQualified

/-- The name that stands behind `*`, `?*` and `[]` alone. -/
def leading : TypeRef → Option String
  | .named name => some name
  | .pointer inner _ => leading inner
  | .slice elem => leading elem
  | .array _ _ => none
  | .function _ _ _ => none
  | .generic base args => if (namesAll args).any isQualified then none else leading base

theorem lastQualified_append (ns ms : List String) :
    lastQualified (ns ++ ms) = (lastQualified ms).or (lastQualified ns) := by
  rw [lastQualified, List.reverse_append, List.find?_append]
  rfl

theorem lastQualified_mem {ns : List String} {name : String} (h : lastQualified ns = some name) :
    name ∈ ns ∧ isQualified name = true :=
  ⟨List.mem_reverse.mp (List.mem_of_find?_eq_some h), List.find?_some h⟩

/-- After the last dot of a text stands the symbol of its last qualified name. -/
def Reads (text : List Char) (ns : List String) : Prop :=
  match lastQualified ns with
  | none => '.' ∉ text
  | some name => ∃ before tail, rsplitDot text = some (before, symbolOf name ++ tail)

theorem reads_plain {text : List Char} (h : '.' ∉ text) : Reads text [] := h

theorem reads_name {name : String} (h : IsName name) : Reads name.toList [name] := by
  rw [Reads, lastQualified, List.reverse_singleton, List.find?_singleton]
  by_cases hdot : isQualified name = true
  · rw [if_pos hdot]
    obtain ⟨module, -, -, -, hsplit⟩ := h.qualified hdot
    exact ⟨module, [], by rw [hsplit, List.append_nil]⟩
  · rw [if_neg hdot]
    exact fun hmem => hdot (isQualified_iff.mpr hmem)

theorem Reads.append {xs ys : List Char} {ns ms : List String} (hxs : Reads xs ns)
    (hys : Reads ys ms) : Reads (xs ++ ys) (ns ++ ms) := by
  unfold Reads at hxs hys ⊢
  rw [lastQualified_append]
  cases hms : lastQualified ms with
  | some name =>
    rw [hms] at hys
    obtain ⟨before, tail, hsplit⟩ := hys
    exact ⟨xs ++ before, tail, rsplitDot_append xs hsplit⟩
  | none =>
    rw [hms] at hys
    cases hns : lastQualified ns with
    | some name =>
      rw [hns] at hxs
      obtain ⟨before, tail, hsplit⟩ := hxs
      refine ⟨before, tail ++ ys, ?_⟩
      rw [← List.append_assoc]
      exact rsplitDot_append_plain hsplit hys
    | none =>
      rw [hns] at hxs
      intro hmem
      exact (List.mem_append.mp hmem).elim hxs hys

/-- Text that holds no name. -/
theorem Reads.after {xs : List Char} {ns : List String} (h : Reads xs ns) (ys : List Char)
    (hys : '.' ∉ ys) : Reads (xs ++ ys) ns := by
  have happend := h.append (reads_plain hys)
  rw [List.append_nil] at happend
  exact happend

theorem Reads.before {ys : List Char} {ns : List String} (h : Reads ys ns) (xs : List Char)
    (hxs : '.' ∉ xs) : Reads (xs ++ ys) ns := (reads_plain hxs).append h

theorem reads_join {texts : List String} {ns : List (List String)}
    (h : List.Forall₂ (fun text names => Reads text.toList names) texts ns) :
    Reads (",".intercalate texts).toList ns.flatten := by
  induction h with
  | nil => exact reads_plain (by decide)
  | @cons text names texts ns hfirst hrest ih =>
    cases texts with
    | nil =>
      cases hrest
      rw [String.intercalate_singleton, List.flatten_singleton]
      exact hfirst
    | cons text' texts =>
      rw [String.intercalate_cons_cons, String.toList_append, String.toList_append,
        List.flatten_cons, List.append_assoc]
      exact hfirst.append (ih.before _ (by decide))

theorem digits_plain (n : ℕ) : '.' ∉ (toString n).toList := by
  intro hmem
  change '.' ∈ n.repr.toList at hmem
  rw [Nat.toList_repr] at hmem
  exact absurd (Nat.isDigit_of_mem_toDigits (by decide) (by decide) hmem) (by decide)

theorem digits_notMark (n : ℕ) : ∃ c ∈ (toString n).toList, isMark c = false := by
  change ∃ c ∈ n.repr.toList, isMark c = false
  rw [Nat.toList_repr]
  have hne : Nat.toDigits 10 n ≠ [] := Nat.toDigits_ne_nil
  obtain ⟨c, hc⟩ := List.exists_mem_of_ne_nil _ hne
  refine ⟨c, hc, ?_⟩
  have hdigit := Nat.isDigit_of_mem_toDigits (by decide) (by decide) hc
  cases hmark : isMark c with
  | false => rfl
  | true =>
    have hmem : c ∈ ['*', '?', '[', ']'] := by simpa [isMark] using hmark
    simp only [List.mem_cons, List.not_mem_nil, or_false] at hmem
    rcases hmem with rfl | rfl | rfl | rfl <;> exact absurd hdigit (by decide)

mutual

theorem reads_format : ∀ t : TypeRef, (∀ name ∈ names t, IsName name) →
    Reads (formatTypeRef t).toList (names t)
  | .named name, h => reads_name (h name List.mem_cons_self)
  | .pointer inner nullable, h => by
    rw [formatTypeRef, names, String.toList_append]
    exact (reads_format inner h).before _ (by cases nullable <;> decide)
  | .slice elem, h => by
    rw [formatTypeRef, names, String.toList_append]
    exact (reads_format elem h).before _ (by decide)
  | .array length elem, h => by
    rw [formatTypeRef, names, String.toList_append, String.toList_append, String.toList_append]
    refine (reads_format elem h).before _ ?_
    rw [List.mem_append, List.mem_append, not_or, not_or]
    exact ⟨⟨by decide, digits_plain length⟩, by decide⟩
  | .function params ret fallible, h => by
    have hparams := reads_join (reads_formats params (fun name hname =>
      h name (List.mem_append_left _ hname)))
    have hret := reads_format ret (fun name hname => h name (List.mem_append_right _ hname))
    rw [formatTypeRef, names, namesAll_eq]
    simp only [String.toList_append]
    have hhead := (hparams.before "fn(".toList (by decide)).after ")->".toList (by decide)
    refine (List.flatMap_def ▸ hhead.append hret).after _ ?_
    cases fallible <;> decide
  | .generic base args, h => by
    have hbase := reads_format base (fun name hname => h name (List.mem_append_left _ hname))
    have hargs := reads_join (reads_formats args (fun name hname =>
      h name (List.mem_append_right _ hname)))
    rw [formatTypeRef, names, namesAll_eq]
    simp only [String.toList_append]
    have hopen := hbase.after "[".toList (by decide)
    exact (List.flatMap_def ▸ hopen.append hargs).after _ (by decide)

theorem reads_formats : ∀ ts : List TypeRef, (∀ name ∈ namesAll ts, IsName name) →
    List.Forall₂ (fun text names => Reads text.toList names) (formatTypeRefs ts) (ts.map names)
  | [], _ => List.Forall₂.nil
  | t :: ts, h => by
    rw [formatTypeRefs, List.map_cons]
    exact List.Forall₂.cons (reads_format t (fun name hname => h name (List.mem_append_left _ hname)))
      (reads_formats ts (fun name hname => h name (List.mem_append_right _ hname)))

end

theorem reads_arguments {args : List TypeRef} (h : ∀ name ∈ namesAll args, IsName name) :
    Reads (",".intercalate (formatTypeRefs args)).toList (namesAll args) := by
  rw [namesAll_eq, List.flatMap_def]
  exact reads_join (reads_formats args h)

theorem lastQualified_none {ns : List String} : lastQualified ns = none ↔ ns.any isQualified = false := by
  rw [lastQualified, List.find?_eq_none, List.any_eq_false]
  exact ⟨fun h name hname => h name (List.mem_reverse.mpr hname),
    fun h name hname => h name (List.mem_reverse.mp hname)⟩

/-- No type is printed with marks alone. -/
theorem format_notMark : ∀ t : TypeRef, (∀ name ∈ names t, IsName name) →
    ∃ c ∈ (formatTypeRef t).toList, isMark c = false
  | .named name, h => by
    obtain ⟨c, hc, hname⟩ := (h name List.mem_cons_self).nonempty
    exact ⟨c, hc, isNameChar_notMark hname⟩
  | .pointer inner nullable, h => by
    obtain ⟨c, hc, hmark⟩ := format_notMark inner h
    rw [formatTypeRef, String.toList_append]
    exact ⟨c, List.mem_append_right _ hc, hmark⟩
  | .slice elem, h => by
    obtain ⟨c, hc, hmark⟩ := format_notMark elem h
    rw [formatTypeRef, String.toList_append]
    exact ⟨c, List.mem_append_right _ hc, hmark⟩
  | .array length elem, h => by
    obtain ⟨c, hc, hmark⟩ := format_notMark elem h
    rw [formatTypeRef, String.toList_append]
    exact ⟨c, List.mem_append_right _ hc, hmark⟩
  | .function params ret fallible, h => by
    refine ⟨'f', ?_, by decide⟩
    rw [formatTypeRef]
    simp only [String.toList_append]
    simp
  | .generic base args, h => by
    obtain ⟨c, hc, hmark⟩ := format_notMark base
      (fun name hname => h name (List.mem_append_left _ hname))
    rw [formatTypeRef]
    simp only [String.toList_append]
    exact ⟨c, List.mem_append_left _ (List.mem_append_left _ (List.mem_append_left _ hc)), hmark⟩

/-- A name that stands behind marks alone is the last qualified one if it is qualified. -/
theorem lastQualified_leading : ∀ (t : TypeRef) {name : String}, leading t = some name →
    lastQualified (names t) = if isQualified name then some name else none
  | .named name, _, h => by
    cases h
    rw [names, lastQualified, List.reverse_singleton, List.find?_singleton]
  | .pointer inner _, _, h => lastQualified_leading inner h
  | .slice elem, _, h => lastQualified_leading elem h
  | .array _ _, _, h => nomatch h
  | .function _ _ _, _, h => nomatch h
  | .generic base args, name, h => by
    rw [leading] at h
    cases hargs : (namesAll args).any isQualified with
    | true =>
      rw [hargs] at h
      cases h
    | false =>
      rw [hargs] at h
      rw [names, lastQualified_append, lastQualified_none.mpr hargs]
      exact lastQualified_leading base h

/-- What stands before the last dot, without the marks in front: the module of the last qualified name
    where that name leads the type, and no module otherwise. -/
def Stands (t : TypeRef) (name : String) (before : List Char) : Prop :=
  if leading t = some name then some (lstripMarks before) = moduleOf name
  else ∃ c ∈ lstripMarks before, isNameChar c = false

theorem lstrip_marks {xs : List Char} (h : ∀ c ∈ xs, isMark c = true) (ys : List Char) :
    lstripMarks (xs ++ ys) = lstripMarks ys := List.dropWhile_append_of_pos h

theorem lstrip_keeps {xs : List Char} (h : ∃ c ∈ xs, isMark c = false) {c : Char}
    {ys : List Char} (hc : c ∈ ys) : c ∈ lstripMarks (xs ++ ys) := by
  rw [lstrip_append h]
  exact List.mem_append_right _ hc

theorem stands_format : ∀ t : TypeRef, (∀ name ∈ names t, IsName name) →
    ∀ {name : String} {before after : List Char}, lastQualified (names t) = some name →
    rsplitDot (formatTypeRef t).toList = some (before, after) → Stands t name before
  | .named name, h, name', before, after, hlast, hsplit => by
    obtain ⟨hmem, hdot⟩ := lastQualified_mem hlast
    cases List.mem_singleton.mp hmem
    obtain ⟨module, hmodule, -, hof, hname⟩ := (h _ hmem).qualified hdot
    rw [formatTypeRef, hname] at hsplit
    cases hsplit
    have hstrip := hmodule.lstrip []
    rw [List.append_nil] at hstrip
    rw [Stands, leading, if_pos rfl, hstrip, hof]
  | .pointer inner nullable, h, name, before, after, hlast, hsplit => by
    rw [formatTypeRef, String.toList_append] at hsplit
    obtain ⟨rest, hrest, rfl⟩ := rsplitDot_of_append (by cases nullable <;> decide) hsplit
    have hinner := stands_format inner h hlast hrest
    rw [Stands, leading, lstrip_marks (List.all_eq_true.mp (by cases nullable <;> decide))]
    exact hinner
  | .slice elem, h, name, before, after, hlast, hsplit => by
    rw [formatTypeRef, String.toList_append] at hsplit
    obtain ⟨rest, hrest, rfl⟩ := rsplitDot_of_append (by decide) hsplit
    have helem := stands_format elem h hlast hrest
    rw [Stands, leading, lstrip_marks (List.all_eq_true.mp (by decide))]
    exact helem
  | .array length elem, h, name, before, after, hlast, hsplit => by
    rw [formatTypeRef, String.toList_append, String.toList_append, String.toList_append,
      List.append_assoc] at hsplit
    have hplain : '.' ∉ "[".toList ++ (toString length).toList := by
      rw [List.mem_append, not_or]
      exact ⟨by decide, digits_plain length⟩
    obtain ⟨rest, hrest, rfl⟩ := rsplitDot_of_append hplain hsplit
    obtain ⟨inner, -, rfl⟩ := rsplitDot_of_append (by decide) hrest
    obtain ⟨c, hc, hmark⟩ := digits_notMark length
    rw [Stands, leading, if_neg nofun]
    exact ⟨']', lstrip_keeps ⟨c, List.mem_append_right _ hc, hmark⟩
      (List.mem_append_left _ (by decide)), by decide⟩
  | .function params ret fallible, h, name, before, after, hlast, hsplit => by
    rw [formatTypeRef] at hsplit
    simp only [String.toList_append, List.append_assoc] at hsplit
    obtain ⟨rest, -, rfl⟩ := rsplitDot_of_append (by decide) hsplit
    rw [Stands, leading, if_neg nofun, lstrip_append ⟨'f', by decide, by decide⟩]
    exact ⟨'(', List.mem_append_left _ (by decide), by decide⟩
  | .generic base args, h, name, before, after, hlast, hsplit => by
    have hbase : ∀ name ∈ names base, IsName name :=
      fun name hname => h name (List.mem_append_left _ hname)
    have hargNames : ∀ name ∈ namesAll args, IsName name :=
      fun name hname => h name (List.mem_append_right _ hname)
    rw [formatTypeRef] at hsplit
    simp only [String.toList_append, List.append_assoc] at hsplit
    rw [names, lastQualified_append] at hlast
    cases hargs : lastQualified (namesAll args) with
    | some inner =>
      have hreads := (reads_arguments hargNames).after "]".toList (by decide)
      unfold Reads at hreads
      rw [hargs] at hreads
      obtain ⟨before', tail, hsplit'⟩ := hreads
      rw [rsplitDot_append _ (rsplitDot_append _ hsplit')] at hsplit
      cases hsplit
      have hany : (namesAll args).any isQualified = true := by
        rw [← Bool.not_eq_false, ← lastQualified_none, hargs]
        exact nofun
      rw [Stands, leading, if_pos hany, if_neg nofun]
      exact ⟨'[', lstrip_keeps (format_notMark base hbase) (List.mem_append_left _ (by decide)),
        by decide⟩
    | none =>
      have hplain :
          '.' ∉ "[".toList ++ ((",".intercalate (formatTypeRefs args)).toList ++ "]".toList) := by
        have hreads :=
          ((reads_arguments hargNames).after "]".toList (by decide)).before "[".toList (by decide)
        unfold Reads at hreads
        rw [hargs] at hreads
        exact hreads
      rw [hargs, Option.none_or] at hlast
      have hreads := reads_format base hbase
      unfold Reads at hreads
      rw [hlast] at hreads
      obtain ⟨before', tail, hsplit'⟩ := hreads
      rw [rsplitDot_append_plain hsplit' hplain] at hsplit
      cases hsplit
      have hany : (namesAll args).any isQualified = false := lastQualified_none.mp hargs
      have hstands := stands_format base hbase hlast hsplit'
      rw [Stands, leading, hany]
      exact hstands

end Types

end NewClLang.PrintedTypes
