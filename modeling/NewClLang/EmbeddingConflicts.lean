import NewClLang.ExceptOutcomes
import NewClLang.StructEmbedding
import NewClLang.GraphSearch
import Mathlib.Data.List.Nodup
import Mathlib.Data.List.Pairwise

set_option autoImplicit false

/-!
# Conflicts of embedded names

The declarations are checked one level deep, and names are looked for at any depth. What the check
leaves out decides whether a name is found twice.
-/
namespace NewClLang.EmbeddingConflicts
open ExceptOutcomes TypeRefs TypeSyntax StructEmbedding GraphSearch

section Dictionaries
variable {α : Type}

theorem keys_store (d : List (String × α)) (e : String × α) :
    (store d e).map Prod.fst =
      if e.1 ∈ d.map Prod.fst then d.map Prod.fst else d.map Prod.fst ++ [e.1] := by
  unfold store
  by_cases h : e.1 ∈ d.map Prod.fst
  · rw [if_pos h, if_pos h, List.map_map]
    refine List.map_congr_left ?_
    intro x _
    rw [Function.comp_apply]
    by_cases hx : x.1 = e.1
    · rw [if_pos hx, hx]
    · rw [if_neg hx]
  · rw [if_neg h, if_neg h, List.map_append]
    rfl

theorem nodup_store {d : List (String × α)} (e : String × α) (h : (d.map Prod.fst).Nodup) :
    ((store d e).map Prod.fst).Nodup := by
  rw [keys_store]
  by_cases hmem : e.1 ∈ d.map Prod.fst
  · rw [if_pos hmem]
    exact h
  · rw [if_neg hmem]
    exact List.Nodup.append h (List.nodup_singleton _) (List.disjoint_singleton.mpr hmem)

theorem nodup_foldl_store (entries : List (String × α)) {d : List (String × α)}
    (h : (d.map Prod.fst).Nodup) : ((entries.foldl store d).map Prod.fst).Nodup := by
  induction entries generalizing d with
  | nil => exact h
  | cons e entries ih => exact ih (nodup_store e h)

theorem nodup_dict (entries : List (String × α)) : ((dict entries).map Prod.fst).Nodup :=
  nodup_foldl_store entries List.nodup_nil

theorem mem_keys_store {d : List (String × α)} {e : String × α} {name : String} :
    name ∈ (store d e).map Prod.fst ↔ name ∈ d.map Prod.fst ∨ name = e.1 := by
  rw [keys_store]
  by_cases hmem : e.1 ∈ d.map Prod.fst
  · rw [if_pos hmem]
    exact ⟨Or.inl, fun h => h.elim id fun heq => heq ▸ hmem⟩
  · rw [if_neg hmem, List.mem_append, List.mem_singleton]

theorem mem_keys_foldl {entries d : List (String × α)} {name : String} :
    name ∈ (entries.foldl store d).map Prod.fst ↔
      name ∈ d.map Prod.fst ∨ name ∈ entries.map Prod.fst := by
  induction entries generalizing d with
  | nil => simp
  | cons e entries ih =>
    rw [List.foldl_cons, ih, mem_keys_store, List.map_cons, List.mem_cons, or_assoc]

theorem mem_keys_dict {entries : List (String × α)} {name : String} :
    name ∈ (dict entries).map Prod.fst ↔ name ∈ entries.map Prod.fst := by
  rw [dict, mem_keys_foldl]
  simp

theorem mem_store {d : List (String × α)} {e x : String × α} (h : x ∈ store d e) :
    x = e ∨ x ∈ d := by
  unfold store at h
  by_cases hmem : e.1 ∈ d.map Prod.fst
  · rw [if_pos hmem, List.mem_map] at h
    obtain ⟨y, hy, hxy⟩ := h
    by_cases hkey : y.1 = e.1
    · rw [if_pos hkey] at hxy
      exact Or.inl hxy.symm
    · rw [if_neg hkey] at hxy
      exact Or.inr (hxy ▸ hy)
  · rw [if_neg hmem, List.mem_append, List.mem_singleton] at h
    exact h.symm

theorem mem_foldl_store {entries d : List (String × α)} {x : String × α}
    (h : x ∈ entries.foldl store d) : x ∈ entries ∨ x ∈ d := by
  induction entries generalizing d with
  | nil => exact Or.inr h
  | cons e entries ih =>
    rcases ih h with hin | hstore
    · exact Or.inl (List.mem_cons_of_mem e hin)
    · rcases mem_store hstore with rfl | hd
      · exact Or.inl List.mem_cons_self
      · exact Or.inr hd

theorem mem_dict {entries : List (String × α)} {x : String × α} (h : x ∈ dict entries) :
    x ∈ entries := (mem_foldl_store h).resolve_right List.not_mem_nil

end Dictionaries

section Paths
variable (p : StructProgram)

inductive MemberKind where
  | field
  | method

/-- The names of the fields, or of the methods, of a type. -/
def memberNames : MemberKind → String → List String
  | .field, name => ((p.lookupStruct name).getD []).map Prod.fst
  | .method, name => (p.methodsOf name).map Prod.fst

/-- A way through embedded structs that goes on from a type only once. -/
inductive Leads : List String → String → List String → String → Prop where
  | one {seen : List String} {start embed : String} {type : TypeRef} (hseen : start ∉ seen)
      (hembed : (embed, type) ∈ p.embeddedStructs start) :
      Leads seen start [embed] (pointerBaseName type)
  | more {seen path : List String} {start embed last : String} {type : TypeRef}
      (hseen : start ∉ seen) (hembed : (embed, type) ∈ p.embeddedStructs start)
      (hpath : Leads (start :: seen) (pointerBaseName type) path last) :
      Leads seen start (embed :: path) last

/-- An access path at whose end a name stands. The empty path is that of the struct itself. -/
def Resolves (kind : MemberKind) (start : String) (path : List String) (name : String) : Prop :=
  (path = [] ∧ name ∈ memberNames p kind start) ∨
    ∃ last, Leads p [] start path last ∧ name ∈ memberNames p kind last

/-- A promoted name has one access path and hides no name of the struct itself, and the search for a
    name does not fail. -/
structure Unambiguous : Prop where
  unique : ∀ start name kind kind' path path', path ≠ [] → Resolves p kind start path name →
    Resolves p kind' start path' name → path = path'
  field : ∀ start name, ∃ found,
    promotedField p (p.structs.length + 2) start name [] = .ok found
  method : ∀ start name, ∃ found,
    promotedMethod p (p.structs.length + 2) start name [] = .ok found

/-- What the declarations are not checked for: names that come from deeper than one level, a field and
    a method of one name, and a promoted field with the name of an embedded one. -/
def Overlooked (start : String) (kind kind' : MemberKind) (path path' : List String) (name : String) :
    Prop :=
  2 ≤ path.length ∨ 2 ≤ path'.length ∨ kind ≠ kind' ∨
    (kind = .field ∧ path' = [] ∧ name ∈ (p.embeddedStructs start).map Prod.fst)

/-- No two names fall together where it is overlooked. -/
def NoOverlookedConflict : Prop :=
  ∀ start name kind kind' path path', path ≠ [] → Resolves p kind start path name →
    Resolves p kind' start path' name → Overlooked p start kind kind' path path' name → path = path'

variable {p}

theorem Leads.ne_nil {seen path : List String} {start last : String}
    (h : Leads p seen start path last) : path ≠ [] := by
  cases h <;> exact List.cons_ne_nil _ _

theorem Leads.weaken {seen seen' path : List String} {start last : String}
    (h : Leads p seen start path last) (hsub : seen' ⊆ seen) : Leads p seen' start path last := by
  induction h generalizing seen' with
  | one hseen hembed => exact .one (fun hin => hseen (hsub hin)) hembed
  | more hseen hembed _ ih =>
    exact .more (fun hin => hseen (hsub hin)) hembed (ih (List.cons_subset_cons _ hsub))

theorem Leads.single {seen : List String} {start embed last : String}
    (h : Leads p seen start [embed] last) :
    ∃ type, (embed, type) ∈ p.embeddedStructs start ∧ last = pointerBaseName type := by
  cases h with
  | one _ hembed => exact ⟨_, hembed, rfl⟩
  | more _ _ hpath => exact absurd rfl hpath.ne_nil

end Paths

section Search
variable {p : StructProgram} {α : Type} {members : String → Option (List (String × α))}
  {kind : MemberKind} {label : String}

/-- The table in which a search looks names up. -/
def Tabulates (p : StructProgram) (kind : MemberKind)
    (members : String → Option (List (String × α))) : Prop :=
  ∀ base own name m, members base = some own → own.lookup name = some m →
    name ∈ memberNames p kind base

variable {nested : String → Except Failure (Option (Match α))} {name : String}

/-- What is collected goes through one of the embedded structs. -/
theorem collect_sound {embeds : List (String × TypeRef)} {found : List (Match α)}
    (h : collect members nested name embeds = .ok found) {x : Match α} (hx : x ∈ found) :
    ∃ embed type own, (embed, type) ∈ embeds ∧ members (pointerBaseName type) = some own ∧
      ((∃ m, own.lookup name = some m ∧ x.1 = [embed]) ∨
        ∃ inner, nested (pointerBaseName type) = .ok (some inner) ∧ x.1 = embed :: inner.1) := by
  induction embeds generalizing found with
  | nil =>
    cases h
    cases hx
  | cons e embeds ih =>
    obtain ⟨embed, type⟩ := e
    rw [collect] at h
    cases hmembers : members (pointerBaseName type) with
    | none =>
      rw [hmembers] at h
      obtain ⟨embed', type', own, hmem, hrest⟩ := ih h hx
      exact ⟨embed', type', own, List.mem_cons_of_mem _ hmem, hrest⟩
    | some own =>
      rw [hmembers] at h
      obtain ⟨inner, hinner, h⟩ := bind_eq_ok.mp h
      obtain ⟨rest, hrest, h⟩ := bind_eq_ok.mp h
      cases h
      rcases List.mem_append.mp hx with hhere | hx
      · refine ⟨embed, type, own, List.mem_cons_self, hmembers, ?_⟩
        rcases List.mem_append.mp hhere with hown | hdeep
        · rw [Option.mem_toList, Option.map_eq_some_iff] at hown
          obtain ⟨m, hm, rfl⟩ := hown
          exact Or.inl ⟨m, hm, rfl⟩
        · rw [Option.mem_toList, Option.map_eq_some_iff] at hdeep
          obtain ⟨m, rfl, rfl⟩ := hdeep
          exact Or.inr ⟨m, hinner, rfl⟩
      · obtain ⟨embed', type', own', hmem, hfound⟩ := ih hrest hx
        exact ⟨embed', type', own', List.mem_cons_of_mem _ hmem, hfound⟩

/-- The paths that are collected differ. -/
theorem collect_nodup {embeds : List (String × TypeRef)} {found : List (Match α)}
    (hkeys : (embeds.map Prod.fst).Nodup)
    (hinner : ∀ base inner, nested base = .ok (some inner) → inner.1 ≠ [])
    (h : collect members nested name embeds = .ok found) : (found.map Prod.fst).Nodup := by
  induction embeds generalizing found with
  | nil =>
    cases h
    exact List.nodup_nil
  | cons e embeds ih =>
    obtain ⟨embed, type⟩ := e
    rw [List.map_cons, List.nodup_cons] at hkeys
    rw [collect] at h
    cases hmembers : members (pointerBaseName type) with
    | none =>
      rw [hmembers] at h
      exact ih hkeys.2 h
    | some own =>
      rw [hmembers] at h
      obtain ⟨inner, hdeep, h⟩ := bind_eq_ok.mp h
      obtain ⟨rest, hrest, h⟩ := bind_eq_ok.mp h
      cases h
      have hheads : ∀ path ∈ rest.map Prod.fst, ∀ tail, path ≠ embed :: tail := by
        intro path hpath tail heq
        obtain ⟨x, hx, rfl⟩ := List.mem_map.mp hpath
        obtain ⟨embed', type', _, hmem, _, hx'⟩ := collect_sound hrest hx
        have hembed : embed' = embed := by
          rcases hx' with ⟨_, _, hx'⟩ | ⟨_, _, hx'⟩
          · rw [hx'] at heq
            exact (List.cons.inj heq).1
          · rw [hx'] at heq
            exact (List.cons.inj heq).1
        exact hkeys.1 (List.mem_map.mpr ⟨_, hmem, hembed⟩)
      rw [List.map_append]
      refine List.Nodup.append ?_ (ih hkeys.2 hrest) ?_
      · cases hown : own.lookup name with
        | none => cases inner <;> simp
        | some m =>
          cases inner with
          | none => simp
          | some i =>
            have hne := hinner _ i hdeep
            simpa [eq_comm] using hne
      · intro path hhere hthere
        obtain ⟨x, hx, rfl⟩ := List.mem_map.mp hhere
        rcases List.mem_append.mp hx with hown | hdeep
        · rw [Option.mem_toList, Option.map_eq_some_iff] at hown
          obtain ⟨m, _, rfl⟩ := hown
          exact hheads _ hthere [] rfl
        · rw [Option.mem_toList, Option.map_eq_some_iff] at hdeep
          obtain ⟨m, _, rfl⟩ := hdeep
          exact hheads _ hthere _ rfl

theorem collect_total {embeds : List (String × TypeRef)}
    (h : ∀ e ∈ embeds, ∃ inner, nested (pointerBaseName e.2) = .ok inner) :
    ∃ found, collect members nested name embeds = .ok found := by
  induction embeds with
  | nil => exact ⟨[], rfl⟩
  | cons e embeds ih =>
    obtain ⟨found, hfound⟩ := ih fun e he => h e (List.mem_cons_of_mem _ he)
    obtain ⟨embed, type⟩ := e
    rw [collect]
    cases members (pointerBaseName type) with
    | none => exact ⟨found, hfound⟩
    | some own =>
      obtain ⟨inner, hinner⟩ := h (embed, type) List.mem_cons_self
      exact ⟨_, bind_eq_ok.mpr ⟨inner, hinner, bind_eq_ok.mpr ⟨found, hfound, rfl⟩⟩⟩

/-- What is found stands at the end of a path. -/
theorem promoted_sound (htable : Tabulates p kind members) {fuel : ℕ} {start : String}
    {seen : List String} {found : Match α}
    (h : promoted p label members fuel start name seen = .ok (some found)) :
    ∃ last, Leads p seen start found.1 last ∧ name ∈ memberNames p kind last := by
  induction fuel generalizing start seen found with
  | zero => cases h
  | succ fuel ih =>
    rw [promoted] at h
    by_cases hseen : start ∈ seen
    · rw [if_pos hseen] at h
      cases h
    rw [if_neg hseen] at h
    obtain ⟨all, hall, h⟩ := bind_eq_ok.mp h
    by_cases hmany : 1 < all.length
    · rw [if_pos hmany] at h
      cases h
    rw [if_neg hmany] at h
    have hmem : found ∈ all := List.mem_of_mem_head? (Except.ok.inj h)
    obtain ⟨embed, type, own, hembed, hown, hfound⟩ := collect_sound hall hmem
    rcases hfound with ⟨m, hm, hpath⟩ | ⟨inner, hinner, hpath⟩
    · rw [hpath]
      exact ⟨_, .one hseen hembed, htable _ _ _ _ hown hm⟩
    · obtain ⟨last, hlead, hname⟩ := ih hinner
      rw [hpath]
      exact ⟨last, .more hseen hembed hlead, hname⟩

theorem length_le_one {β : Type} {l : List β} (hnodup : l.Nodup) (hsame : ∀ x ∈ l, ∀ y ∈ l, x = y) :
    l.length ≤ 1 := by
  match l with
  | [] => exact Nat.zero_le 1
  | [_] => exact Nat.le_refl 1
  | x :: y :: rest =>
    have hxy := hsame x List.mem_cons_self y (List.mem_cons_of_mem _ List.mem_cons_self)
    exact absurd (hxy ▸ List.mem_cons_self) (List.nodup_cons.mp hnodup).1

theorem nodup_embeddedStructs (start : String) :
    ((p.embeddedStructs start).map Prod.fst).Nodup := by
  unfold StructProgram.embeddedStructs
  cases p.structs.lookup start with
  | none => exact List.nodup_nil
  | some decl => exact nodup_dict _

theorem declared_of_embedded {start : String} {e : String × TypeRef}
    (h : e ∈ p.embeddedStructs start) : start ∈ p.structs.map Prod.fst := by
  unfold StructProgram.embeddedStructs at h
  cases hlookup : p.structs.lookup start with
  | none =>
    rw [hlookup] at h
    cases h
  | some decl =>
    obtain ⟨before, after, heq, _⟩ := List.lookup_eq_some_iff.mp hlookup
    rw [heq]
    simp

/-- Where paths are unique, a search comes to an end without an ambiguity. Each call marks a struct. -/
theorem promoted_total (htable : Tabulates p kind members)
    (hunique : ∀ start path path' last last', Leads p [] start path last →
      Leads p [] start path' last' → name ∈ memberNames p kind last →
      name ∈ memberNames p kind last' → path = path')
    {fuel : ℕ} {start : String} {seen : List String}
    (hfuel : missing (p.structs.map Prod.fst) seen + 1 < fuel) :
    ∃ found, promoted p label members fuel start name seen = .ok found := by
  induction fuel generalizing start seen with
  | zero => omega
  | succ fuel ih =>
    rw [promoted]
    by_cases hseen : start ∈ seen
    · rw [if_pos hseen]
      exact ⟨none, rfl⟩
    rw [if_neg hseen]
    have hnested : ∀ e ∈ p.embeddedStructs start, ∃ inner,
        promoted p label members fuel (pointerBaseName e.2) name (start :: seen) = .ok inner := by
      intro e he
      have hless := missing_cons (declared_of_embedded he) hseen
      exact ih (by omega)
    have hcollect : ∃ all,
        collect members (fun base => promoted p label members fuel base name (start :: seen)) name
          (p.embeddedStructs start) = .ok all := collect_total hnested
    obtain ⟨all, hall⟩ := hcollect
    have hpaths : ∀ x ∈ all, ∃ last, Leads p [] start x.1 last ∧ name ∈ memberNames p kind last := by
      intro x hx
      obtain ⟨embed, type, own, hembed, hown, hfound⟩ := collect_sound hall hx
      rcases hfound with ⟨m, hm, hpath⟩ | ⟨inner, hinner, hpath⟩
      · rw [hpath]
        exact ⟨_, .one List.not_mem_nil hembed, htable _ _ _ _ hown hm⟩
      · obtain ⟨last, hlead, hname⟩ := promoted_sound htable hinner
        rw [hpath]
        have hweak := hlead.weaken (List.cons_subset_cons start (List.nil_subset seen))
        exact ⟨last, .more List.not_mem_nil hembed hweak, hname⟩
    have hnodup : (all.map Prod.fst).Nodup := by
      refine collect_nodup (nodup_embeddedStructs start) ?_ hall
      intro base inner hinner
      obtain ⟨last, hlead, _⟩ := promoted_sound htable hinner
      exact hlead.ne_nil
    have hone : all.length ≤ 1 := by
      have hlength := length_le_one hnodup ?_
      · rwa [List.length_map] at hlength
      intro path hpath path' hpath'
      obtain ⟨x, hx, rfl⟩ := List.mem_map.mp hpath
      obtain ⟨y, hy, rfl⟩ := List.mem_map.mp hpath'
      obtain ⟨last, hlead, hname⟩ := hpaths x hx
      obtain ⟨last', hlead', hname'⟩ := hpaths y hy
      exact hunique start _ _ last last' hlead hlead' hname hname'
    exact ⟨all.head?, bind_eq_ok.mpr ⟨all, hall, if_neg (Nat.not_lt.mpr hone)⟩⟩

theorem tabulates_fields : Tabulates p .field p.lookupStruct := by
  intro base own name m hown hm
  rw [memberNames, hown]
  obtain ⟨before, after, heq, _⟩ := List.lookup_eq_some_iff.mp hm
  rw [Option.getD_some, heq]
  simp

theorem tabulates_methods :
    Tabulates p .method
      (fun base => some ((p.methodsOf base).map (fun m => (m.1, base, m.2)))) := by
  intro base own name m hown hm
  cases hown
  obtain ⟨before, after, heq, _⟩ := List.lookup_eq_some_iff.mp hm
  have hmem : (name, m) ∈ (p.methodsOf base).map (fun m => (m.1, base, m.2)) := by
    rw [heq]
    simp
  obtain ⟨entry, hentry, heq'⟩ := List.mem_map.mp hmem
  exact List.mem_map.mpr ⟨entry, hentry, congrArg Prod.fst heq'⟩

theorem unambiguous_of_unique
    (h : ∀ start name kind kind' path path', path ≠ [] → Resolves p kind start path name →
      Resolves p kind' start path' name → path = path') : Unambiguous p := by
  have hunique : ∀ kind name start path path' last last', Leads p [] start path last →
      Leads p [] start path' last' → name ∈ memberNames p kind last →
      name ∈ memberNames p kind last' → path = path' := by
    intro kind name start path path' last last' hlead hlead' hname hname'
    exact h start name kind kind path path' hlead.ne_nil (Or.inr ⟨last, hlead, hname⟩)
      (Or.inr ⟨last', hlead', hname'⟩)
  have hfuel : missing (p.structs.map Prod.fst) [] + 1 < p.structs.length + 2 := by
    have hle : missing (p.structs.map Prod.fst) [] ≤ (p.structs.map Prod.fst).length :=
      List.length_filter_le _ _
    rw [List.length_map] at hle
    omega
  exact {
    unique := h
    field := fun start name => promoted_total tabulates_fields (hunique .field name) hfuel
    method := fun start name => promoted_total tabulates_methods (hunique .method name) hfuel }

end Search

section Checks
variable {p : StructProgram}

theorem promote_ok {stmt label embed : String} {direct names : List String}
    {promoted promoted' : List (String × String)}
    (h : promote stmt label embed direct names promoted = .ok promoted') :
    (∀ name ∈ names, name ∉ direct ∧ promoted.lookup name = none) ∧
      ∀ name, promoted'.lookup name = none → promoted.lookup name = none ∧ name ∉ names := by
  induction names generalizing promoted with
  | nil =>
    cases h
    exact ⟨fun name hname => absurd hname List.not_mem_nil,
      fun name hnone => ⟨hnone, List.not_mem_nil⟩⟩
  | cons first names ih =>
    rw [promote] at h
    by_cases hdirect : first ∈ direct
    · rw [if_pos hdirect] at h
      cases h
    rw [if_neg hdirect] at h
    cases hlookup : promoted.lookup first with
    | some other =>
      rw [hlookup] at h
      cases h
    | none =>
      rw [hlookup] at h
      obtain ⟨hnames, hafter⟩ := ih h
      have hbefore : ∀ name, ((first, embed) :: promoted).lookup name = none →
          promoted.lookup name = none ∧ name ≠ first := by
        intro name hnone
        rw [List.lookup_cons] at hnone
        by_cases hsame : name == first
        · rw [hsame] at hnone
          cases hnone
        · have hfalse : (name == first) = false := by simpa using hsame
          rw [hfalse] at hnone
          exact ⟨hnone, by simpa using hsame⟩
      constructor
      · intro name hname
        rcases List.mem_cons.mp hname with rfl | hname
        · exact ⟨hdirect, hlookup⟩
        · exact ⟨(hnames name hname).1, (hbefore name (hnames name hname).2).1⟩
      · intro name hnone
        obtain ⟨hnone, hnot⟩ := hafter name hnone
        obtain ⟨hnone, hne⟩ := hbefore name hnone
        exact ⟨hnone, fun hin => (List.mem_cons.mp hin).elim hne hnot⟩

/-- The names that the check compares with the promoted ones. -/
def directNames (p : StructProgram) (stmt : String) (fields : List String) : MemberKind → List String
  | .field => fields
  | .method => (p.methodsOf stmt).map Prod.fst

/-- The promoted names of both kinds. -/
def marks (fields methods : List (String × String)) : MemberKind → List (String × String)
  | .field => fields
  | .method => methods

/-- What the check has seen to of the embedded structs. -/
structure Cleared (p : StructProgram) (stmt : String) (direct : List String)
    (promoted : List (String × String)) (kind : MemberKind) (embeds : List (String × TypeRef)) :
    Prop where
  fresh : ∀ e ∈ embeds, ∀ name ∈ memberNames p kind (embedBase e.2),
    name ∉ direct ∧ promoted.lookup name = none
  apart : embeds.Pairwise fun e e' => ∀ name ∈ memberNames p kind (embedBase e.2),
    name ∉ memberNames p kind (embedBase e'.2)

theorem cleared_of_validated {stmt : String} {fields : List String}
    {embeds : List (String × TypeRef)} {promotedFields promotedMethods : List (String × String)}
    (h : validateEmbeds p stmt fields embeds promotedFields promotedMethods = .ok ())
    (kind : MemberKind) :
    Cleared p stmt (directNames p stmt fields kind) (marks promotedFields promotedMethods kind) kind
      embeds := by
  induction embeds generalizing promotedFields promotedMethods with
  | nil => exact ⟨fun e he => absurd he List.not_mem_nil, .nil⟩
  | cons e embeds ih =>
    obtain ⟨embed, type⟩ := e
    rw [validateEmbeds] at h
    cases hlookup : p.lookupStruct (embedBase type) with
    | none =>
      rw [hlookup] at h
      cases h
    | some found =>
      rw [hlookup] at h
      obtain ⟨fields', hfields, h⟩ := bind_eq_ok.mp h
      obtain ⟨methods', hmethods, h⟩ := bind_eq_ok.mp h
      have hrest := ih h
      have hnames : memberNames p .field (embedBase type) = found.map Prod.fst := by
        rw [memberNames, hlookup, Option.getD_some]
      have hhere : (∀ name ∈ memberNames p kind (embedBase type),
            name ∉ directNames p stmt fields kind ∧
              (marks promotedFields promotedMethods kind).lookup name = none) ∧
          ∀ name, (marks fields' methods' kind).lookup name = none →
            (marks promotedFields promotedMethods kind).lookup name = none ∧
              name ∉ memberNames p kind (embedBase type) := by
        cases kind with
        | field =>
          rw [hnames]
          exact promote_ok hfields
        | method => exact promote_ok hmethods
      constructor
      · intro e he name hname
        rcases List.mem_cons.mp he with rfl | he
        · exact hhere.1 name hname
        · obtain ⟨hdirect, hnone⟩ := hrest.fresh e he name hname
          exact ⟨hdirect, (hhere.2 name hnone).1⟩
      · refine .cons ?_ hrest.apart
        intro e he name hname hin
        exact (hhere.2 name (hrest.fresh e he name hin).2).2 hname

theorem embedded_named {start : String} {e : String × TypeRef} (h : e ∈ p.embeddedStructs start) :
    embedBase e.2 = pointerBaseName e.2 := by
  unfold StructProgram.embeddedStructs at h
  cases hlookup : p.structs.lookup start with
  | none =>
    rw [hlookup] at h
    cases h
  | some decl =>
    rw [hlookup] at h
    obtain ⟨hfield, hembedded⟩ := List.mem_filter.mp (mem_dict h)
    obtain ⟨name, hname⟩ := decl.named e hfield (of_decide_eq_true hembedded)
    rw [hname]
    rfl

theorem lookup_of_embedded {start : String} {e : String × TypeRef}
    (h : e ∈ p.embeddedStructs start) : ∃ decl, p.structs.lookup start = some decl := by
  unfold StructProgram.embeddedStructs at h
  cases hlookup : p.structs.lookup start with
  | none =>
    rw [hlookup] at h
    cases h
  | some decl => exact ⟨decl, rfl⟩

/-- A field of a struct is embedded or is compared with the promoted ones. -/
theorem field_cases {start name : String} {decl : StructDecl}
    (hlookup : p.structs.lookup start = some decl) (h : name ∈ memberNames p .field start) :
    name ∈ (p.embeddedStructs start).map Prod.fst ∨ name ∈ directFields decl := by
  have hfields : p.lookupStruct start = some (dict decl.fields) := by
    rw [StructProgram.lookupStruct, hlookup]
    rfl
  rw [memberNames, hfields, Option.getD_some, mem_keys_dict] at h
  by_cases hembedded : name ∈ decl.embeddedFields
  · refine Or.inl ?_
    rw [StructProgram.embeddedStructs, hlookup]
    refine mem_keys_dict.mpr ?_
    obtain ⟨f, hf, rfl⟩ := List.mem_map.mp h
    exact List.mem_map_of_mem (List.mem_filter.mpr ⟨hf, decide_eq_true hembedded⟩)
  · exact Or.inr (List.mem_filter.mpr ⟨h, decide_eq_true hembedded⟩)

theorem eq_singleton {β : Type} {l : List β} (hne : l ≠ []) (hlt : l.length < 2) : ∃ x, l = [x] := by
  have hpos := List.length_pos_of_ne_nil hne
  exact List.length_eq_one_iff.mp (by omega)

/-- What is not overlooked has been checked. -/
theorem checked {start name : String} {kind kind' : MemberKind} {path path' : List String}
    (haccepted : Accepted p) (hpath : path ≠ []) (h : Resolves p kind start path name)
    (h' : Resolves p kind' start path' name)
    (hchecked : ¬ Overlooked p start kind kind' path path' name) : path = path' := by
  simp only [Overlooked, not_or, not_le, not_not] at hchecked
  obtain ⟨hshort, hshort', rfl, hembedded⟩ := hchecked
  obtain ⟨last, hlead, hname⟩ := h.resolve_left fun hnil => hpath hnil.1
  obtain ⟨embed, rfl⟩ := eq_singleton hpath hshort
  obtain ⟨type, hembed, rfl⟩ := hlead.single
  obtain ⟨decl, hlookup⟩ := lookup_of_embedded hembed
  obtain ⟨_, _, hvalid⟩ := bind_eq_ok.mp (haccepted start decl hlookup)
  have hcleared := cleared_of_validated hvalid kind
  have hbase : embedBase type = pointerBaseName type := embedded_named hembed
  rw [← hbase] at hname
  rcases h' with ⟨rfl, hdirect⟩ | ⟨last', hlead', hname'⟩
  · refine absurd ?_ (hcleared.fresh _ hembed name hname).1
    cases kind with
    | method => exact hdirect
    | field =>
      rcases field_cases hlookup hdirect with hin | hin
      · exact absurd ⟨rfl, rfl, hin⟩ hembedded
      · exact hin
  · obtain ⟨embed', rfl⟩ := eq_singleton hlead'.ne_nil hshort'
    obtain ⟨type', hembed', rfl⟩ := hlead'.single
    have hbase' : embedBase type' = pointerBaseName type' := embedded_named hembed'
    rw [← hbase'] at hname'
    by_contra hne
    have hdiffer : (embed, type) ≠ (embed', type') := by
      intro heq
      cases heq
      exact hne rfl
    have hsymmetric : Std.Symm fun e e' : String × TypeRef =>
        ∀ name ∈ memberNames p kind (embedBase e.2), name ∉ memberNames p kind (embedBase e'.2) :=
      ⟨fun e e' hapart name hin hin' => hapart name hin' hin⟩
    exact hcleared.apart.forall hembed hembed' hdiffer name hname hname'

/-- Accepted structs have unambiguous names if and only if no conflict is overlooked. -/
theorem unambiguous_iff (haccepted : Accepted p) : Unambiguous p ↔ NoOverlookedConflict p := by
  constructor
  · intro h start name kind kind' path path' hpath hname hname' _
    exact h.unique start name kind kind' path path' hpath hname hname'
  · intro h
    refine unambiguous_of_unique ?_
    intro start name kind kind' path path' hpath hname hname'
    by_cases hchecked : Overlooked p start kind kind' path path' name
    · exact h start name kind kind' path path' hpath hname hname' hchecked
    · exact checked haccepted hpath hname hname' hchecked

theorem accepted_of_all
    (h : ∀ s ∈ p.structs, validateStructEmbedding p s.1 s.2 = .ok ()) : Accepted p := by
  intro stmt decl hlookup
  obtain ⟨before, after, heq, _⟩ := List.lookup_eq_some_iff.mp hlookup
  refine h (stmt, decl) ?_
  rw [heq]
  exact List.mem_append_right _ List.mem_cons_self

/-- A struct that embeds another in two ways. -/
def diamond : StructProgram where
  structs :=
    [("A", ⟨[("x", .named "i32")], [], fun _ _ h => absurd h List.not_mem_nil⟩),
      ("B", ⟨[("A", .named "A")], ["A"], by
        intro f hf _
        cases List.mem_singleton.mp hf
        exact ⟨"A", rfl⟩⟩),
      ("C", ⟨[("A", .named "A"), ("B", .named "B")], ["A", "B"], by
        intro f hf _
        rcases List.mem_pair.mp hf with rfl | rfl
        · exact ⟨"A", rfl⟩
        · exact ⟨"B", rfl⟩⟩)]
  methods := []
  once := by decide

/-- The declarations are accepted, and the name `x` is ambiguous where it is used. -/
theorem diamond_ambiguous :
    Accepted diamond ∧
      promotedField diamond 5 "C" "x" [] =
        .error (.message "C: ambiguous promoted field x") ∧ ¬ Unambiguous diamond := by
  have haccepted : Accepted diamond := by
    refine accepted_of_all ?_
    intro s hs
    simp only [diamond, List.mem_cons, List.not_mem_nil, or_false] at hs
    rcases hs with rfl | rfl | rfl <;> rfl
  have hsearch : promotedField diamond 5 "C" "x" [] =
      .error (.message "C: ambiguous promoted field x") := rfl
  refine ⟨haccepted, hsearch, ?_⟩
  intro h
  obtain ⟨found, hfound⟩ := h.field "C" "x"
  cases hsearch.symm.trans hfound

/-- A struct that embeds another. -/
def embedded : StructProgram where
  structs :=
    [("Point", ⟨[("x", .named "i32"), ("y", .named "i32")], [], fun _ _ h => absurd h List.not_mem_nil⟩),
      ("Circle", ⟨[("Point", .named "Point"), ("radius", .named "i32")], ["Point"], by
        intro f hf hembedded
        rcases List.mem_pair.mp hf with rfl | rfl
        · exact ⟨"Point", rfl⟩
        · exact absurd hembedded (by decide)⟩)]
  methods := [("Circle", [("area", some (.named "i32"), [])])]
  once := by decide

theorem unambiguous_iff_circle : Unambiguous embedded ↔ NoOverlookedConflict embedded := by
  have haccepted : Accepted embedded := by
    refine accepted_of_all ?_
    intro s hs
    simp only [embedded, List.mem_cons, List.not_mem_nil, or_false] at hs
    rcases hs with rfl | rfl <;> rfl
  exact unambiguous_iff haccepted

end Checks

end NewClLang.EmbeddingConflicts
