import Mathlib.Data.List.Nodup
import NewClLang.AssociationLists
import NewClLang.ExceptOutcomes
import NewClLang.ModuleSyntax
import NewClLang.StackSearch

set_option autoImplicit false

/-!
# Type aliases

The aliases of a module, as `_expand_type_aliases_in_module` of `compiler/__init__.py` collects them,
and their expansion in a type.
-/
namespace NewClLang.TypeAliases
open ExceptOutcomes GraphSearch ModuleSyntax RoseTrees StackSearch TypeRefs
open AssociationLists (keys mem_of_lookup lookup_of_mem lookup_isSome_iff lookup_perm)

section Definitions

/-- `RuntimeError` with "duplicate type alias" or "type alias cycle", and the names it mentions. -/
inductive Raised where
  | duplicate (name : String)
  | cycle (path : List String)
  | unfinished

mutual

/-- `rewrite_type_ref` with a function that may raise. A name that comes back as it was stands for
itself. -/
def rewriteTypeRef (fn : String → Except Raised TypeRef) : TypeRef → Except Raised TypeRef
  | .named name => fn name
  | .pointer inner nullable => do
    let inner ← rewriteTypeRef fn inner
    .ok (.pointer inner nullable)
  | .slice elem => do
    let elem ← rewriteTypeRef fn elem
    .ok (.slice elem)
  | .array length elem => do
    let elem ← rewriteTypeRef fn elem
    .ok (.array length elem)
  | .function params ret fallible => do
    let params ← rewriteTypeRefs fn params
    let ret ← rewriteTypeRef fn ret
    .ok (.function params ret fallible)
  | .generic base args => do
    let base ← rewriteTypeRef fn base
    let args ← rewriteTypeRefs fn args
    .ok (.generic base args)

def rewriteTypeRefs (fn : String → Except Raised TypeRef) :
    List TypeRef → Except Raised (List TypeRef)
  | [] => .ok []
  | t :: ts => do
    let t ← rewriteTypeRef fn t
    let ts ← rewriteTypeRefs fn ts
    .ok (t :: ts)

end

/-- The `aliases` of a module, in the order of their declarations. -/
abbrev Aliases := List (String × TypeRef)

variable (aliases : Aliases)

/-- `expand_name`, which calls `_expand_type_str` for the target of an alias. -/
def expandName (expand : List String → TypeRef → Except Raised TypeRef) (stack : List String)
    (name : String) : Except Raised TypeRef :=
  match aliases.lookup name with
  | none => .ok (.named name)
  | some target =>
    if name ∈ stack then .error (.cycle (stack ++ [name])) else expand (stack ++ [name]) target

/-- `_expand_type_str`. The fuel bounds the nesting of the calls. -/
def expandTypeStr : ℕ → List String → TypeRef → Except Raised TypeRef
  | 0, _, _ => .error .unfinished
  | fuel + 1, stack, t => rewriteTypeRef (expandName aliases (expandTypeStr fuel) stack) t

/-- A statement at the top of a file. -/
inductive Statement where
  | typeAlias (name : String) (target : TypeRef)
  | other (node : Node)

/-- The aliases with those of a file, and the statements that remain there. -/
def collectFile : Aliases → List Statement → Except Raised (Aliases × List Node)
  | aliases, [] => .ok (aliases, [])
  | aliases, .typeAlias name target :: rest =>
    if (aliases.lookup name).isSome then .error (.duplicate name)
    else collectFile (aliases ++ [(name, target)]) rest
  | aliases, .other node :: rest => do
    let (aliases, remaining) ← collectFile aliases rest
    .ok (aliases, node :: remaining)

def collectFiles : Aliases → List (List Statement) → Except Raised (Aliases × List (List Node))
  | aliases, [] => .ok (aliases, [])
  | aliases, file :: files => do
    let (aliases, statements) ← collectFile aliases file
    let (aliases, rest) ← collectFiles aliases files
    .ok (aliases, statements :: rest)

/-- Every alias is expanded, whether it is used or not. -/
def checkCycles (fuel : ℕ) : List String → Except Raised Unit
  | [] => .ok ()
  | name :: rest => do
    let _ ← expandTypeStr aliases fuel [] (.named name)
    checkCycles fuel rest

/-- The first pass of `_expand_type_aliases_in_module`. -/
def collectAliases (files : List (List Statement)) :
    Except Raised (Aliases × List (List Node)) := do
  let (aliases, remaining) ← collectFiles [] files
  let _ ← checkCycles aliases (aliases.length + 1) (aliases.map Prod.fst)
  .ok (aliases, remaining)

end Definitions

section Graphs

def declaredAlias : Statement → Option (String × TypeRef)
  | .typeAlias name target => some (name, target)
  | .other _ => none

/-- The declarations of the files in their order. -/
def declaredAliases (files : List (List Statement)) : Aliases :=
  files.flatten.filterMap declaredAlias

/-- The alias mentions the name. -/
def Mentions (aliases : Aliases) (name other : String) : Prop :=
  ∃ target, aliases.lookup name = some target ∧ other ∈ names target

end Graphs

section Rewriting
variable {E : Raised → Prop} {Q : String → Prop} {fn : String → Except Raised TypeRef}
  {g : String → TypeRef}

mutual

/-- The names of a type are rewritten from left to right until one raises. -/
theorem rewriteTypeRef_ends : ∀ t : TypeRef,
    (∀ n ∈ names t, Ends E (fun r => Q n ∧ r = g n) (fn n)) →
      Ends E (fun t' => (∀ n ∈ names t, Q n) ∧ t' = t.rewrite g) (rewriteTypeRef fn t)
  | .named name, h => by
    refine (h name List.mem_cons_self).mono (fun r hr => ⟨fun n hn => ?_, hr.2⟩)
    rw [List.mem_singleton.mp hn]
    exact hr.1
  | .pointer inner nullable, h => by
    refine (rewriteTypeRef_ends inner h).bind (fun r hr => .ok ⟨hr.1, ?_⟩)
    rw [hr.2, TypeRef.rewrite]
  | .slice elem, h => by
    refine (rewriteTypeRef_ends elem h).bind (fun r hr => .ok ⟨hr.1, ?_⟩)
    rw [hr.2, TypeRef.rewrite]
  | .array length elem, h => by
    refine (rewriteTypeRef_ends elem h).bind (fun r hr => .ok ⟨hr.1, ?_⟩)
    rw [hr.2, TypeRef.rewrite]
  | .function params ret fallible, h => by
    have hps := rewriteTypeRefs_ends params (fun n hn => h n (List.mem_append_left _ hn))
    have hret := rewriteTypeRef_ends ret (fun n hn => h n (List.mem_append_right _ hn))
    refine hps.bind (fun ps hps => hret.bind (fun r hr => .ok ⟨?_, ?_⟩))
    · exact fun n hn => (List.mem_append.mp hn).elim (hps.1 n) (hr.1 n)
    · rw [hps.2, hr.2, TypeRef.rewrite]
  | .generic base args, h => by
    have hbase := rewriteTypeRef_ends base (fun n hn => h n (List.mem_append_left _ hn))
    have hargs := rewriteTypeRefs_ends args (fun n hn => h n (List.mem_append_right _ hn))
    refine hbase.bind (fun r hr => hargs.bind (fun rs hrs => .ok ⟨?_, ?_⟩))
    · exact fun n hn => (List.mem_append.mp hn).elim (hr.1 n) (hrs.1 n)
    · rw [hr.2, hrs.2, TypeRef.rewrite]

theorem rewriteTypeRefs_ends : ∀ ts : List TypeRef,
    (∀ n ∈ namesAll ts, Ends E (fun r => Q n ∧ r = g n) (fn n)) →
      Ends E (fun ts' => (∀ n ∈ namesAll ts, Q n) ∧ ts' = TypeRef.rewriteAll g ts)
        (rewriteTypeRefs fn ts)
  | [], _ => .ok ⟨fun n hn => absurd hn List.not_mem_nil, rfl⟩
  | t :: ts, h => by
    have ht := rewriteTypeRef_ends t (fun n hn => h n (List.mem_append_left _ hn))
    have hts := rewriteTypeRefs_ends ts (fun n hn => h n (List.mem_append_right _ hn))
    refine ht.bind (fun r hr => hts.bind (fun rs hrs => .ok ⟨?_, ?_⟩))
    · exact fun n hn => (List.mem_append.mp hn).elim (hr.1 n) (hrs.1 n)
    · rw [hr.2, hrs.2, TypeRef.rewriteAll]

end

theorem rewriteTypeRef_all {t : TypeRef} (h : ∀ n ∈ names t, fn n = .ok (g n)) :
    rewriteTypeRef fn t = .ok (t.rewrite g) := by
  have hends : Ends (fun _ => False) (fun t' => (∀ n ∈ names t, True) ∧ t' = t.rewrite g)
      (rewriteTypeRef fn t) := by
    refine rewriteTypeRef_ends t (fun n hn => ?_)
    rw [h n hn]
    exact .ok ⟨trivial, rfl⟩
  exact hends.exact (fun _ he => he) (fun t' ht => ht.2)

theorem rewriteTypeRef_ok {t t' : TypeRef} (h : rewriteTypeRef fn t = .ok t') :
    ∃ g, (∀ n ∈ names t, fn n = .ok (g n)) ∧ t' = t.rewrite g := by
  let g := fun n => (fn n).toOption.getD (.named n)
  have hname (n : String) : Ends (fun _ => True) (fun r => fn n = .ok (g n) ∧ r = g n) (fn n) := by
    refine ends_of_ok (fun r hr => ?_)
    have hg : g n = r := by simp only [g, hr, Except.toOption, Option.getD_some]
    rw [hg]
    exact ⟨hr, rfl⟩
  exact ⟨g, (rewriteTypeRef_ends t (fun n _ => hname n)).result h⟩

end Rewriting

section Expansion
variable {aliases : Aliases} {stack : List String} {fuel : ℕ}

theorem mentions_alias {name other : String} (h : Mentions aliases name other) :
    name ∈ keys aliases := by
  obtain ⟨target, hlookup, -⟩ := h
  exact List.mem_map_of_mem (mem_of_lookup hlookup)

/-- The search from the names of a type comes to its end. -/
def SafeType (aliases : Aliases) (stack : List String) (t : TypeRef) : Prop :=
  ∀ n ∈ names t, Safe (Mentions aliases) stack n

/-- The computation ends with a result or, if and only if `safe` fails, with a cycle error. -/
abbrev Searched {α : Type} (safe : Prop) : Except Raised α → Prop :=
  Ends (fun e => (∃ path, e = .cycle path) ∧ ¬ safe) (fun _ => safe)

theorem expandName_searches {expand : List String → TypeRef → Except Raised TypeRef} {name : String}
    (hstack : ∀ n ∈ stack, (aliases.lookup n).isSome)
    (hexpand : ∀ target, aliases.lookup name = some target → name ∉ stack →
      Searched (SafeType aliases (stack ++ [name]) target) (expand (stack ++ [name]) target)) :
    Searched (Safe (Mentions aliases) stack name) (expandName aliases expand stack name) := by
  unfold expandName
  cases hlookup : aliases.lookup name with
  | none =>
    have hfresh : name ∉ stack := by
      intro hmem
      have hsome := hstack name hmem
      rw [hlookup] at hsome
      cases hsome
    refine .ok (.step hfresh ?_)
    rintro other ⟨target, htarget, -⟩
    rw [hlookup] at htarget
    cases htarget
  | some target =>
    dsimp only
    by_cases hmem : name ∈ stack
    · rw [if_pos hmem]
      exact .error ⟨⟨_, rfl⟩, fun hsafe => hsafe.fresh hmem⟩
    · rw [if_neg hmem]
      refine (hexpand target hlookup hmem).imp ?_ ?_
      · rintro e ⟨hcycle, hunsafe⟩
        exact ⟨hcycle, fun hsafe => hunsafe (fun n hn => hsafe.next ⟨target, hlookup, hn⟩)⟩
      · rintro r hsafe
        refine .step hmem ?_
        rintro other ⟨target', htarget, hother⟩
        rw [hlookup] at htarget
        cases htarget
        exact hsafe other hother

/-- The fuel suffices where it exceeds the number of the aliases that are not on the stack. -/
theorem expandTypeStr_searches (hstack : ∀ n ∈ stack, (aliases.lookup n).isSome)
    (hfuel : missing (keys aliases) stack < fuel) (t : TypeRef) :
    Searched (SafeType aliases stack t) (expandTypeStr aliases fuel stack t) := by
  induction fuel generalizing stack t with
  | zero => omega
  | succ fuel ih =>
    have hname (name : String) : Searched (Safe (Mentions aliases) stack name)
        (expandName aliases (expandTypeStr aliases fuel) stack name) := by
      refine expandName_searches hstack (fun target hlookup hfresh => ih ?_ ?_ target)
      · intro n hn
        rcases List.mem_append.mp hn with hn | hn
        · exact hstack n hn
        · rw [List.mem_singleton.mp hn, hlookup]
          rfl
      · have hmem : name ∈ keys aliases := List.mem_map_of_mem (mem_of_lookup hlookup)
        have hless := missing_concat hmem hfresh
        omega
    refine (rewriteTypeRef_ends t (g := fun n =>
      (expandName aliases (expandTypeStr aliases fuel) stack n).toOption.getD (.named n))
      (fun n hn => ?_)).mono (fun t' ht => ht.1)
    refine (hname n).result_eq.imp ?_ (fun r hr => hr)
    rintro e ⟨hcycle, hunsafe⟩
    exact ⟨hcycle, fun hsafe => hunsafe (hsafe n hn)⟩

theorem expandName_ok {expand : List String → TypeRef → Except Raised TypeRef} {name : String}
    {r : TypeRef} (h : expandName aliases expand stack name = .ok r) :
    (aliases.lookup name = none ∧ r = .named name) ∨
      ∃ target, aliases.lookup name = some target ∧ expand (stack ++ [name]) target = .ok r := by
  unfold expandName at h
  cases hlookup : aliases.lookup name with
  | none =>
    rw [hlookup] at h
    cases h
    exact Or.inl ⟨rfl, rfl⟩
  | some target =>
    rw [hlookup] at h
    dsimp only at h
    split at h
    · cases h
    · exact Or.inr ⟨target, rfl, h⟩

/-- No alias is left in an expanded type. -/
theorem expandTypeStr_names {t t' : TypeRef} (h : expandTypeStr aliases fuel stack t = .ok t') :
    ∀ n ∈ names t', aliases.lookup n = none := by
  induction fuel generalizing stack t t' with
  | zero => cases h
  | succ fuel ih =>
    obtain ⟨g, hg, rfl⟩ := rewriteTypeRef_ok h
    intro n hn
    rw [names_bind, List.mem_flatMap] at hn
    obtain ⟨name, hname, hn⟩ := hn
    rcases expandName_ok (hg name hname) with ⟨hlookup, heq⟩ | ⟨target, -, hexpand⟩
    · rw [heq] at hn
      rw [List.mem_singleton.mp hn]
      exact hlookup
    · exact ih hexpand n hn

/-- What a type is expanded to does not depend on the fuel or on the stack. -/
theorem expandTypeStr_unique {t t' t'' : TypeRef} {fuel' : ℕ} {stack' : List String}
    (h : expandTypeStr aliases fuel stack t = .ok t')
    (h' : expandTypeStr aliases fuel' stack' t = .ok t'') : t' = t'' := by
  induction fuel generalizing stack t t' t'' fuel' stack' with
  | zero => cases h
  | succ fuel ih =>
    cases fuel' with
    | zero => cases h'
    | succ fuel' =>
      obtain ⟨g, hg, rfl⟩ := rewriteTypeRef_ok h
      obtain ⟨g', hg', rfl⟩ := rewriteTypeRef_ok h'
      refine rewrite_congr t (fun name hname => ?_)
      rcases expandName_ok (hg name hname) with ⟨hlookup, heq⟩ | ⟨target, hlookup, hexpand⟩
      · rcases expandName_ok (hg' name hname) with ⟨-, heq'⟩ | ⟨target', hlookup', -⟩
        · rw [heq, heq']
        · rw [hlookup] at hlookup'
          cases hlookup'
      · rcases expandName_ok (hg' name hname) with ⟨hlookup', -⟩ | ⟨target', hlookup', hexpand'⟩
        · rw [hlookup] at hlookup'
          cases hlookup'
        · rw [hlookup] at hlookup'
          cases hlookup'
          exact ih hexpand hexpand'

/-- A type without aliases is its own expansion. -/
theorem expandTypeStr_settled {t : TypeRef} (h : ∀ n ∈ names t, aliases.lookup n = none) :
    expandTypeStr aliases (fuel + 1) stack t = .ok t := by
  have hname (n : String) (hn : n ∈ names t) :
      expandName aliases (expandTypeStr aliases fuel) stack n = .ok (.named n) := by
    rw [expandName, h n hn]
  rw [expandTypeStr, rewriteTypeRef_all hname, rewrite_named]

theorem safe_all (hacyclic : ¬ Cyclic (Mentions aliases)) (n : String) :
    Safe (Mentions aliases) [] n :=
  safe_of_acyclic (fun _ _ hedge => mentions_alias hedge) hacyclic
    (fun _ ha => absurd ha List.not_mem_nil)

/-- The alias names are safe if and only if there is no cycle. -/
theorem acyclic_safe_iff :
    (∀ n ∈ keys aliases, Safe (Mentions aliases) [] n) ↔ ¬ Cyclic (Mentions aliases) := by
  constructor
  · rintro hsafe ⟨n, hcycle⟩
    obtain ⟨m, hmentions, -⟩ := Relation.TransGen.head'_iff.mp hcycle
    exact (hsafe n (mentions_alias hmentions)).not_cyclic hcycle
  · exact fun hacyclic n _ => safe_all hacyclic n

theorem missing_nil (aliases : Aliases) : missing (keys aliases) [] ≤ aliases.length := by
  have hle := List.length_filter_le (fun k => decide (k ∉ ([] : List String))) (keys aliases)
  rw [AssociationLists.length_keys] at hle
  exact hle

/-- With more fuel than there are aliases, the expansion of a type ends. -/
theorem expandTypeStr_ends (hfuel : aliases.length < fuel) (t : TypeRef) :
    Searched (SafeType aliases [] t) (expandTypeStr aliases fuel [] t) :=
  expandTypeStr_searches (fun _ hn => absurd hn List.not_mem_nil)
    (Nat.lt_of_le_of_lt (missing_nil aliases) hfuel) t

theorem expandTypeStr_acyclic (hacyclic : ¬ Cyclic (Mentions aliases)) (t : TypeRef) :
    ∃ t', ∀ fuel, aliases.length < fuel → expandTypeStr aliases fuel [] t = .ok t' := by
  have hsafe : SafeType aliases [] t := fun n _ => safe_all hacyclic n
  have hok (fuel : ℕ) (hfuel : aliases.length < fuel) :
      ∃ t', expandTypeStr aliases fuel [] t = .ok t' := by
    cases hexpand : expandTypeStr aliases fuel [] t with
    | ok t' => exact ⟨t', rfl⟩
    | error e => exact absurd hsafe ((expandTypeStr_ends hfuel t).raised hexpand).2
  obtain ⟨t', ht'⟩ := hok (aliases.length + 1) (Nat.lt_succ_self _)
  refine ⟨t', fun fuel hfuel => ?_⟩
  obtain ⟨t'', ht''⟩ := hok fuel hfuel
  rw [ht'', expandTypeStr_unique ht'' ht']

theorem expandTypeStr_perm {aliases' : Aliases} (hnodup : (keys aliases).Nodup)
    (hperm : aliases.Perm aliases') (fuel : ℕ) :
    expandTypeStr aliases fuel = expandTypeStr aliases' fuel := by
  induction fuel with
  | zero => rfl
  | succ fuel ih =>
    funext stack t
    have hname : expandName aliases = expandName aliases' := by
      funext expand stack name
      rw [expandName, expandName, lookup_perm hnodup hperm]
    rw [expandTypeStr, expandTypeStr, ih, hname]

end Expansion

section Collection

def remainingNode : Statement → Option Node
  | .typeAlias _ _ => none
  | .other node => some node

/-- Collecting ends with the declarations in their order, or at a name that is declared again. -/
abbrev Collected {α : Type} (aliases : Aliases) (rest : α) : Except Raised (Aliases × α) → Prop :=
  Ends (fun e => (∃ name, e = .duplicate name) ∧ ¬ (keys aliases).Nodup)
    (fun r => (keys aliases).Nodup ∧ r = (aliases, rest))

theorem nodup_concat {aliases : Aliases} (hnodup : (keys aliases).Nodup) {entry : String × TypeRef}
    (h : ¬ (aliases.lookup entry.1).isSome) : (keys (aliases ++ [entry])).Nodup := by
  rw [AssociationLists.keys_concat, ← List.concat_eq_append]
  exact List.Nodup.concat (mt lookup_isSome_iff.mpr h) hnodup

theorem not_nodup {aliases later : Aliases} {name : String} {target : TypeRef}
    (h : (aliases.lookup name).isSome) : ¬ (keys (aliases ++ (name, target) :: later)).Nodup := by
  rw [keys, List.map_append, List.map_cons]
  intro hnodup
  exact List.disjoint_of_nodup_append hnodup (lookup_isSome_iff.mp h) List.mem_cons_self

theorem collectFile_ends {aliases : Aliases} (hnodup : (keys aliases).Nodup)
    (file : List Statement) :
    Collected (aliases ++ file.filterMap declaredAlias) (file.filterMap remainingNode)
      (collectFile aliases file) := by
  induction file generalizing aliases with
  | nil =>
    rw [List.filterMap_nil, List.append_nil]
    exact .ok ⟨hnodup, rfl⟩
  | cons stmt rest ih =>
    cases stmt with
    | typeAlias name target =>
      have hsame : aliases ++ (Statement.typeAlias name target :: rest).filterMap declaredAlias =
          aliases ++ [(name, target)] ++ rest.filterMap declaredAlias := by
        rw [List.append_assoc]
        rfl
      rw [collectFile]
      by_cases hlookup : (aliases.lookup name).isSome
      · rw [if_pos hlookup]
        exact .error ⟨⟨name, rfl⟩, not_nodup hlookup⟩
      · rw [if_neg hlookup, hsame]
        exact ih (nodup_concat hnodup hlookup)
    | other node =>
      exact (ih hnodup).bind (fun r hr => .ok ⟨hr.1, by rw [hr.2]; rfl⟩)

theorem collectFiles_ends {aliases : Aliases} (hnodup : (keys aliases).Nodup)
    (files : List (List Statement)) :
    Collected (aliases ++ declaredAliases files) (files.map (List.filterMap remainingNode))
      (collectFiles aliases files) := by
  induction files generalizing aliases with
  | nil =>
    rw [declaredAliases, List.flatten_nil, List.filterMap_nil, List.append_nil]
    exact .ok ⟨hnodup, rfl⟩
  | cons file files ih =>
    have hsame : aliases ++ declaredAliases (file :: files) =
        aliases ++ file.filterMap declaredAlias ++ declaredAliases files := by
      rw [declaredAliases, List.flatten_cons, List.filterMap_append, List.append_assoc]
      rfl
    rw [hsame, collectFiles]
    refine ((collectFile_ends hnodup file).imp ?_ (fun _ hr => hr)).bind ?_
    · rintro e ⟨hduplicate, htwice⟩
      refine ⟨hduplicate, fun hnodup' => htwice ?_⟩
      rw [keys, List.map_append] at hnodup'
      exact hnodup'.of_append_left
    · rintro r ⟨hnodup', rfl⟩
      exact (ih hnodup').bind (fun r hr => .ok ⟨hr.1, by rw [hr.2]; rfl⟩)

/-- What collecting the aliases comes to: a name that is declared twice, a cycle, or the
declarations in their order with the other statements of each file. -/
inductive Outcome (files : List (List Statement)) : Except Raised (Aliases × List (List Node)) → Prop
  | duplicate {name : String} (htwice : ¬ (keys (declaredAliases files)).Nodup) :
    Outcome files (.error (.duplicate name))
  | cycle {path : List String} (hnodup : (keys (declaredAliases files)).Nodup)
    (hcyclic : Cyclic (Mentions (declaredAliases files))) : Outcome files (.error (.cycle path))
  | collected (hnodup : (keys (declaredAliases files)).Nodup)
    (hacyclic : ¬ Cyclic (Mentions (declaredAliases files))) :
    Outcome files (.ok (declaredAliases files, files.map (List.filterMap remainingNode)))

theorem checkCycles_ends {aliases : Aliases} {fuel : ℕ} (hfuel : aliases.length < fuel)
    (names : List String) :
    Searched (∀ n ∈ names, Safe (Mentions aliases) [] n) (checkCycles aliases fuel names) := by
  induction names with
  | nil => exact .ok (fun n hn => absurd hn List.not_mem_nil)
  | cons name rest ih =>
    rw [checkCycles]
    refine ((expandTypeStr_ends hfuel (.named name)).imp ?_ (fun _ hr => hr)).bind ?_
    · rintro e ⟨hcycle, hunsafe⟩
      refine ⟨hcycle, fun hsafe => hunsafe (fun n hn => ?_)⟩
      rw [List.mem_singleton.mp hn]
      exact hsafe name List.mem_cons_self
    · intro t' hname
      refine ih.imp ?_ ?_
      · rintro e ⟨hcycle, hunsafe⟩
        exact ⟨hcycle, fun hsafe => hunsafe (fun n hn => hsafe n (List.mem_cons_of_mem name hn))⟩
      · intro _ hrest
        exact List.forall_mem_cons.mpr ⟨hname name List.mem_cons_self, hrest⟩

theorem collectAliases_outcome (files : List (List Statement)) :
    Outcome files (collectAliases files) := by
  have hnil : (keys ([] : Aliases)).Nodup := List.nodup_nil
  have hfiles := collectFiles_ends hnil files
  rw [List.nil_append] at hfiles
  rw [collectAliases]
  generalize collectFiles [] files = collected at hfiles
  cases hfiles with
  | error h =>
    obtain ⟨⟨name, rfl⟩, htwice⟩ := h
    exact .duplicate htwice
  | ok h =>
    obtain ⟨hnodup, rfl⟩ := h
    have hcheck := checkCycles_ends (Nat.lt_succ_self (declaredAliases files).length)
      (keys (declaredAliases files))
    rw [acyclic_safe_iff] at hcheck
    change Outcome files (checkCycles (declaredAliases files) ((declaredAliases files).length + 1)
      (keys (declaredAliases files)) >>= fun _ =>
        .ok (declaredAliases files, files.map (List.filterMap remainingNode)))
    generalize checkCycles (declaredAliases files) ((declaredAliases files).length + 1)
      (keys (declaredAliases files)) = checked at hcheck
    cases hcheck with
    | error h =>
      obtain ⟨⟨path, rfl⟩, hcyclic⟩ := h
      exact .cycle hnodup (not_not.mp hcyclic)
    | ok hacyclic => exact .collected hnodup hacyclic

/-- A type and its expansion: it is reached with any fuel that exceeds the number of aliases, it has
no alias left, and to expand it again changes nothing. -/
structure Expansion (aliases : Aliases) (t t' : TypeRef) : Prop where
  ends : ∀ fuel, aliases.length < fuel → expandTypeStr aliases fuel [] t = .ok t'
  complete : ∀ n ∈ names t', aliases.lookup n = none
  settled : ∀ fuel, 0 < fuel → expandTypeStr aliases fuel [] t' = .ok t'

theorem expansion_of_acyclic {aliases : Aliases} (hacyclic : ¬ Cyclic (Mentions aliases))
    (t : TypeRef) : ∃ t', Expansion aliases t t' := by
  obtain ⟨t', ht'⟩ := expandTypeStr_acyclic hacyclic t
  have hcomplete := expandTypeStr_names (ht' (aliases.length + 1) (Nat.lt_succ_self _))
  refine ⟨t', ht', hcomplete, fun fuel hfuel => ?_⟩
  cases fuel with
  | zero => omega
  | succ fuel => exact expandTypeStr_settled hcomplete

theorem Expansion.perm {aliases aliases' : Aliases} {t t' : TypeRef} (h : Expansion aliases t t')
    (hnodup : (keys aliases).Nodup) (hperm : aliases.Perm aliases') : Expansion aliases' t t' where
  ends fuel hfuel := by
    rw [← expandTypeStr_perm hnodup hperm]
    exact h.ends fuel (hperm.length_eq ▸ hfuel)
  complete n hn := by
    rw [← lookup_perm hnodup hperm]
    exact h.complete n hn
  settled fuel hfuel := by
    rw [← expandTypeStr_perm hnodup hperm]
    exact h.settled fuel hfuel

/-- Collecting the aliases of a module, with one declaration for each name, ends with the cycle error
if and only if an alias comes back to itself through what it mentions. Otherwise every type has its
expansion, whatever the order of the declarations. -/
theorem collectAliases_expands (files : List (List Statement))
    (hnodup : (keys (declaredAliases files)).Nodup) :
    ((∃ path, collectAliases files = .error (.cycle path)) ↔
        Cyclic (Mentions (declaredAliases files))) ∧
      (¬ Cyclic (Mentions (declaredAliases files)) →
        collectAliases files =
            .ok (declaredAliases files, files.map (List.filterMap remainingNode)) ∧
          ∀ t, ∃ t', ∀ files', (declaredAliases files).Perm (declaredAliases files') →
            Expansion (declaredAliases files') t t') := by
  have houtcome := collectAliases_outcome files
  generalize collectAliases files = collected at houtcome
  constructor
  · cases houtcome with
    | duplicate htwice => exact absurd hnodup htwice
    | @cycle path _ hcyclic => exact ⟨fun _ => hcyclic, fun _ => ⟨path, rfl⟩⟩
    | collected _ hacyclic =>
      refine ⟨?_, fun hcyclic => absurd hcyclic hacyclic⟩
      rintro ⟨path, hpath⟩
      cases hpath
  · intro hacyclic
    constructor
    · cases houtcome with
      | duplicate htwice => exact absurd hnodup htwice
      | cycle _ hcyclic => exact absurd hcyclic hacyclic
      | collected _ _ => rfl
    · intro t
      obtain ⟨t', ht'⟩ := expansion_of_acyclic hacyclic t
      exact ⟨t', fun files' hperm => ht'.perm hnodup hperm⟩

/-- `type A = B` and `type B = []A`. -/
theorem collectAliases_expands_mutual :
    (∃ path, collectAliases [[.typeAlias "A" (.named "B")],
        [.typeAlias "B" (.slice (.named "A"))]] = .error (.cycle path)) ↔
      Cyclic (Mentions (declaredAliases [[.typeAlias "A" (.named "B")],
        [.typeAlias "B" (.slice (.named "A"))]])) :=
  (collectAliases_expands [[.typeAlias "A" (.named "B")], [.typeAlias "B" (.slice (.named "A"))]]
    (by decide)).1

end Collection

end NewClLang.TypeAliases
