import NewClLang.AssociationLists
import NewClLang.EmbeddingConflicts
import NewClLang.MemoFolds
import NewClLang.ModuleSyntax

set_option autoImplicit false

/-!
# Method sets of interfaces

`iface_method_set` of `compiler/typecheck.py` and `resolve` in `register_ifaces` of
`compiler/llvm_iface.py` follow the embedded interfaces twice: the first reports what is wrong, the
second makes the table that calls through an interface are compiled with.
-/
namespace NewClLang.InterfaceSets
open AssociationLists MemoFolds ModuleSyntax Relation StructEmbedding TypeRefs TypeSyntax

section Declarations

structure IfaceDecl where
  methods : List Method
  embeds : List TypeRef

/-- `symtab._ifaces`. `declare_global` takes a name only once. -/
structure Ifaces where
  decls : List (String × IfaceDecl)
  once : (keys decls).Nodup

/-- The types of the parameters, and the type of the result. -/
abbrev Sig := List String × String

def sigOf (method : Method) : Sig :=
  (method.params.map (fun p => typeKey p.2), (method.returnType.map typeKey).getD "void")

def entryOf (method : Method) : String × Sig := (method.name, sigOf method)

/-- `methods` and `order` together: a dictionary in the order of insertion. -/
abbrev MethodSet := List (String × Sig)

variable (I : Ifaces)

def Ifaces.embedsOf (name : String) : Option (List String) :=
  (I.decls.lookup name).map (fun decl => decl.embeds.map typeKey)

def Ifaces.methodsOf (name : String) : List Method :=
  ((I.decls.lookup name).map IfaceDecl.methods).getD []

end Declarations

section Checker

/-- `add` of `iface_method_set`. -/
def add (iface : String) (methods : MethodSet) (entry : String × Sig) : Except String MethodSet :=
  match methods.lookup entry.1 with
  | none => .ok (methods ++ [entry])
  | some sig =>
    if sig = entry.2 then .ok methods
    else .error ("iface " ++ iface ++ ": conflicting method " ++ entry.1)

def addMethod (iface : String) (methods : MethodSet) (method : Method) : Except String MethodSet :=
  if method.fallible then
    .error ("iface " ++ iface ++ ": fallible methods are not supported in v1")
  else add iface methods (entryOf method)

variable (I : Ifaces)

def checked : Fold String MethodSet MethodSet String where
  children := I.embedsOf
  start _ := []
  step iface methods embedded := embedded.foldlM (add iface) methods
  finish iface methods := (I.methodsOf iface).foldlM (addMethod iface) methods

/-- An embedded interface that is not declared is reported where it is embedded. -/
def message : Failure String String → String
  | .undeclared stack iface =>
    match stack.getLast? with
    | none => "iface " ++ iface ++ ": embedded iface not found"
    | some parent => "iface " ++ parent ++ ": embedded iface " ++ iface ++ " not found"
  | .cycle stack => "iface " ++ stack.getLast?.getD "" ++ ": embedded iface cycle"
  | .failed text => text

/-- `iface_method_set`, with the method sets that are kept in the symbol table. -/
def ifaceMethodSet (fuel : ℕ) (iface : String) (kept : Memo String MethodSet) :
    Option (Except String (MethodSet × Memo String MethodSet)) :=
  (fold (checked I) fuel [] iface kept).map (fun r => r.mapError message)

/-- The method sets that the checker asks for, one after the other. -/
def askAll (fuel : ℕ) : List String → Memo String MethodSet →
    Option (Except String (Memo String MethodSet))
  | [], kept => some (.ok kept)
  | iface :: ifaces, kept =>
    match ifaceMethodSet I fuel iface kept with
    | none => none
    | some (.error text) => some (.error text)
    | some (.ok (_, kept')) => askAll fuel ifaces kept'

end Checker

section CodeGenerator
variable (I : Ifaces)

/-- `resolve` of `register_ifaces`, which puts a method over one of the same name. -/
def resolved : Fold String MethodSet MethodSet String where
  children := I.embedsOf
  start _ := []
  step _ methods embedded := .ok (embedded.foldl store methods)
  finish iface methods := .ok (((I.methodsOf iface).map entryOf).foldl store methods)

/-- `IFACE_METHODS` after `register_ifaces`. -/
def registerIfaces (fuel : ℕ) :
    Option (Except (Failure String String) (Memo String MethodSet)) :=
  foldNames (resolved I) fuel (keys I.decls) []

end CodeGenerator

section Meaning
variable (I : Ifaces)

def Embeds (iface embed : String) : Prop :=
  ∃ decl, I.decls.lookup iface = some decl ∧ embed ∈ decl.embeds.map typeKey

/-- The interface has the method itself or through interfaces that it embeds. -/
def Offers (iface : String) (entry : String × Sig) : Prop :=
  ∃ embed, ReflTransGen (Embeds I) iface embed ∧ ∃ method ∈ I.methodsOf embed, entryOf method = entry

structure Sound (iface : String) : Prop where
  declared : ∀ embed, ReflTransGen (Embeds I) iface embed → embed ∈ keys I.decls
  acyclic : ∀ embed, ReflTransGen (Embeds I) iface embed → ¬ TransGen (Embeds I) embed embed
  infallible : ∀ embed, ReflTransGen (Embeds I) iface embed →
    ∀ method ∈ I.methodsOf embed, method.fallible = false
  coherent : ∀ e e', Offers I iface e → Offers I iface e' → e.1 = e'.1 → e = e'

/-- The text says what is wrong with an interface. -/
inductive Reported (iface : String) : String → Prop where
  | unknown (h : iface ∉ keys I.decls) :
    Reported iface ("iface " ++ iface ++ ": embedded iface not found")
  | missing {parent embed : String} (hpath : ReflTransGen (Embeds I) iface parent)
    (hembeds : Embeds I parent embed) (h : embed ∉ keys I.decls) :
    Reported iface ("iface " ++ parent ++ ": embedded iface " ++ embed ++ " not found")
  | cycle {embed : String} (hpath : ReflTransGen (Embeds I) iface embed)
    (h : TransGen (Embeds I) embed embed) :
    Reported iface ("iface " ++ embed ++ ": embedded iface cycle")
  | fallible {embed : String} {method : Method} (hpath : ReflTransGen (Embeds I) iface embed)
    (hmethod : method ∈ I.methodsOf embed) (h : method.fallible = true) :
    Reported iface ("iface " ++ embed ++ ": fallible methods are not supported in v1")
  | conflict {embed : String} {e e' : String × Sig} (hpath : ReflTransGen (Embeds I) iface embed)
    (he : Offers I embed e) (he' : Offers I embed e') (hname : e.1 = e'.1) (h : e ≠ e') :
    Reported iface ("iface " ++ embed ++ ": conflicting method " ++ e.1)

/-- A method set holds what the interface offers, each name once. -/
structure Covers (iface : String) (methods : MethodSet) : Prop where
  nodup : (keys methods).Nodup
  offers : ∀ e, e ∈ methods ↔ Offers I iface e

end Meaning

section Additions
variable {iface : String} {methods methods' methods'' : MethodSet} {e : String × Sig}
  {es es' : List (String × Sig)}

/-- Entries have been added to a method set, none of them against another. -/
structure Adds (methods : MethodSet) (es : List (String × Sig)) (methods' : MethodSet) : Prop where
  nodup : (keys methods').Nodup
  mem : ∀ x, x ∈ methods' ↔ x ∈ methods ∨ x ∈ es
  stored : methods' = es.foldl store methods

theorem Adds.trans (h : Adds methods es methods') (h' : Adds methods' es' methods'') :
    Adds methods (es ++ es') methods'' where
  nodup := h'.nodup
  mem x := by rw [h'.mem, h.mem, List.mem_append, or_assoc]
  stored := by rw [List.foldl_append, ← h.stored, h'.stored]

theorem eq_of_mem {e e' : String × Sig} (hnodup : (keys methods).Nodup) (h : e ∈ methods)
    (h' : e' ∈ methods) (hname : e.1 = e'.1) : e = e' := by
  have hlookup := lookup_of_mem hnodup h
  rw [hname, lookup_of_mem hnodup h', Option.some.injEq] at hlookup
  exact Prod.ext hname hlookup.symm

theorem store_mem (hnodup : (keys methods).Nodup) (h : e ∈ methods) : store methods e = methods := by
  unfold store
  rw [if_pos (List.mem_map_of_mem h)]
  refine (List.map_congr_left fun x hx => ?_).trans (List.map_id _)
  split
  · rename_i hname
    exact eq_of_mem hnodup h hx hname.symm
  · rfl

theorem add_ok (hnodup : (keys methods).Nodup) (h : add iface methods e = .ok methods') :
    Adds methods [e] methods' := by
  unfold add at h
  split at h
  · rename_i hlookup
    cases h
    have hnot : e.1 ∉ keys methods := by
      rw [← lookup_isSome_iff, hlookup]
      simp
    refine ⟨?_, fun x => List.mem_append, ?_⟩
    · rw [keys_concat]
      exact List.Nodup.append hnodup (List.nodup_singleton _) (List.disjoint_singleton.mpr hnot)
    · exact (if_neg hnot).symm
  · rename_i sig hlookup
    split at h
    · rename_i hsig
      cases h
      have hmem : e ∈ methods := by
        have hmem := mem_of_lookup hlookup
        rwa [hsig] at hmem
      refine ⟨hnodup, fun x => ⟨.inl, ?_⟩, (store_mem hnodup hmem).symm⟩
      rintro (hx | hx)
      · exact hx
      · rw [List.mem_singleton.mp hx]
        exact hmem
    · cases h

theorem addEach_ok (hnodup : (keys methods).Nodup)
    (h : es.foldlM (add iface) methods = .ok methods') : Adds methods es methods' := by
  induction es generalizing methods with
  | nil =>
    cases h
    exact ⟨hnodup, by simp, rfl⟩
  | cons e es ih =>
    rw [List.foldlM_cons] at h
    cases hadd : add iface methods e with
    | error text =>
      rw [hadd] at h
      cases h
    | ok methods₁ =>
      rw [hadd] at h
      have hfirst := add_ok hnodup hadd
      exact hfirst.trans (ih hfirst.nodup h)

theorem add_error {text : String} (h : add iface methods e = .error text) :
    ∃ e' ∈ methods, e.1 = e'.1 ∧ e ≠ e' ∧
      text = "iface " ++ iface ++ ": conflicting method " ++ e.1 := by
  unfold add at h
  split at h
  · cases h
  · rename_i sig hlookup
    split at h
    · cases h
    · rename_i hsig
      cases h
      refine ⟨(e.1, sig), mem_of_lookup hlookup, rfl, fun heq => hsig ?_, rfl⟩
      rw [heq]

theorem addEach_error {text : String} (hnodup : (keys methods).Nodup)
    (h : es.foldlM (add iface) methods = .error text) :
    ∃ e e', e ∈ es ∧ (e' ∈ methods ∨ e' ∈ es) ∧ e.1 = e'.1 ∧ e ≠ e' ∧
      text = "iface " ++ iface ++ ": conflicting method " ++ e.1 := by
  induction es generalizing methods with
  | nil => cases h
  | cons e es ih =>
    rw [List.foldlM_cons] at h
    cases hadd : add iface methods e with
    | error text' =>
      rw [hadd] at h
      cases h
      obtain ⟨e', he', hname, hne, rfl⟩ := add_error hadd
      exact ⟨e, e', List.mem_cons_self, .inl he', hname, hne, rfl⟩
    | ok methods₁ =>
      rw [hadd] at h
      have hfirst := add_ok hnodup hadd
      obtain ⟨x, x', hx, hx', hname, hne, rfl⟩ := ih hfirst.nodup h
      refine ⟨x, x', List.mem_cons_of_mem e hx, ?_, hname, hne, rfl⟩
      rw [hfirst.mem, List.mem_singleton] at hx'
      rcases hx' with (hold | rfl) | hrest
      · exact .inl hold
      · exact .inr List.mem_cons_self
      · exact .inr (List.mem_cons_of_mem e hrest)

theorem addMethods_ok {own : List Method} (h : own.foldlM (addMethod iface) methods = .ok methods') :
    (∀ method ∈ own, method.fallible = false) ∧
      (own.map entryOf).foldlM (add iface) methods = .ok methods' := by
  induction own generalizing methods with
  | nil => exact ⟨by simp, h⟩
  | cons method own ih =>
    rw [List.foldlM_cons] at h
    unfold addMethod at h
    split at h
    · cases h
    · rename_i hfallible
      rw [List.map_cons, List.foldlM_cons]
      cases hadd : add iface methods (entryOf method) with
      | error text =>
        rw [hadd] at h
        cases h
      | ok methods₁ =>
        rw [hadd] at h
        obtain ⟨hinfallible, hrest⟩ := ih h
        exact ⟨List.forall_mem_cons.mpr ⟨Bool.eq_false_iff.mpr hfallible, hinfallible⟩, hrest⟩

theorem addMethods_eq {own : List Method} (h : ∀ method ∈ own, method.fallible = false) :
    own.foldlM (addMethod iface) methods = (own.map entryOf).foldlM (add iface) methods := by
  induction own generalizing methods with
  | nil => rfl
  | cons method own ih =>
    obtain ⟨hmethod, hown⟩ := List.forall_mem_cons.mp h
    rw [List.foldlM_cons, List.map_cons, List.foldlM_cons]
    have hadd : addMethod iface methods method = add iface methods (entryOf method) :=
      if_neg (Bool.eq_false_iff.mp hmethod)
    rw [hadd]
    exact congrArg (add iface methods (entryOf method) >>= ·) (funext fun methods₁ => ih hown)

theorem addMethods_error {own : List Method} {text : String} (hnodup : (keys methods).Nodup)
    (h : own.foldlM (addMethod iface) methods = .error text) :
    (∃ method ∈ own, method.fallible = true ∧
      text = "iface " ++ iface ++ ": fallible methods are not supported in v1") ∨
    ∃ e e', e ∈ own.map entryOf ∧ (e' ∈ methods ∨ e' ∈ own.map entryOf) ∧ e.1 = e'.1 ∧ e ≠ e' ∧
      text = "iface " ++ iface ++ ": conflicting method " ++ e.1 := by
  by_cases hall : ∀ method ∈ own, method.fallible = false
  · rw [addMethods_eq hall] at h
    exact .inr (addEach_error hnodup h)
  · induction own generalizing methods with
    | nil => exact absurd (by simp) hall
    | cons method own ih =>
      rw [List.foldlM_cons] at h
      cases hadd : addMethod iface methods method with
      | error text' =>
        rw [hadd] at h
        cases h
        unfold addMethod at hadd
        split at hadd
        · rename_i hfallible
          cases hadd
          exact .inl ⟨method, List.mem_cons_self, hfallible, rfl⟩
        · obtain ⟨e', he', hname, hne, rfl⟩ := add_error hadd
          exact .inr ⟨_, e', List.mem_cons_self, .inl he', hname, hne, rfl⟩
      | ok methods₁ =>
        rw [hadd] at h
        unfold addMethod at hadd
        split at hadd
        · cases hadd
        · rename_i hfallible
          have hfirst := add_ok hnodup hadd
          have hrest : ¬ ∀ m ∈ own, m.fallible = false := fun hown =>
            hall (List.forall_mem_cons.mpr ⟨Bool.eq_false_iff.mpr hfallible, hown⟩)
          rcases ih hfirst.nodup h hrest with ⟨m, hm, hf, rfl⟩ | ⟨x, x', hx, hx', hname, hne, rfl⟩
          · exact .inl ⟨m, List.mem_cons_of_mem method hm, hf, rfl⟩
          · refine .inr ⟨x, x', List.mem_cons_of_mem _ hx, ?_, hname, hne, rfl⟩
            rw [hfirst.mem, List.mem_singleton] at hx'
            rcases hx' with (hold | rfl) | hlater
            · exact .inl hold
            · exact .inr List.mem_cons_self
            · exact .inr (List.mem_cons_of_mem _ hlater)

end Additions

section Offered
variable {I : Ifaces} {iface embed : String} {methods : MethodSet} {ds : List String}

theorem edge_iff : Edge (checked I) iface embed ↔ Embeds I iface embed := by
  constructor
  · rintro ⟨cs, hcs, hmem⟩
    obtain ⟨decl, hdecl, rfl⟩ := Option.map_eq_some_iff.mp hcs
    exact ⟨decl, hdecl, hmem⟩
  · rintro ⟨decl, hdecl, hmem⟩
    exact ⟨_, Option.map_eq_some_iff.mpr ⟨decl, hdecl, rfl⟩, hmem⟩

theorem edges : Edge (checked I) = Embeds I :=
  funext fun _ => funext fun _ => propext edge_iff

theorem embedsOf_some (h : I.embedsOf iface = some ds) : iface ∈ keys I.decls := by
  obtain ⟨decl, hdecl, -⟩ := Option.map_eq_some_iff.mp h
  exact lookup_isSome_iff.mp (hdecl ▸ rfl)

theorem embedsOf_of_mem (h : iface ∈ keys I.decls) : ∃ ds, I.embedsOf iface = some ds := by
  obtain ⟨decl, hdecl⟩ := Option.isSome_iff_exists.mp (lookup_isSome_iff.mpr h)
  exact ⟨_, Option.map_eq_some_iff.mpr ⟨decl, hdecl, rfl⟩⟩

theorem embedsOf_none (h : I.embedsOf iface = none) : iface ∉ keys I.decls := by
  intro hmem
  obtain ⟨ds, hds⟩ := embedsOf_of_mem hmem
  rw [h] at hds
  cases hds

theorem Offers.through {e : String × Sig} (h : Offers I embed e)
    (hpath : ReflTransGen (Embeds I) iface embed) : Offers I iface e := by
  obtain ⟨m, hm, hmethod⟩ := h
  exact ⟨m, hpath.trans hm, hmethod⟩

theorem offers_iff {e : String × Sig} (hembeds : I.embedsOf iface = some ds) : Offers I iface e ↔
    (∃ d ∈ ds, Offers I d e) ∨ e ∈ (I.methodsOf iface).map entryOf := by
  constructor
  · rintro ⟨m, hpath, method, hmethod, rfl⟩
    rcases ReflTransGen.cases_head hpath with rfl | ⟨d, hedge, hrest⟩
    · exact .inr (List.mem_map_of_mem hmethod)
    · rw [← edge_iff] at hedge
      obtain ⟨cs, hcs, hd⟩ := hedge
      have hsame : ds = cs := Option.some.inj (hembeds.symm.trans hcs)
      exact .inl ⟨d, hsame ▸ hd, m, hrest, method, hmethod, rfl⟩
  · rintro (⟨d, hd, hoffers⟩ | hown)
    · exact hoffers.through (.single (edge_iff.mp ⟨ds, hembeds, hd⟩))
    · obtain ⟨method, hmethod, rfl⟩ := List.mem_map.mp hown
      exact ⟨iface, .refl, method, hmethod, rfl⟩

/-- What the embedded interfaces offer has been added. -/
structure Gathered (I : Ifaces) (cs : List String) (methods methods' : MethodSet) : Prop where
  nodup : (keys methods').Nodup
  mem : ∀ e, e ∈ methods' ↔ e ∈ methods ∨ ∃ c ∈ cs, Offers I c e

theorem covers_of_finish (hembeds : I.embedsOf iface = some ds) {gathered : MethodSet}
    (hgathered : Gathered I ds [] gathered)
    (hfinish : (checked I).finish iface gathered = .ok methods) :
    Covers I iface methods ∧ ∀ method ∈ I.methodsOf iface, method.fallible = false := by
  obtain ⟨hinfallible, hown⟩ := addMethods_ok hfinish
  have hadds := addEach_ok hgathered.nodup hown
  refine ⟨⟨hadds.nodup, fun e => ?_⟩, hinfallible⟩
  rw [hadds.mem, hgathered.mem, offers_iff hembeds]
  simp

theorem gathered_of_folds {cs : List String} {methods' : MethodSet}
    (h : Folds (checked I) iface cs methods methods') (hnodup : (keys methods).Nodup) :
    Gathered I cs methods methods' := by
  induction h with
  | nil => exact ⟨hnodup, by simp⟩
  | cons hchildren _ hfinish hstep _ ih ihrest =>
    have hcovers := (covers_of_finish hchildren (ih List.nodup_nil) hfinish).1
    have hadds := addEach_ok hnodup hstep
    have hrest := ihrest hadds.nodup
    refine ⟨hrest.nodup, fun e => ?_⟩
    rw [hrest.mem, hadds.mem, hcovers.offers, List.exists_mem_cons_iff, or_assoc]

theorem covers_of_derives (h : Derives (checked I) iface methods) :
    Covers I iface methods ∧ ∀ method ∈ I.methodsOf iface, method.fallible = false := by
  obtain ⟨ds, gathered, hembeds, hfolds, hfinish⟩ := h
  exact covers_of_finish hembeds (gathered_of_folds hfolds List.nodup_nil) hfinish

theorem sound_of_derives (h : Derives (checked I) iface methods) : Sound I iface := by
  have hreaches : ∀ embed, ReflTransGen (Embeds I) iface embed →
      ∃ methods', Derives (checked I) embed methods' := by
    intro embed hpath
    rw [← edges] at hpath
    exact h.reaches hpath
  refine ⟨fun embed hpath => ?_, fun embed hpath => ?_, fun embed hpath => ?_, ?_⟩
  · obtain ⟨_, ds, _, hembeds, -⟩ := hreaches embed hpath
    exact embedsOf_some hembeds
  · obtain ⟨_, hderives⟩ := hreaches embed hpath
    rw [← edges]
    exact hderives.acyclic
  · obtain ⟨_, hderives⟩ := hreaches embed hpath
    exact (covers_of_derives hderives).2
  · intro e e' he he' hname
    have hcovers := (covers_of_derives h).1
    exact eq_of_mem hcovers.nodup ((hcovers.offers e).mpr he) ((hcovers.offers e').mpr he') hname

end Offered

section Reports
variable {I : Ifaces} {iface : String}

theorem Reported.not_sound {text : String} (h : Reported I iface text) : ¬ Sound I iface := by
  intro hsound
  cases h with
  | unknown h => exact h (hsound.declared iface .refl)
  | missing hpath hembeds h => exact h (hsound.declared _ (hpath.tail hembeds))
  | cycle hpath h => exact hsound.acyclic _ hpath h
  | fallible hpath hmethod h =>
    rw [hsound.infallible _ hpath _ hmethod] at h
    cases h
  | conflict hpath he he' hname h =>
    exact h (hsound.coherent _ _ (he.through hpath) (he'.through hpath) hname)

theorem reported_of_fails {embed : String} {ds cs : List String} {methods : MethodSet}
    {text : String} (hpath : ReflTransGen (Embeds I) iface embed)
    (hembeds : I.embedsOf embed = some ds) (hcs : ∀ c ∈ cs, c ∈ ds)
    (hnodup : (keys methods).Nodup) (hmethods : ∀ e ∈ methods, Offers I embed e)
    (h : Fails (checked I) embed cs methods text) : Reported I iface text := by
  have hchild : ∀ c ∈ ds, ∀ b, Derives (checked I) c b → ∀ e ∈ b, Offers I embed e := by
    intro c hc b hb e he
    exact (offers_iff hembeds).mpr (.inl ⟨c, hc, ((covers_of_derives hb).1.offers e).mp he⟩)
  induction h with
  | step hderives hstep =>
    have hb := hchild _ (hcs _ List.mem_cons_self) _ hderives
    obtain ⟨e, e', he, he', hname, hne, rfl⟩ := addEach_error hnodup hstep
    exact .conflict hpath (hb e he) (he'.elim (hmethods e') (hb e')) hname hne
  | finish hfinish =>
    have hown : ∀ e ∈ (I.methodsOf embed).map entryOf, Offers I embed e :=
      fun e he => (offers_iff hembeds).mpr (.inr he)
    rcases addMethods_error hnodup hfinish with
      ⟨method, hmethod, hfallible, rfl⟩ | ⟨e, e', he, he', hname, hne, rfl⟩
    · exact .fallible hpath hmethod hfallible
    · exact .conflict hpath (hown e he) (he'.elim (hmethods e') (hown e')) hname hne
  | later hderives hstep _ ih =>
    obtain ⟨hfirst, hrest⟩ := List.forall_mem_cons.mp hcs
    have hb := hchild _ hfirst _ hderives
    have hadds := addEach_ok hnodup hstep
    refine ih hrest hadds.nodup fun e he => ?_
    exact ((hadds.mem e).mp he).elim (hmethods e) (hb e)

theorem message_missing (stack : List String) (parent embed : String) :
    message (.undeclared (stack ++ [parent]) embed) =
      "iface " ++ parent ++ ": embedded iface " ++ embed ++ " not found" := by
  simp [message]

theorem message_cycle (stack : List String) (embed : String) :
    message (.cycle (stack ++ [embed])) = "iface " ++ embed ++ ": embedded iface cycle" := by
  simp [message]

theorem reported_of_blamed {f : Failure String String} (h : Blamed (checked I) iface f) :
    Reported I iface (message f) := by
  cases h with
  | undeclared hchain hhead hchildren =>
    rename_i stack n
    have hnot := embedsOf_none hchildren
    rcases List.eq_nil_or_concat' stack with rfl | ⟨front, parent, rfl⟩
    · cases hhead
      exact .unknown hnot
    · rw [edges] at hchain
      have hfront := hchain.left_of_append
      have hlast : Embeds I parent n := by
        refine (List.isChain_append.mp hchain).2.2 parent ?_ n rfl
        rw [List.getLast?_concat]
        rfl
      have hroot : (front ++ [parent]).head? = some iface := by
        rw [← hhead]
        cases front <;> rfl
      rw [message_missing]
      exact .missing (FinishOrder.reaches_last hfront hroot) hlast hnot
  | cycle hmem hchain hhead =>
    rename_i stack n
    rw [edges] at hchain
    obtain ⟨hpath, hcycle⟩ := FinishOrder.cycle_of_chain hmem hchain hhead
    rw [message_cycle]
    exact .cycle hpath hcycle
  | failed hpath hchildren hfails =>
    rename_i embed ds text
    rw [edges] at hpath
    have hnothing : ∀ e ∈ ([] : MethodSet), Offers I embed e := by simp
    have hnodup : (keys ([] : MethodSet)).Nodup := List.nodup_nil
    exact reported_of_fails hpath hchildren (fun c hc => hc) hnodup hnothing hfails

end Reports

section Results
variable {I : Ifaces} {iface : String} {kept kept' : Memo String MethodSet} {names : List String}
  {fuel : ℕ}

theorem ifaceMethodSet_ok {methods : MethodSet} (hvalid : Valid (checked I) kept)
    (h : ifaceMethodSet I fuel iface kept = some (.ok (methods, kept'))) :
    Derives (checked I) iface methods ∧ kept'.lookup iface = some methods ∧
      Extends (F := checked I) kept kept' := by
  obtain ⟨r, hr, hok⟩ := Option.map_eq_some_iff.mp h
  cases r with
  | error f => cases hok
  | ok found =>
    cases hok
    exact fold_sound hvalid hr

theorem askAll_extends (hvalid : Valid (checked I) kept)
    (h : askAll I fuel names kept = some (.ok kept')) : Extends (F := checked I) kept kept' ∧
      ∀ iface ∈ names, (kept'.lookup iface).isSome := by
  induction names generalizing kept with
  | nil =>
    cases h
    exact ⟨⟨hvalid, fun _ hm => hm⟩, by simp⟩
  | cons iface names ih =>
    rw [askAll] at h
    split at h
    · cases h
    · cases h
    · rename_i methods kept₁ hfirst
      obtain ⟨-, hlookup, hextends⟩ := ifaceMethodSet_ok hvalid hfirst
      obtain ⟨hlater, hsome⟩ := ih hextends.valid h
      refine ⟨⟨hlater.valid, fun m hm => hlater.keeps m (hextends.keeps m hm)⟩, ?_⟩
      refine List.forall_mem_cons.mpr ⟨hlater.keeps iface ?_, hsome⟩
      rw [hlookup]
      rfl

theorem valid_nil : Valid (checked I) [] := by
  intro n b h
  cases h

/-- Whatever method sets have been asked for before, `iface_method_set` comes to an end. It gives what
the interface and those that it embeds offer, or a report of what is wrong there. -/
theorem method_set_exact (names : List String) (fuel : ℕ)
    (h : askAll I fuel names [] = some (.ok kept)) (iface : String) :
    ∃ r, ifaceMethodSet I (I.decls.length + 1) iface kept = some r ∧
      (∀ methods kept', r = .ok (methods, kept') → Sound I iface ∧ Covers I iface methods) ∧
      ∀ text, r = .error text → ¬ Sound I iface ∧ Reported I iface text := by
  have hvalid := (askAll_extends valid_nil h).1.valid
  have hnodes : ∀ n ds, (checked I).children n = some ds → n ∈ keys I.decls :=
    fun n ds hds => embedsOf_some hds
  have hfuel : (keys I.decls).length < I.decls.length + 1 := by
    rw [length_keys]
    exact Nat.lt_succ_self _
  obtain ⟨r, hr, -⟩ := fold_exact hnodes hfuel hvalid iface
  refine ⟨r.mapError message, ?_, ?_, ?_⟩
  · unfold ifaceMethodSet
    rw [hr]
    rfl
  · intro methods kept' hok
    cases r with
    | error f => cases hok
    | ok found =>
      cases hok
      have hderives := (fold_sound hvalid hr).1
      exact ⟨sound_of_derives hderives, (covers_of_derives hderives).1⟩
  · intro text herror
    cases r with
    | ok found => cases herror
    | error f =>
      cases herror
      have hreported := reported_of_blamed
        (fold_blamed hvalid (List.isChain_singleton iface) rfl hr)
      exact ⟨hreported.not_sound, hreported⟩

theorem resolved_step {methods methods' embedded : MethodSet} (hnodup : (keys methods).Nodup)
    (h : (checked I).step iface methods embedded = .ok methods') :
    (resolved I).step iface methods embedded = .ok methods' :=
  congrArg Except.ok (addEach_ok hnodup h).stored.symm

theorem resolved_finish {methods methods' : MethodSet} (hnodup : (keys methods).Nodup)
    (h : (checked I).finish iface methods = .ok methods') :
    (resolved I).finish iface methods = .ok methods' :=
  congrArg Except.ok (addEach_ok hnodup (addMethods_ok h).2).stored.symm

theorem resolved_of_folds {cs : List String} {methods methods' : MethodSet}
    (h : Folds (checked I) iface cs methods methods') (hnodup : (keys methods).Nodup) :
    Folds (resolved I) iface cs methods methods' := by
  induction h with
  | nil => exact .nil
  | cons hchildren hfolds hfinish hstep _ ih ihrest =>
    have hgathered := gathered_of_folds hfolds List.nodup_nil
    exact .cons hchildren (ih List.nodup_nil) (resolved_finish hgathered.nodup hfinish)
      (resolved_step hnodup hstep) (ihrest (addEach_ok hnodup hstep).nodup)

theorem resolved_of_checked {methods : MethodSet} (h : Derives (checked I) iface methods) :
    Derives (resolved I) iface methods := by
  obtain ⟨ds, gathered, hembeds, hfolds, hfinish⟩ := h
  have hgathered := gathered_of_folds hfolds List.nodup_nil
  exact ⟨ds, gathered, hembeds, resolved_of_folds hfolds List.nodup_nil,
    resolved_finish hgathered.nodup hfinish⟩

theorem register_total (hall : ∀ iface ∈ keys I.decls, ∃ methods, Derives (checked I) iface methods) :
    ∃ table, registerIfaces I (I.decls.length + 1) = some (.ok table) ∧ Valid (resolved I) table ∧
      ∀ iface methods, Derives (checked I) iface methods → table.lookup iface = some methods := by
  have hnodes : ∀ n ds, (resolved I).children n = some ds → n ∈ keys I.decls :=
    fun n ds hds => embedsOf_some hds
  have hfuel : (keys I.decls).length < I.decls.length + 1 := by
    rw [length_keys]
    exact Nat.lt_succ_self _
  have hvalid : Valid (resolved I) [] := by
    intro n b hn
    cases hn
  obtain ⟨table, htable, hextends, hsome⟩ := foldNames_exact hnodes hfuel hvalid fun iface hmem =>
    (hall iface hmem).imp fun _ hchecked => resolved_of_checked hchecked
  refine ⟨table, htable, hextends.valid, fun iface methods hchecked => ?_⟩
  have hmem : iface ∈ keys I.decls := by
    obtain ⟨ds, _, hds, -⟩ := hchecked
    exact embedsOf_some hds
  obtain ⟨found, hfound⟩ := Option.isSome_iff_exists.mp (hsome iface hmem)
  rw [hfound, (hextends.valid iface found hfound).unique (resolved_of_checked hchecked)]

theorem derives_of_asked (hasked : askAll I fuel names [] = some (.ok kept))
    (hall : ∀ iface ∈ keys I.decls, iface ∈ names) :
    ∀ iface ∈ keys I.decls, ∃ methods, Derives (checked I) iface methods := by
  intro iface hmem
  obtain ⟨hextends, hsome⟩ := askAll_extends valid_nil hasked
  obtain ⟨methods, hkept⟩ := Option.isSome_iff_exists.mp (hsome iface (hall iface hmem))
  exact ⟨methods, hextends.valid iface methods hkept⟩

/-- Where the checker has taken every interface, the code generator makes a table of the same method
sets, each in the same order. -/
theorem register_agrees (names : List String) (fuel : ℕ)
    (h : askAll I fuel names [] = some (.ok kept)) (hall : ∀ iface ∈ keys I.decls, iface ∈ names) :
    ∃ table, registerIfaces I (I.decls.length + 1) = some (.ok table) ∧
      ∀ iface, table.lookup iface = kept.lookup iface := by
  obtain ⟨hextends, hasked⟩ := askAll_extends valid_nil h
  obtain ⟨table, htable, hvalid, hlookup⟩ := register_total (derives_of_asked h hall)
  refine ⟨table, htable, fun iface => ?_⟩
  cases hkept : kept.lookup iface with
  | some methods => exact hlookup iface methods (hextends.valid iface methods hkept)
  | none =>
    refine Option.eq_none_iff_forall_not_mem.mpr fun methods hfound => ?_
    obtain ⟨ds, _, hds, -⟩ := hvalid iface methods hfound
    have hsome := hasked iface (hall iface (embedsOf_some hds))
    rw [hkept] at hsome
    cases hsome

/-- A file is a reader that closes twice. -/
def files : Ifaces where
  decls :=
    [("File", ⟨[⟨"read", [("size", .named "i32")], some (.named "str"), false⟩],
        [.named "Reader", .named "Closer"]⟩),
      ("Reader", ⟨[⟨"read", [("count", .named "i32")], some (.named "str"), false⟩,
        ⟨"close", [], none, false⟩], []⟩),
      ("Closer", ⟨[⟨"close", [], some (.named "void"), false⟩], []⟩)]
  once := by decide

def fileMethods : MethodSet := [("read", ["i32"], "str"), ("close", [], "void")]

def fileSets : Memo String MethodSet :=
  [("File", fileMethods), ("Closer", [("close", [], "void")]), ("Reader", fileMethods)]

theorem method_set_of_file : ∃ r, ifaceMethodSet files 4 "File" fileSets = some r ∧
    (∀ methods kept', r = .ok (methods, kept') → Sound files "File" ∧ Covers files "File" methods) ∧
    ∀ text, r = .error text → ¬ Sound files "File" ∧ Reported files "File" text :=
  method_set_exact ["File", "Reader", "Closer"] 4 rfl "File"

theorem files_registered : ∃ table, registerIfaces files 4 = some (.ok table) ∧
    ∀ iface, table.lookup iface = fileSets.lookup iface :=
  register_agrees ["File", "Reader", "Closer"] 4 rfl (by decide)

end Results

end NewClLang.InterfaceSets
