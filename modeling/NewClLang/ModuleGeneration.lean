import NewClLang.ClosureCollection
import Mathlib.Data.List.Perm.Basic

set_option autoImplicit false

/-!
# Generation by module

`build --keep-objs` calls `generate` on one program once for each module. A closure is collected
only where its node has no number yet, so the first call collects them all and the others none.
-/
namespace NewClLang.ModuleGeneration
open NewClLang.Numbering ClosureCollection

/-- What `closure_symbol` makes the symbol of. -/
structure ClosureSymbol where
  moduleName : String
  closureId : Option ℕ
  signature : String
  deriving DecidableEq

def closureSymbol (numbers : Closure → Option ℕ) (c : Closure) : ClosureSymbol :=
  ⟨c.owner.getD "<memory>", numbers c, c.signature⟩

inductive Failure where
  | topLevelStatements
  | incompatibleAbi (symbol : String)
  | unknownClosure (symbol : ClosureSymbol)

/-- The module that `generate` returns: the functions declared in it, those with a body, its
    closures, and the closure symbols that its bodies use. -/
structure ModuleIR where
  declared : List (String × String)
  functions : List FunctionHead
  closures : List (Closure × ClosureSymbol)
  references : List (Closure × ClosureSymbol)

/-- `declare_function`, on the symbols and types declared so far. -/
def declareFunction (declared : List (String × String)) (f : FunctionDecl) :
    Except Failure (List (String × String)) :=
  match declared.lookup f.head.symbol with
  | some abi => if abi = f.head.abi then .ok declared else .error (.incompatibleAbi f.head.symbol)
  | none => .ok ((f.head.symbol, f.head.abi) :: declared)

/-- Whether a node of this owner is emitted, for every module or for one. -/
def emits : Option String → Option String → Bool
  | none, _ => true
  | some m, owner => owner == some m

section Generate
variable (p : Program) (n : Numbered Closure FunctionExpr) (emitModule : Option String)

def emitClosures : List FunctionExpr :=
  n.listed.filter (fun x => emits emitModule x.closure.owner)

def emitFunctions : List FunctionDecl :=
  p.funcs.filter (fun f => !f.head.isExtern && emits emitModule f.head.owner)

def created : List Closure :=
  (emitClosures n emitModule).flatMap FunctionExpr.created ++
    (emitFunctions p emitModule).flatMap FunctionDecl.created

def symbols : List ClosureSymbol :=
  (emitClosures n emitModule).map (fun x => closureSymbol n.numbers x.closure)

def moduleIR (declared : List (String × String)) : ModuleIR where
  declared := declared
  functions := (emitFunctions p emitModule).map FunctionDecl.head
  closures :=
    (emitClosures n emitModule).map (fun x => (x.closure, closureSymbol n.numbers x.closure))
  references := (created p n emitModule).map (fun c => (c, closureSymbol n.numbers c))

/-- The lookups of closure symbols while the bodies are emitted. -/
def resolve (declared : List (String × String)) : Except Failure ModuleIR :=
  match (created p n emitModule).find?
      (fun c => closureSymbol n.numbers c ∉ symbols n emitModule) with
  | some c => .error (.unknownClosure (closureSymbol n.numbers c))
  | none => .ok (moduleIR p n emitModule declared)

def generated : Except Failure ModuleIR :=
  if p.topStmts.isEmpty then
    match p.funcs.foldlM declareFunction [] with
    | .error failure => .error failure
    | .ok declared => resolve p n emitModule declared
  else .error .topLevelStatements

end Generate

/-- The numbers that a call leaves in the nodes, and what it returns. -/
def generate (numbers : Closure → Option ℕ) (p : Program) (emitModule : Option String) :
    (Closure → Option ℕ) × Except Failure ModuleIR :=
  let n := p.collect numbers
  (n.numbers, generated p n emitModule)

/-- The loop of `build_llvm_module_objects`. -/
def generateModules (numbers : Closure → Option ℕ) (p : Program) :
    List String → Except Failure (List ModuleIR)
  | [] => .ok []
  | m :: ms =>
      let call := generate numbers p (some m)
      match call.2 with
      | .error failure => .error failure
      | .ok object =>
          match generateModules call.1 p ms with
          | .error failure => .error failure
          | .ok objects => .ok (object :: objects)

/-- The objects of the modules together define what the whole program does: each function once, in
    its module and declared in all, and the closures, in every module that uses them. -/
structure Agrees (modules : List String) (whole : ModuleIR) (objects : List ModuleIR) : Prop where
  declared_everywhere : ∀ object ∈ objects, object.declared = whole.declared
  functions_once : (objects.flatMap ModuleIR.functions).Perm whole.functions
  functions_owned :
    List.Forall₂ (fun m object => ∀ f ∈ object.functions, f.owner = some m) modules objects
  closures_defined : ∀ c, c ∈ whole.closures ↔ ∃ object ∈ objects, c ∈ object.closures
  closures_once : ∀ object ∈ objects, object.closures.Nodup
  references_defined : ∀ object ∈ objects, ∀ c ∈ object.references, c ∈ object.closures

section Calls
variable {p : Program} {n : Numbered Closure FunctionExpr} {emitModule : Option String}

/-- Every closure that the emitted bodies come to is declared. -/
def Complete (p : Program) (n : Numbered Closure FunctionExpr) (emitModule : Option String) :
    Prop :=
  ∀ c ∈ created p n emitModule, closureSymbol n.numbers c ∈ symbols n emitModule

theorem resolve_ok_iff {declared : List (String × String)} {object : ModuleIR} :
    resolve p n emitModule declared = .ok object ↔
      Complete p n emitModule ∧ object = moduleIR p n emitModule declared := by
  rw [resolve]
  cases hfind : (created p n emitModule).find?
      (fun c => closureSymbol n.numbers c ∉ symbols n emitModule) with
  | some c =>
    have hmissing := List.find?_some hfind
    have hcreated := List.mem_of_find?_eq_some hfind
    constructor
    · intro h
      cases h
    · rintro ⟨hcomplete, -⟩
      exact absurd (hcomplete c hcreated) (of_decide_eq_true hmissing)
  | none =>
    have hall := List.find?_eq_none.1 hfind
    constructor
    · intro h
      refine ⟨fun c hc => ?_, (Except.ok.inj h).symm⟩
      by_contra hmissing
      exact hall c hc (decide_eq_true hmissing)
    · rintro ⟨-, rfl⟩
      rfl

/-- What does not depend on the module: no statement stands at the top, and the functions are
    declared. -/
def Declares (p : Program) (declared : List (String × String)) : Prop :=
  p.topStmts.isEmpty ∧ p.funcs.foldlM declareFunction [] = .ok declared

theorem generated_ok_iff {object : ModuleIR} :
    generated p n emitModule = .ok object ↔
      ∃ declared, Declares p declared ∧ Complete p n emitModule ∧
        object = moduleIR p n emitModule declared := by
  rw [generated]
  constructor
  · intro h
    split_ifs at h with htop
    cases hfuncs : p.funcs.foldlM declareFunction [] with
    | error failure =>
      rw [hfuncs] at h
      cases h
    | ok declared =>
      rw [hfuncs] at h
      exact ⟨declared, ⟨htop, hfuncs⟩, resolve_ok_iff.1 h⟩
  · rintro ⟨declared, ⟨htop, hfuncs⟩, hresolve⟩
    rw [if_pos htop, hfuncs]
    exact resolve_ok_iff.2 hresolve

theorem generateModules_cons_iff {numbers : Closure → Option ℕ} {m : String} {ms : List String}
    {objects : List ModuleIR} :
    generateModules numbers p (m :: ms) = .ok objects ↔
      ∃ object rest, objects = object :: rest ∧
        generated p (p.collect numbers) (some m) = .ok object ∧
          generateModules (p.collect numbers).numbers p ms = .ok rest := by
  rw [generateModules, generate]
  cases hcall : generated p (p.collect numbers) (some m) with
  | error failure =>
    constructor
    · intro h
      cases h
    · rintro ⟨_, _, -, h, -⟩
      cases h
  | ok object =>
    cases hrest : generateModules (p.collect numbers).numbers p ms with
    | error failure =>
      constructor
      · intro h
        cases h
      · rintro ⟨_, _, -, -, h⟩
        cases h
    | ok rest =>
      constructor
      · intro h
        exact ⟨object, rest, (Except.ok.inj h).symm, rfl, rfl⟩
      · rintro ⟨_, _, rfl, h, hms⟩
        cases h
        cases hms
        rfl

end Calls

section Runs
variable {p : Program} {declared : List (String × String)}

/-- The numbering of the first call. -/
abbrev first (p : Program) : Numbered Closure FunctionExpr := p.collect unnumbered

/-- The numbering of every later call. -/
abbrev later (p : Program) : Numbered Closure FunctionExpr := ⟨(first p).numbers, []⟩

theorem collect_later (p : Program) : p.collect (first p).numbers = later p :=
  numberAll_again unnumbered p.closures

theorem generated_of_declares {n : Numbered Closure FunctionExpr} {emitModule : Option String}
    {object : ModuleIR} (hdeclares : Declares p declared) :
    generated p n emitModule = .ok object ↔
      Complete p n emitModule ∧ object = moduleIR p n emitModule declared := by
  rw [generated_ok_iff]
  constructor
  · rintro ⟨declared', hdeclares', h⟩
    rw [Except.ok.inj (hdeclares'.2.symm.trans hdeclares.2)] at h
    exact h
  · exact fun h => ⟨declared, hdeclares, h⟩

def laterIR (p : Program) (declared : List (String × String)) (m : String) : ModuleIR :=
  moduleIR p (later p) (some m) declared

theorem generateModules_later (hdeclares : Declares p declared) (ms : List String) :
    ∀ objects, generateModules (first p).numbers p ms = .ok objects ↔
      (∀ m ∈ ms, Complete p (later p) (some m)) ∧ objects = ms.map (laterIR p declared) := by
  induction ms with
  | nil =>
    intro objects
    rw [generateModules]
    constructor
    · intro h
      exact ⟨fun m hm => absurd hm List.not_mem_nil, (Except.ok.inj h).symm⟩
    · rintro ⟨-, rfl⟩
      rfl
  | cons m ms ih =>
    intro objects
    rw [generateModules_cons_iff, collect_later]
    constructor
    · rintro ⟨object, rest, rfl, hobject, hrest⟩
      obtain ⟨hm, rfl⟩ := (generated_of_declares hdeclares).1 hobject
      obtain ⟨hms, rfl⟩ := (ih rest).1 hrest
      exact ⟨List.forall_mem_cons.2 ⟨hm, hms⟩, rfl⟩
    · rintro ⟨hall, rfl⟩
      obtain ⟨hm, hms⟩ := List.forall_mem_cons.1 hall
      exact ⟨_, _, rfl, (generated_of_declares hdeclares).2 ⟨hm, rfl⟩, (ih _).2 ⟨hms, rfl⟩⟩

/-- The calls for all modules come to a closure only where it is declared. -/
def AllComplete (p : Program) : List String → Prop
  | [] => True
  | m :: ms => Complete p (first p) (some m) ∧ ∀ m' ∈ ms, Complete p (later p) (some m')

def moduleObjects (p : Program) (declared : List (String × String)) : List String → List ModuleIR
  | [] => []
  | m :: ms => moduleIR p (first p) (some m) declared :: ms.map (laterIR p declared)

theorem generateModules_ok_iff (hdeclares : Declares p declared) {modules : List String}
    {objects : List ModuleIR} :
    generateModules unnumbered p modules = .ok objects ↔
      AllComplete p modules ∧ objects = moduleObjects p declared modules := by
  cases modules with
  | nil =>
    rw [generateModules]
    constructor
    · intro h
      exact ⟨trivial, (Except.ok.inj h).symm⟩
    · rintro ⟨-, rfl⟩
      rfl
  | cons m ms =>
    rw [generateModules_cons_iff]
    constructor
    · rintro ⟨object, rest, rfl, hobject, hrest⟩
      obtain ⟨hm, rfl⟩ := (generated_of_declares hdeclares).1 hobject
      obtain ⟨hms, rfl⟩ := (generateModules_later hdeclares ms rest).1 hrest
      exact ⟨⟨hm, hms⟩, rfl⟩
    · rintro ⟨⟨hm, hms⟩, rfl⟩
      exact ⟨_, _, rfl, (generated_of_declares hdeclares).2 ⟨hm, rfl⟩,
        (generateModules_later hdeclares ms _).2 ⟨hms, rfl⟩⟩

end Runs

section Owners
variable {p : Program}

/-- The functions that the whole program defines. -/
def defined (p : Program) : List FunctionDecl := p.funcs.filter (fun f => !f.head.isExtern)

theorem mem_emitFunctions {f : FunctionDecl} {m : String} :
    f ∈ emitFunctions p (some m) ↔ f ∈ defined p ∧ f.head.owner = some m := by
  rw [emitFunctions, defined, List.mem_filter, List.mem_filter, Bool.and_eq_true, emits, beq_iff_eq]
  exact and_assoc.symm

theorem emitFunctions_some (m : String) :
    emitFunctions p (some m) = (defined p).filter (fun f => f.head.owner == some m) := by
  rw [emitFunctions, defined, List.filter_filter]
  congr 1
  funext f
  rw [Bool.and_comm, emits]

theorem emitFunctions_none : emitFunctions p none = defined p := by
  rw [emitFunctions, defined]
  congr 1
  funext f
  rw [emits, Bool.and_true]

theorem emitClosures_none (n : Numbered Closure FunctionExpr) : emitClosures n none = n.listed := by
  rw [emitClosures]
  exact List.filter_eq_self.2 (fun _ _ => rfl)

theorem mem_emitClosures {n : Numbered Closure FunctionExpr} {x : FunctionExpr} {m : String} :
    x ∈ emitClosures n (some m) ↔ x ∈ n.listed ∧ x.closure.owner = some m := by
  rw [emitClosures, List.mem_filter, emits, beq_iff_eq]

theorem positions_first (p : Program) : Positions FunctionExpr.closure (first p) :=
  positions_numberAll p.closures

/-- A symbol that is declared is that of one listed closure. -/
theorem eq_of_closureSymbol {c : Closure} {x : FunctionExpr} (hx : x ∈ (first p).listed)
    (h : closureSymbol (first p).numbers x.closure = closureSymbol (first p).numbers c) :
    x.closure = c := by
  obtain ⟨i, hi⟩ := (positions_first p).numbered hx
  have hnumber := congrArg ClosureSymbol.closureId h
  exact (positions_first p).inj hi (hnumber.symm.trans hi)

theorem mem_symbols_first {c : Closure} {emitModule : Option String} :
    closureSymbol (first p).numbers c ∈ symbols (first p) emitModule ↔
      ∃ x ∈ emitClosures (first p) emitModule, x.closure = c := by
  rw [symbols, List.mem_map]
  constructor
  · rintro ⟨x, hx, hsymbol⟩
    exact ⟨x, hx, eq_of_closureSymbol (List.mem_of_mem_filter hx) hsymbol⟩
  · rintro ⟨x, hx, rfl⟩
    exact ⟨x, hx, rfl⟩

/-- In a later call nothing is declared, so no function of the module may come to a closure. -/
theorem complete_later {m : String} :
    Complete p (later p) (some m) ↔
      ∀ f ∈ defined p, f.head.owner = some m → f.created = [] := by
  have hcreated : created p (later p) (some m) =
      (emitFunctions p (some m)).flatMap FunctionDecl.created := rfl
  constructor
  · intro h f hf howner
    rw [List.eq_nil_iff_forall_not_mem]
    intro c hc
    have hmem : c ∈ created p (later p) (some m) := by
      rw [hcreated]
      exact List.mem_flatMap.2 ⟨f, mem_emitFunctions.2 ⟨hf, howner⟩, hc⟩
    exact absurd (h c hmem) List.not_mem_nil
  · intro h c hc
    rw [hcreated] at hc
    obtain ⟨f, hf, hcf⟩ := List.mem_flatMap.1 hc
    obtain ⟨hdefined, howner⟩ := mem_emitFunctions.1 hf
    rw [h f hdefined howner] at hcf
    exact absurd hcf List.not_mem_nil

end Owners

section Agreement
variable {p : Program} {declared : List (String × String)} {modules : List String}

/-- The lists of the nodes of each owner make up the list of all. -/
theorem flatMap_owner_perm {α : Type} (owner : α → Option String) {ms : List String}
    (hms : ms.Nodup) :
    ∀ xs : List α, (∀ x ∈ xs, ∃ m ∈ ms, owner x = some m) →
      (ms.flatMap (fun m => xs.filter (fun x => owner x == some m))).Perm xs := by
  induction ms with
  | nil =>
    intro xs h
    cases xs with
    | nil => rfl
    | cons x xs =>
      obtain ⟨m, hm, -⟩ := h x List.mem_cons_self
      exact absurd hm List.not_mem_nil
  | cons m ms ih =>
    intro xs h
    obtain ⟨hm, hms⟩ := List.nodup_cons.1 hms
    rw [List.flatMap_cons]
    have hothers : ms.flatMap (fun m' => xs.filter (fun x => owner x == some m')) =
        ms.flatMap (fun m' =>
          (xs.filter (fun x => !(owner x == some m))).filter (fun x => owner x == some m')) := by
      apply List.flatMap_congr
      intro m' hm'
      rw [List.filter_filter]
      apply List.filter_congr
      intro x _
      have hne : m' ≠ m := fun heq => hm (heq ▸ hm')
      by_cases howner : owner x = some m'
      · rw [howner]
        simp [hne]
      · simp [howner]
    rw [hothers]
    refine (List.Perm.append_left _ (ih hms _ ?_)).trans (List.filter_append_perm _ xs)
    intro x hx
    obtain ⟨hmem, hnot⟩ := List.mem_filter.1 hx
    obtain ⟨m', hm', howner⟩ := h x hmem
    rcases List.mem_cons.1 hm' with rfl | hm'
    · rw [howner] at hnot
      simp at hnot
    · exact ⟨m', hm', howner⟩

theorem functions_moduleObjects (p : Program) (declared : List (String × String))
    (modules : List String) :
    (moduleObjects p declared modules).flatMap ModuleIR.functions =
      (modules.flatMap (fun m => emitFunctions p (some m))).map FunctionDecl.head := by
  rw [List.map_flatMap]
  cases modules with
  | nil => rfl
  | cons m ms =>
    rw [moduleObjects, List.flatMap_cons, List.flatMap_cons, List.flatMap_map]
    rfl

theorem owned_moduleObjects (p : Program) (declared : List (String × String))
    (modules : List String) :
    List.Forall₂ (fun m object => ∀ f ∈ object.functions, f.owner = some m) modules
      (moduleObjects p declared modules) := by
  have hone : ∀ n m, ∀ f ∈ (moduleIR p n (some m) declared).functions, f.owner = some m := by
    intro n m f hf
    obtain ⟨d, hd, rfl⟩ := List.mem_map.1 hf
    exact (mem_emitFunctions.1 hd).2
  cases modules with
  | nil => exact List.Forall₂.nil
  | cons m ms =>
    refine List.Forall₂.cons (hone _ m) ?_
    rw [List.forall₂_map_right_iff, List.forall₂_same]
    exact fun m' _ => hone _ m'

/-- The closures of the modules are those that the first call emits. -/
theorem mem_closures_moduleObjects {c : Closure × ClosureSymbol} :
    (∃ object ∈ moduleObjects p declared modules, c ∈ object.closures) ↔
      ∃ m, modules.head? = some m ∧ c ∈ (moduleIR p (first p) (some m) declared).closures := by
  cases modules with
  | nil =>
    constructor
    · rintro ⟨_, h, -⟩
      exact absurd h List.not_mem_nil
    · rintro ⟨_, h, -⟩
      cases h
  | cons m ms =>
    constructor
    · rintro ⟨object, hobject, hc⟩
      rcases List.mem_cons.1 hobject with rfl | hlater
      · exact ⟨m, rfl, hc⟩
      · obtain ⟨m', -, rfl⟩ := List.mem_map.1 hlater
        exact absurd hc List.not_mem_nil
    · rintro ⟨_, hm, hc⟩
      cases hm
      exact ⟨_, List.mem_cons_self, hc⟩

theorem closures_nodup (n : Numbered Closure FunctionExpr) (hn : Positions FunctionExpr.closure n)
    (emitModule : Option String) : (moduleIR p n emitModule declared).closures.Nodup := by
  apply List.Nodup.of_map Prod.fst
  have hfst : (moduleIR p n emitModule declared).closures.map Prod.fst =
      (emitClosures n emitModule).map FunctionExpr.closure := by
    rw [moduleIR, List.map_map]
    rfl
  rw [hfst]
  exact hn.nodup.sublist (List.filter_sublist.map _)

/-- What every sequence of calls gives. -/
theorem forall_moduleObjects {P : ModuleIR → Prop}
    (hfirst : ∀ m, modules.head? = some m → P (moduleIR p (first p) (some m) declared))
    (hlater : ∀ m ∈ modules.tail, P (laterIR p declared m)) :
    ∀ object ∈ moduleObjects p declared modules, P object := by
  cases modules with
  | nil => exact fun _ h => absurd h List.not_mem_nil
  | cons m ms =>
    rw [moduleObjects, List.forall_mem_cons]
    refine ⟨hfirst m rfl, fun object hobject => ?_⟩
    obtain ⟨m', hm', rfl⟩ := List.mem_map.1 hobject
    exact hlater m' hm'

/-- A module without a missing closure defines those it uses. -/
theorem references_closures {emitModule : Option String}
    (h : Complete p (first p) emitModule) :
    ∀ c ∈ (moduleIR p (first p) emitModule declared).references,
      c ∈ (moduleIR p (first p) emitModule declared).closures := by
  intro c hc
  obtain ⟨d, hd, rfl⟩ := List.mem_map.1 hc
  obtain ⟨x, hx, rfl⟩ := mem_symbols_first.1 (h d hd)
  exact List.mem_map.2 ⟨x, hx, rfl⟩

theorem references_later {m : String} (h : Complete p (later p) (some m)) :
    (laterIR p declared m).references = [] := by
  rw [laterIR, moduleIR, List.map_eq_nil_iff, List.eq_nil_iff_forall_not_mem]
  exact fun c hc => absurd (h c hc) List.not_mem_nil

theorem created_whole {c : Closure} {m : String} (hc : c ∈ created p (first p) (some m)) :
    c ∈ created p (first p) none := by
  rw [created, List.mem_append] at hc ⊢
  rw [emitClosures_none, emitFunctions_none]
  rcases hc with hc | hc
  · obtain ⟨x, hx, hcx⟩ := List.mem_flatMap.1 hc
    exact Or.inl (List.mem_flatMap.2 ⟨x, (mem_emitClosures.1 hx).1, hcx⟩)
  · obtain ⟨f, hf, hcf⟩ := List.mem_flatMap.1 hc
    exact Or.inr (List.mem_flatMap.2 ⟨f, (mem_emitFunctions.1 hf).1, hcf⟩)

/-- The functions have an owner among the modules, the first module owns the closures, and it owns
    the functions that come to one. -/
structure OwnedByFirst (p : Program) (modules : List String) : Prop where
  functions_owned : ∀ f ∈ defined p, ∃ m ∈ p.modules, f.head.owner = some m
  closures_owned : ∀ x ∈ p.closures, ∃ m, modules.head? = some m ∧ x.closure.owner = some m
  creators_owned : ∀ f ∈ defined p, f.created ≠ [] → f.head.owner = modules.head?

theorem allComplete_of_owned (hwhole : Complete p (first p) none) (hnodup : modules.Nodup)
    (h : OwnedByFirst p modules) : AllComplete p modules := by
  cases modules with
  | nil => trivial
  | cons m ms =>
    constructor
    · intro c hc
      obtain ⟨x, hx, rfl⟩ := mem_symbols_first.1 (hwhole c (created_whole hc))
      rw [emitClosures_none] at hx
      obtain ⟨m', hm', howner⟩ := h.closures_owned x (mem_of_listed hx)
      cases hm'
      exact mem_symbols_first.2 ⟨x, mem_emitClosures.2 ⟨hx, howner⟩, rfl⟩
    · intro m' hm'
      rw [complete_later]
      intro f hf howner
      by_contra hcreated
      have hfirst := h.creators_owned f hf hcreated
      rw [howner] at hfirst
      cases hfirst
      exact (List.nodup_cons.1 hnodup).1 hm'

theorem creators_of_allComplete (hmodules : modules.Perm p.modules)
    (hfunctions : ∀ f ∈ defined p, ∃ m ∈ p.modules, f.head.owner = some m)
    (h : AllComplete p modules) :
    ∀ f ∈ defined p, f.created ≠ [] → f.head.owner = modules.head? := by
  intro f hf hcreated
  obtain ⟨m', hm', howner⟩ := hfunctions f hf
  have hmem := hmodules.mem_iff.2 hm'
  cases modules with
  | nil => exact absurd hmem List.not_mem_nil
  | cons m ms =>
    rcases List.mem_cons.1 hmem with rfl | hlater
    · exact howner
    · exact absurd (complete_later.1 (h.2 m' hlater) f hf howner) hcreated

theorem functions_once_iff (hmodules : modules.Perm p.modules) :
    ((moduleObjects p declared modules).flatMap ModuleIR.functions).Perm
        (moduleIR p (first p) none declared).functions ↔
      ∀ f ∈ defined p, ∃ m ∈ p.modules, f.head.owner = some m := by
  rw [functions_moduleObjects, moduleIR, emitFunctions_none]
  constructor
  · intro h f hf
    have hhead := h.mem_iff.2 (List.mem_map_of_mem hf)
    obtain ⟨g, hg, hsame⟩ := List.mem_map.1 hhead
    obtain ⟨m, hm, hgm⟩ := List.mem_flatMap.1 hg
    refine ⟨m, hmodules.mem_iff.1 hm, ?_⟩
    rw [← hsame]
    exact (mem_emitFunctions.1 hgm).2
  · intro h
    apply List.Perm.map
    have hnodup := hmodules.nodup_iff.2 p.modules_nodup
    have hsplit := flatMap_owner_perm (fun f : FunctionDecl => f.head.owner) hnodup (defined p) ?_
    · simp only [emitFunctions_some]
      exact hsplit
    · intro f hf
      obtain ⟨m, hm, howner⟩ := h f hf
      exact ⟨m, hmodules.mem_iff.2 hm, howner⟩

theorem closures_defined_iff :
    (∀ c, c ∈ (moduleIR p (first p) none declared).closures ↔
        ∃ object ∈ moduleObjects p declared modules, c ∈ object.closures) ↔
      ∀ x ∈ p.closures, ∃ m, modules.head? = some m ∧ x.closure.owner = some m := by
  constructor
  · intro h x hx
    obtain ⟨i, hi⟩ := Option.isSome_iff_exists.1
      (numbered_of_mem FunctionExpr.closure unnumbered hx)
    obtain ⟨y, hy, hkey⟩ := (positions_first p).listed hi
    have hwhole : (y.closure, closureSymbol (first p).numbers y.closure) ∈
        (moduleIR p (first p) none declared).closures := by
      apply List.mem_map_of_mem
      rw [emitClosures_none]
      exact hy
    obtain ⟨m, hm, hc⟩ := mem_closures_moduleObjects.1 ((h _).1 hwhole)
    obtain ⟨z, hz, hpair⟩ := List.mem_map.1 hc
    have hsame : z.closure = y.closure := congrArg Prod.fst hpair
    refine ⟨m, hm, ?_⟩
    rw [← hkey, ← hsame]
    exact (mem_emitClosures.1 hz).2
  · intro h c
    rw [mem_closures_moduleObjects]
    constructor
    · intro hc
      obtain ⟨x, hx, rfl⟩ := List.mem_map.1 hc
      rw [emitClosures_none] at hx
      obtain ⟨m, hm, howner⟩ := h x (mem_of_listed hx)
      exact ⟨m, hm, List.mem_map.2 ⟨x, mem_emitClosures.2 ⟨hx, howner⟩, rfl⟩⟩
    · rintro ⟨m, -, hc⟩
      obtain ⟨x, hx, rfl⟩ := List.mem_map.1 hc
      apply List.mem_map_of_mem
      rw [emitClosures_none]
      exact (mem_emitClosures.1 hx).1

/-- For a program that can be generated whole, the calls for its modules in some order agree with
    that exactly when every function has an owner and all closures belong to the first module. -/
theorem module_generation_agrees_iff (p : Program) (modules : List String)
    (hmodules : modules.Perm p.modules) (whole : ModuleIR)
    (hwhole : (generate unnumbered p none).2 = .ok whole) :
    (∃ objects, generateModules unnumbered p modules = .ok objects ∧
        Agrees modules whole objects) ↔
      OwnedByFirst p modules := by
  obtain ⟨declared, hdeclares, hcomplete, rfl⟩ := generated_ok_iff.1 hwhole
  constructor
  · rintro ⟨objects, hobjects, hagrees⟩
    obtain ⟨hall, rfl⟩ := (generateModules_ok_iff hdeclares).1 hobjects
    have hfunctions := (functions_once_iff hmodules).1 hagrees.functions_once
    exact ⟨hfunctions, closures_defined_iff.1 hagrees.closures_defined,
      creators_of_allComplete hmodules hfunctions hall⟩
  · intro h
    have hnodup := hmodules.nodup_iff.2 p.modules_nodup
    have hall := allComplete_of_owned hcomplete hnodup h
    refine ⟨_, (generateModules_ok_iff hdeclares).2 ⟨hall, rfl⟩, ?_⟩
    constructor
    case declared_everywhere => exact forall_moduleObjects (fun _ _ => rfl) (fun _ _ => rfl)
    case functions_once => exact (functions_once_iff hmodules).2 h.functions_owned
    case functions_owned => exact owned_moduleObjects p declared modules
    case closures_defined => exact closures_defined_iff.2 h.closures_owned
    case closures_once =>
      exact forall_moduleObjects (fun m _ => closures_nodup _ (positions_first p) (some m))
        (fun _ _ => List.nodup_nil)
    case references_defined =>
      cases modules with
      | nil => exact fun _ hobject => absurd hobject List.not_mem_nil
      | cons m ms =>
        apply forall_moduleObjects
        · intro m' hm'
          cases hm'
          exact references_closures hall.1
        · intro m' hm' c hc
          rw [references_later (hall.2 m' hm')] at hc
          exact absurd hc List.not_mem_nil

end Agreement

section Programs

/-- A function that returns `fun(x: i32): i32 { x }`. -/
def adder (owner : String) : Stmt :=
  .function ⟨"adder", some owner, false, "__nc_F_adder", "fun(): fun(i32): i32", true, false⟩
    [.expression (.functionExpr ⟨0, some owner, "i32 [x i32]", true⟩
      [.expression (.operation [])])]

def emptyMain : Stmt :=
  .function ⟨"main", some "main", false, "main", "fun(): i32", false, false⟩ []

/-- The entry module and a module `util`, one of which has a function with a closure. -/
def closureIn (owner : String) : Program where
  statements := [emptyMain, adder owner]
  modules := ["main", "util"]
  modules_nodup := by decide

theorem closure_in_first_module :
    ∃ whole, (generate unnumbered (closureIn "main") none).2 = .ok whole ∧
      ((∃ objects, generateModules unnumbered (closureIn "main") ["main", "util"] = .ok objects ∧
          Agrees ["main", "util"] whole objects) ↔
        OwnedByFirst (closureIn "main") ["main", "util"]) :=
  ⟨_, rfl, module_generation_agrees_iff _ _ (List.Perm.refl _) _ rfl⟩

/-- The call for `util` finds no closure declared: the call for `main` has numbered it. -/
theorem closure_in_second_module :
    ["main", "util"].Perm (closureIn "util").modules ∧
      (∃ whole, (generate unnumbered (closureIn "util") none).2 = .ok whole) ∧
        ∀ objects, generateModules unnumbered (closureIn "util") ["main", "util"] ≠ .ok objects := by
  refine ⟨List.Perm.refl _, ⟨_, rfl⟩, fun objects h => ?_⟩
  have hfails : generateModules unnumbered (closureIn "util") ["main", "util"] =
      .error (.unknownClosure ⟨"util", some 0, "i32 [x i32]"⟩) := rfl
  rw [hfails] at h
  cases h

end Programs

end NewClLang.ModuleGeneration
