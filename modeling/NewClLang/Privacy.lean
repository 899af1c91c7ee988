import NewClLang.PrintedTypes

set_option autoImplicit false

/-!
# Module privacy

`require_public_qualified` looks at printed names while `infer_types` walks the program that
`monomorphize` leaves. A reference is accepted when every look at what it stands in passes.
-/
namespace NewClLang.Privacy
open RoseTrees TypeRefs ModuleSyntax ModuleNames PrintedTypes

section Checks

def moduleBefore (name : Option String) : Option (List Char) := name.bind moduleOf

/-- `require_public_qualified`: whether it returns. The owner is the declaration that it is called
    for, where it is called for one, and the callable is `current_callable`, where that has a name. -/
def requirePublicQualified (nameS : List Char) (ownerName callableName : Option String) : Bool :=
  match rsplitDot nameS with
  | none => true
  | some (before, after) =>
    if after.head? = some '_' then
      moduleBefore ownerName = some (lstripMarks before) ||
        moduleBefore callableName = some (lstripMarks before)
    else true

/-- What `require_public_qualified` sees of a call of it. -/
structure Look where
  type : TypeRef
  ownerName : Option String
  callableName : Option String

def Look.passes (look : Look) : Bool :=
  requirePublicQualified (formatTypeRef look.type).toList look.ownerName look.callableName

/-- The last qualified name in the type is not private, or it stands behind `*`, `?*` and `[]` alone and
    the owner or the callable has its module. -/
def Look.Open (look : Look) : Prop :=
  ∀ name, lastQualified (names look.type) = some name → (symbolOf name).head? = some '_' →
    leading look.type = some name ∧
      (moduleBefore look.ownerName = moduleOf name ∨ moduleBefore look.callableName = moduleOf name)

/-- No module has the text that stands before the dot of a name inside a type. -/
theorem moduleBefore_isNameChar {owner : Option String} (howner : ∀ name ∈ owner, IsName name)
    {before : List Char} (h : moduleBefore owner = some before) :
    ∀ c ∈ before, isNameChar c = true := by
  cases owner with
  | none => cases h
  | some name =>
    change moduleOf name = some before at h
    have hdot : isQualified name = true := by
      rw [isQualified_iff]
      by_contra hnot
      rw [moduleOf, rsplitDot_none.mpr hnot] at h
      cases h
    obtain ⟨module, hmodule, -, hof, -⟩ := (howner name rfl).qualified hdot
    rw [hof] at h
    cases h
    exact hmodule.chars

theorem symbolOf_head {name : String} (h : IsName name) (hdot : isQualified name = true)
    (tail : List Char) : (symbolOf name ++ tail).head? = (symbolOf name).head? := by
  obtain ⟨-, -, hsymbol, -, -⟩ := h.qualified hdot
  exact List.head?_append_of_ne_nil _ hsymbol.nonempty

theorem Look.passes_iff {look : Look} (hnames : ∀ name ∈ names look.type, IsName name)
    (howner : ∀ name ∈ look.ownerName, IsName name)
    (hcallable : ∀ name ∈ look.callableName, IsName name) : look.passes = true ↔ look.Open := by
  have hreads := reads_format look.type hnames
  unfold Reads at hreads
  cases hlast : lastQualified (names look.type) with
  | none =>
    rw [hlast] at hreads
    rw [Look.passes, requirePublicQualified, rsplitDot_none.mpr hreads]
    refine iff_of_true rfl (fun name hname => ?_)
    rw [hlast] at hname
    cases hname
  | some name =>
    rw [hlast] at hreads
    obtain ⟨before, tail, hsplit⟩ := hreads
    obtain ⟨hmem, hdot⟩ := lastQualified_mem hlast
    have hstands := stands_format look.type hnames hlast hsplit
    have hopen : look.Open ↔ ((symbolOf name).head? = some '_' → leading look.type = some name ∧
        (moduleBefore look.ownerName = moduleOf name ∨
          moduleBefore look.callableName = moduleOf name)) := by
      rw [Look.Open, hlast]
      exact ⟨fun h => h name rfl, fun h other hother => by cases hother; exact h⟩
    rw [Look.passes, requirePublicQualified, hsplit, hopen]
    dsimp only
    rw [symbolOf_head (hnames name hmem) hdot]
    by_cases hprivate : (symbolOf name).head? = some '_'
    · rw [if_pos hprivate, Bool.or_eq_true, decide_eq_true_iff, decide_eq_true_iff]
      rw [Stands] at hstands
      by_cases hleading : leading look.type = some name
      · rw [if_pos hleading] at hstands
        rw [hstands]
        exact ⟨fun h _ => ⟨hleading, h⟩, fun h => (h hprivate).2⟩
      · rw [if_neg hleading] at hstands
        obtain ⟨c, hc, hplain⟩ := hstands
        refine iff_of_false ?_ (fun h => hleading (h hprivate).1)
        rintro (h | h)
        · rw [moduleBefore_isNameChar howner h c hc] at hplain
          cases hplain
        · rw [moduleBefore_isNameChar hcallable h c hc] at hplain
          cases hplain
    · rw [if_neg hprivate]
      exact iff_of_true rfl (fun h => absurd h hprivate)

end Checks

section Walk

/-- A node as `infer_types` receives it, whether it is an instance of a generic declaration, and the
    types that inference gives it: the return type and the parameter types of a function where none are
    written, the type of a map literal, and the type of what is indexed. -/
structure Construct where
  kind : Kind
  isInstance : Bool
  inferred : List TypeRef

/-- A reference to a top-level symbol: the module that declares the symbol and the one in whose source
    the reference is. -/
structure Reference where
  module : String
  symbol : String
  source : String

/-- What stands in the program for a reference. `_rewrite_module_names` qualifies it, except in the entry
    module and, in the module itself, in the types that it does not look at; and `monomorphize` puts
    `__erased_` before the name of a generic function or type arguments behind it. -/
def Spelled (entry : String) (r : Reference) (name : String) : Prop :=
  ∃ marker base suffix : String, (marker = "" ∨ marker = "__erased_") ∧
    (r.module ≠ entry ∧ base = r.module ++ "." ++ r.symbol ∨
      (r.module = entry ∨ r.source = r.module) ∧ base = r.symbol) ∧
    (∀ c ∈ suffix.toList, isNameChar c = true) ∧ name = marker ++ base ++ suffix

def declaredNames : Kind → List String
  | .functionDeclaration head => [head.name]
  | .structDecl head => [head.name]
  | _ => []

/-- A program of several modules after `monomorphize`. The names that its nodes refer to are
    occurrences: what is written at one is `text`, and a reference has it for all copies that are
    made of the place where it stands. The names that nodes declare stand for themselves. -/
structure Program where
  entry : String
  nodes : List (RoseTree Construct)
  text : String → String
  reference : String → Option Reference
  names : ∀ key, IsName (text key)
  spelled : ∀ key r, reference key = some r → Spelled entry r (text key)
  declared : ∀ visit ∈ visitsAll (fun _ _ => ()) () nodes, ∀ name ∈ declaredNames visit.2.kind,
    IsName name

section Looks
variable (text : String → String)

/-- `as_map_type`, whether it returns the arguments. -/
def isMapType : TypeRef → List TypeRef → Bool
  | .named key, [_, _] => text key == "map"
  | _, _ => false

mutual

/-- The names that `validate_sized_type` looks at. The map types that it validates again on the way
    have no others. -/
def sizedNames : TypeRef → List String
  | .named key => if ["void", "raw"].contains (text key) then [] else [key]
  | .pointer inner _ => sizedNames inner
  | .slice elem => sizedNames elem
  | .array _ elem => sizedNames elem
  | .function params ret _ => sizedNamesAll params ++ sizedNames ret
  | .generic base args => if isMapType text base args then sizedNamesAll args else []

def sizedNamesAll : List TypeRef → List String
  | [] => []
  | t :: ts => sizedNames t ++ sizedNamesAll ts

end

/-- The names that `validate_map_type` looks at, which are in the value type. -/
def mapNames : TypeRef → List String
  | .generic base args => if isMapType text base args then sizedNamesAll text args.tail else []
  | _ => []

def nameLooks (ownerName callableName : Option String) (keys : List String) : List Look :=
  keys.map (fun key => ⟨.named key, ownerName, callableName⟩)

/-- `require_public_qualified` and `validate_map_type`. -/
def typeLooks (ownerName callableName : Option String) (t : TypeRef) : List Look :=
  ⟨t, ownerName, callableName⟩ :: nameLooks ownerName callableName (mapNames text t)

/-- The looks at one node, where `callableName` is the name of `current_callable`. -/
def nodeLooks (callableName : Option String) (c : Construct) : List Look :=
  match c.kind with
  | .functionDeclaration head =>
    (head.returnType.toList ++ head.receiverType.toList ++ head.params.filterMap Param.type ++
      c.inferred).flatMap (typeLooks text (some head.name) callableName)
  | .functionExpr params _ =>
    nameLooks none none ((params.filterMap Param.type).flatMap (mapNames text))
  | .structDecl head =>
    (head.fields.map Prod.snd).flatMap (typeLooks text (some head.name) callableName)
  | .variableDeclaration _ annotated => annotated.toList.flatMap (typeLooks text none callableName)
  | .functionCall name _ => [⟨name, none, callableName⟩]
  | .genericFunctionValue name _ => [⟨.named name, none, callableName⟩]
  | .structLiteral name _ => [⟨name, none, callableName⟩]
  | .enumRef enumName _ => [⟨.named enumName, none, callableName⟩]
  | .sizeOfType typeName => nameLooks none callableName (sizedNames text typeName)
  | .mapLiteral mapType =>
    nameLooks none callableName ((mapType.toList ++ c.inferred).flatMap (mapNames text))
  | .indexAccess _ => nameLooks none callableName (c.inferred.flatMap (mapNames text))
  | _ => []

/-- The callables under which the default value of a parameter is walked: none in
    `validate_function_defaults`, and the function itself in the walk of the function. -/
def defaultContexts (head : FunctionHead) (isInstance : Bool) (p : Param) :
    Option (List (Option String)) :=
  if !p.hasDefault then none
  else if !isInstance then some [none, some head.name]
  else if p.type.isNone then some [none]
  else some []

/-- The callables under which each child of a node is walked. -/
def childContexts (callableName : Option String) (c : Construct) (count : ℕ) :
    List (List (Option String)) :=
  match c.kind with
  | .functionDeclaration head =>
    head.params.filterMap (defaultContexts head c.isInstance) ++ [[some head.name]]
  | .functionExpr _ _ => List.replicate count [none]
  | .externBlock => []
  | _ => List.replicate count [callableName]

mutual

def looks (callableName : Option String) : RoseTree Construct → List Look
  | .node c children =>
    nodeLooks text callableName c ++
      childLooks (childContexts callableName c children.length) children

def childLooks : List (List (Option String)) → List (RoseTree Construct) → List Look
  | _, [] => []
  | [], _ :: _ => []
  | contexts :: rest, child :: children =>
    contexts.flatMap (fun callableName => looks callableName child) ++ childLooks rest children

end

end Looks

variable (p : Program)

def Program.written (t : TypeRef) : TypeRef := t.rewrite (fun key => .named (p.text key))

/-- All looks at a program, with the names at which they look as occurrences. -/
def Program.looks : List Look := p.nodes.flatMap (Privacy.looks p.text none)

/-- The look as `require_public_qualified` has it. -/
def Program.shown (look : Look) : Look := { look with type := p.written look.type }

/-- No look at what the occurrence stands in fails. -/
def Program.Accepted (key : String) : Prop :=
  ∀ look ∈ p.looks, key ∈ ModuleSyntax.names look.type → (p.shown look).passes = true

def Reference.Private (r : Reference) : Prop := r.symbol.toList.head? = some '_'

/-- A reference to a private symbol is accepted in source of its module and nowhere else. -/
def Program.Exact : Prop :=
  ∀ key r, p.reference key = some r → r.Private → (p.Accepted key ↔ r.source = r.module)

/-- In source of its module a private symbol stands only where every look at it is open, and in other
    source it stands where some look is not. -/
def Program.Placed : Prop :=
  ∀ key r, p.reference key = some r → r.Private →
    (r.source = r.module → ∀ look ∈ p.looks, key ∈ ModuleSyntax.names look.type →
      (p.shown look).Open) ∧
    (r.source ≠ r.module → ∃ look ∈ p.looks, key ∈ ModuleSyntax.names look.type ∧
      ¬ (p.shown look).Open)

/-- The names that a look has besides the type are declared ones. -/
structure Look.Declared (look : Look) : Prop where
  ownerName : ∀ name ∈ look.ownerName, IsName name
  callableName : ∀ name ∈ look.callableName, IsName name

section Declared
variable {text : String → String} {ownerName callableName : Option String}

theorem nameLooks_declared (howner : ∀ name ∈ ownerName, IsName name)
    (hcallable : ∀ name ∈ callableName, IsName name) (keys : List String) :
    ∀ look ∈ nameLooks ownerName callableName keys, look.Declared := by
  intro look hlook
  obtain ⟨key, -, rfl⟩ := List.mem_map.mp hlook
  exact ⟨howner, hcallable⟩

theorem typeLooks_declared (howner : ∀ name ∈ ownerName, IsName name)
    (hcallable : ∀ name ∈ callableName, IsName name) (ts : List TypeRef) :
    ∀ look ∈ ts.flatMap (typeLooks text ownerName callableName), look.Declared := by
  intro look hlook
  obtain ⟨t, -, ht⟩ := List.mem_flatMap.mp hlook
  rcases List.mem_cons.mp ht with rfl | hmap
  · exact ⟨howner, hcallable⟩
  · exact nameLooks_declared howner hcallable _ look hmap

theorem singleton_declared (hcallable : ∀ name ∈ callableName, IsName name) (t : TypeRef) :
    ∀ look ∈ [(⟨t, none, callableName⟩ : Look)], look.Declared := by
  intro look hlook
  cases List.mem_singleton.mp hlook
  exact ⟨nofun, hcallable⟩

theorem nodeLooks_declared {c : Construct} (hdeclared : ∀ name ∈ declaredNames c.kind, IsName name)
    (hcallable : ∀ name ∈ callableName, IsName name) :
    ∀ look ∈ nodeLooks text callableName c, look.Declared := by
  obtain ⟨kind, isInstance, inferred⟩ := c
  have hnone : ∀ name ∈ (none : Option String), IsName name := nofun
  cases kind with
  | functionDeclaration head =>
    refine typeLooks_declared (fun name hname => ?_) hcallable _
    cases hname
    exact hdeclared _ List.mem_cons_self
  | structDecl head =>
    refine typeLooks_declared (fun name hname => ?_) hcallable _
    cases hname
    exact hdeclared _ List.mem_cons_self
  | functionExpr params returnType => exact nameLooks_declared hnone hnone _
  | variableDeclaration name annotated => exact typeLooks_declared hnone hcallable _
  | functionCall name typeArgs => exact singleton_declared hcallable _
  | genericFunctionValue name typeArgs => exact singleton_declared hcallable _
  | structLiteral name fields => exact singleton_declared hcallable _
  | enumRef enumName variant => exact singleton_declared hcallable _
  | sizeOfType typeName => exact nameLooks_declared hnone hcallable _
  | mapLiteral mapType => exact nameLooks_declared hnone hcallable _
  | indexAccess typeArgsCandidate => exact nameLooks_declared hnone hcallable _
  | _ => exact nofun

theorem defaultContexts_declared {head : FunctionHead} (hhead : IsName head.name)
    {isInstance : Bool} {param : Param} {contexts : List (Option String)}
    (h : defaultContexts head isInstance param = some contexts) :
    ∀ callableName ∈ contexts, ∀ name ∈ callableName, IsName name := by
  intro callableName hmem name hname
  have hcases : callableName = none ∨ callableName = some head.name := by
    unfold defaultContexts at h
    split at h
    · cases h
    · split at h
      · cases h
        simpa using hmem
      · split at h <;> cases h
        · exact Or.inl (List.mem_singleton.mp hmem)
        · cases hmem
  rcases hcases with rfl | rfl
  · cases hname
  · cases hname
    exact hhead

theorem childContexts_declared {c : Construct}
    (hdeclared : ∀ name ∈ declaredNames c.kind, IsName name)
    (hcallable : ∀ name ∈ callableName, IsName name) (count : ℕ) :
    ∀ contexts ∈ childContexts callableName c count, ∀ callableName' ∈ contexts,
      ∀ name ∈ callableName', IsName name := by
  have hreplicate : ∀ context : Option String, (∀ name ∈ context, IsName name) →
      ∀ contexts ∈ List.replicate count [context], ∀ callableName' ∈ contexts,
        ∀ name ∈ callableName', IsName name := by
    intro context hcontext contexts hmem callableName' hmem'
    cases List.eq_of_mem_replicate hmem
    cases List.mem_singleton.mp hmem'
    exact hcontext
  obtain ⟨kind, isInstance, inferred⟩ := c
  cases kind with
  | functionDeclaration head =>
    have hhead := hdeclared head.name List.mem_cons_self
    intro contexts hmem
    rcases List.mem_append.mp hmem with hdefault | hbody
    · obtain ⟨param, -, hparam⟩ := List.mem_filterMap.mp hdefault
      exact defaultContexts_declared hhead hparam
    · cases List.mem_singleton.mp hbody
      intro callableName' hmem' name hname
      cases List.mem_singleton.mp hmem'
      cases hname
      exact hhead
  | functionExpr params returnType => exact hreplicate none nofun
  | externBlock => exact nofun
  | _ => exact hreplicate callableName hcallable

theorem mem_childLooks {contexts : List (List (Option String))} {children : List (RoseTree Construct)}
    {look : Look} (h : look ∈ childLooks text contexts children) :
    ∃ child ∈ children, ∃ callables ∈ contexts, ∃ callableName ∈ callables,
      look ∈ looks text callableName child := by
  induction children generalizing contexts with
  | nil => cases contexts <;> cases h
  | cons child children ih =>
    cases contexts with
    | nil => cases h
    | cons callables contexts =>
      rw [childLooks, List.mem_append, List.mem_flatMap] at h
      rcases h with ⟨callableName, hcallable, hlook⟩ | hrest
      · exact ⟨child, List.mem_cons_self, callables, List.mem_cons_self, callableName, hcallable,
          hlook⟩
      · obtain ⟨child', hchild, callables', hcallables, found⟩ := ih hrest
        exact ⟨child', List.mem_cons_of_mem _ hchild, callables', List.mem_cons_of_mem _ hcallables,
          found⟩

/-- Every look of the walk has names that the tree declares. -/
theorem looks_declared (t : RoseTree Construct) : ∀ callableName : Option String,
    (∀ visit ∈ t.visits (fun _ _ => ()) (), ∀ name ∈ declaredNames visit.2.kind, IsName name) →
    (∀ name ∈ callableName, IsName name) →
    ∀ look ∈ looks text callableName t, look.Declared := by
  induction t using RoseTree.induct with
  | hnode c children ih =>
    intro callableName hdeclared hcallable look hlook
    have hnode := hdeclared ((), c) List.mem_cons_self
    rw [looks, List.mem_append] at hlook
    rcases hlook with hlook | hlook
    · exact nodeLooks_declared hnode hcallable look hlook
    · obtain ⟨child, hchild, callables, hcallables, callableName', hmem, hlook⟩ :=
        mem_childLooks hlook
      refine ih child hchild callableName' (fun visit hvisit => hdeclared visit ?_)
        (childContexts_declared hnode hcallable _ callables hcallables callableName' hmem) look hlook
      rw [RoseTree.visits, visitsAll_eq]
      exact List.mem_cons_of_mem _ (List.mem_flatMap.mpr ⟨child, hchild, hvisit⟩)

end Declared

theorem Program.looks_declared {look : Look} (h : look ∈ p.looks) : look.Declared := by
  obtain ⟨t, ht, hlook⟩ := List.mem_flatMap.mp h
  refine Privacy.looks_declared t none (fun visit hvisit => p.declared visit ?_) nofun look hlook
  rw [visitsAll_eq]
  exact List.mem_flatMap.mpr ⟨t, ht, hvisit⟩

theorem Program.shown_names (look : Look) :
    ∀ name ∈ ModuleSyntax.names (p.shown look).type, IsName name := by
  intro name hname
  change name ∈ ModuleSyntax.names (p.written look.type) at hname
  rw [Program.written, names_rewrite] at hname
  obtain ⟨key, -, rfl⟩ := List.mem_map.mp hname
  exact p.names key

theorem Program.passes_iff {look : Look} (h : look ∈ p.looks) :
    (p.shown look).passes = true ↔ (p.shown look).Open :=
  Look.passes_iff (p.shown_names look) (p.looks_declared h).ownerName
    (p.looks_declared h).callableName

/-- An occurrence is accepted when every look at it is open. -/
theorem Program.accepted_iff (key : String) :
    p.Accepted key ↔ ∀ look ∈ p.looks, key ∈ ModuleSyntax.names look.type → (p.shown look).Open :=
  ⟨fun h look hlook hkey => (p.passes_iff hlook).mp (h look hlook hkey),
    fun h look hlook hkey => (p.passes_iff hlook).mpr (h look hlook hkey)⟩

theorem privacy_exact_iff : p.Exact ↔ p.Placed := by
  refine forall_congr' (fun key => forall_congr' (fun r => forall_congr' (fun _ =>
    forall_congr' (fun _ => ?_))))
  rw [p.accepted_iff]
  constructor
  · intro h
    refine ⟨h.mpr, fun hsource => ?_⟩
    have hnot := mt h.mp hsource
    push Not at hnot
    exact hnot
  · rintro ⟨hown, hforeign⟩
    refine ⟨fun hopen => ?_, hown⟩
    by_contra hsource
    obtain ⟨look, hlook, hkey, hclosed⟩ := hforeign hsource
    exact hclosed (hopen look hlook hkey)

/-- In a method and in a function expression nothing private is open, as they have no dotted name. -/
theorem Look.open_undotted {look : Look} (howner : moduleBefore look.ownerName = none)
    (hcallable : moduleBefore look.callableName = none)
    (hnames : ∀ name ∈ ModuleSyntax.names look.type, IsName name) :
    look.Open ↔ ∀ name, lastQualified (ModuleSyntax.names look.type) = some name →
      (symbolOf name).head? ≠ some '_' := by
  refine forall_congr' (fun name => forall_congr' (fun hlast => ?_))
  obtain ⟨hmem, hdot⟩ := lastQualified_mem hlast
  obtain ⟨module, -, -, hof, -⟩ := (hnames name hmem).qualified hdot
  rw [howner, hcallable, hof, or_self]
  exact ⟨fun h hprivate => absurd (h hprivate).2 nofun, fun h hprivate => absurd hprivate h⟩

section Method

def i32 : TypeRef := .named "i32"

/-- `fun _helper(): i32 { ret 1 }` in the module `m`. -/
def helperFunction : RoseTree Construct :=
  .node ⟨.functionDeclaration ⟨"m._helper", none, none, [], [], some i32⟩, false, []⟩
    [.node ⟨.block true, false, []⟩
      [.node ⟨.ret, false, []⟩ [.node ⟨.other "IntegerLiteral", false, []⟩ []]]]

/-- `struct S { value: i32 }` there. -/
def receiverStruct : RoseTree Construct := .node ⟨.structDecl ⟨"m.S", [], [("value", i32)]⟩, false, []⟩ []

/-- `fun (s *S) get(): i32 { ret _helper() }` there. -/
def getMethod : RoseTree Construct :=
  .node ⟨.functionDeclaration
      ⟨"get", some "s", some (.pointer (.named "receiver") false), [], [], some i32⟩, false, []⟩
    [.node ⟨.block true, false, []⟩
      [.node ⟨.ret, false, []⟩ [.node ⟨.functionCall (.named "call") [], false, []⟩ []]]]

/-- `import m` and `fun main() { }`, and what `m` declares. -/
def methodNodes : List (RoseTree Construct) :=
  [helperFunction, receiverStruct, getMethod, .node ⟨.importDecl "m", false, []⟩ [],
    .node ⟨.functionDeclaration ⟨"main", none, none, [], [], none⟩, false, []⟩
      [.node ⟨.block true, false, []⟩ []]]

def methodText (key : String) : String :=
  if key = "call" then "m._helper" else if key = "receiver" then "m.S" else "i32"

def methodReference (key : String) : Option Reference :=
  if key = "call" then some ⟨"m", "_helper", "m"⟩
  else if key = "receiver" then some ⟨"m", "S", "m"⟩ else none

theorem isName_m (symbol : String) (h : Word symbol.toList) : IsName ("m." ++ symbol) := by
  refine Or.inr ⟨"m".toList, symbol.toList, .of_all (by decide) (by decide), h, ?_⟩
  rw [String.toList_append]
  rfl

def methodProgram : Program where
  entry := "main"
  nodes := methodNodes
  text := methodText
  reference := methodReference
  names := by
    intro key
    unfold methodText
    split
    · exact isName_m "_helper" (.of_all (by decide) (by decide))
    · split
      · exact isName_m "S" (.of_all (by decide) (by decide))
      · exact Or.inl (.of_all (by decide) (by decide))
  spelled := by
    intro key r h
    unfold methodReference at h
    unfold methodText
    split at h
    · cases h
      rw [if_pos ‹_›]
      exact ⟨"", "m._helper", "", Or.inl rfl, Or.inl ⟨by decide, rfl⟩, nofun, rfl⟩
    · split at h
      · cases h
        rw [if_neg ‹_›, if_pos ‹_›]
        exact ⟨"", "m.S", "", Or.inl rfl, Or.inl ⟨by decide, rfl⟩, nofun, rfl⟩
      · cases h
  declared := by
    have hnames : (visitsAll (fun _ _ => ()) () methodNodes).flatMap
        (fun visit => declaredNames visit.2.kind) = ["m._helper", "m.S", "get", "main"] := rfl
    intro visit hvisit name hname
    have hmem := hnames ▸ List.mem_flatMap.mpr ⟨visit, hvisit, hname⟩
    simp only [List.mem_cons, List.not_mem_nil, or_false] at hmem
    rcases hmem with rfl | rfl | rfl | rfl
    · exact isName_m "_helper" (.of_all (by decide) (by decide))
    · exact isName_m "S" (.of_all (by decide) (by decide))
    · exact Or.inl (.of_all (by decide) (by decide))
    · exact Or.inl (.of_all (by decide) (by decide))

/-- The look at the call in the method. -/
def callLook : Look := ⟨.named "call", none, some "get"⟩

theorem own_method_rejected : ¬ methodProgram.Exact := by
  intro h
  have haccepted := (h "call" ⟨"m", "_helper", "m"⟩ rfl rfl).mpr rfl
  have hlook : callLook ∈ methodProgram.looks :=
    .tail _ (.tail _ (.tail _ (.tail _ (.head _))))
  have hpasses := haccepted callLook hlook List.mem_cons_self
  exact absurd hpasses (by decide)

end Method

end Walk

end NewClLang.Privacy
