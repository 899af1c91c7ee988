import NewClLang.ModuleNames
import NewClLang.Monomorphization
import NewClLang.TypeAliases

set_option autoImplicit false

/-!
# Type parameters under the passes

The second pass of `_expand_type_aliases_in_module`, `_rewrite_module_names` and `_substitute_node`
rewrite the names in types by their spelling. Each is compared with the rewriting that leaves alone
what is bound as a type parameter.
-/
namespace NewClLang.TypeSubstitution
open ExceptOutcomes ModuleNames ModuleSyntax Monomorphization RoseTrees StackSearch TypeAliases TypeRefs
open AssociationLists (keys lookup_isSome_iff)

/-- What is bound stands for itself. -/
def unbound (scope : List String) (g : String → TypeRef) (name : String) : TypeRef :=
  if name ∈ scope then .named name else g name

section Expanding
variable (expand : TypeRef → Except Raised TypeRef)

def expandOptional : Option TypeRef → Except Raised (Option TypeRef)
  | none => .ok none
  | some t => do
    let t ← expand t
    .ok (some t)

def expandParam (p : Param) : Except Raised Param := do
  let type ← expandOptional expand p.type
  .ok { p with type }

def expandField (f : String × TypeRef) : Except Raised (String × TypeRef) := do
  let type ← expand f.2
  .ok (f.1, type)

def expandMethod (method : Method) : Except Raised Method := do
  let params ← method.params.mapM (expandField expand)
  let returnType ← expandOptional expand method.returnType
  .ok { method with params, returnType }

/-- What `walk` of `_expand_type_aliases_in_module` does to one node. -/
def expandKind : Kind → Except Raised Kind
  | .functionDeclaration head => do
    let params ← head.params.mapM (expandParam expand)
    let returnType ← expandOptional expand head.returnType
    let receiverType ← expandOptional expand head.receiverType
    .ok (.functionDeclaration { head with params, returnType, receiverType })
  | .structDecl head => do
    let fields ← head.fields.mapM (expandField expand)
    .ok (.structDecl { head with fields })
  | .ifaceDecl name methods embeds => do
    let methods ← methods.mapM (expandMethod expand)
    let embeds ← embeds.mapM expand
    .ok (.ifaceDecl name methods embeds)
  | .functionExpr params returnType => do
    let params ← params.mapM (expandParam expand)
    let returnType ← expandOptional expand returnType
    .ok (.functionExpr params returnType)
  | .structLiteral name fields => do
    let name ← expand name
    .ok (.structLiteral name fields)
  | .mapLiteral mapType => do
    let mapType ← expandOptional expand mapType
    .ok (.mapLiteral mapType)
  | .functionCall name typeArgs => do
    let typeArgs ← typeArgs.mapM expand
    .ok (.functionCall name typeArgs)
  | .genericFunctionValue name typeArgs => do
    let typeArgs ← typeArgs.mapM expand
    .ok (.genericFunctionValue name typeArgs)
  | .indexAccess (some typeArgs) => do
    let typeArgs ← typeArgs.mapM expand
    .ok (.indexAccess (some typeArgs))
  | .sizeOfType typeName => do
    let typeName ← expand typeName
    .ok (.sizeOfType typeName)
  | .variableDeclaration name annotated => do
    let annotated ← expandOptional expand annotated
    .ok (.variableDeclaration name annotated)
  | .arrayLiteral length elemType => do
    let elemType ← expand elemType
    .ok (.arrayLiteral length elemType)
  | .sliceLiteral elemType => do
    let elemType ← expandOptional expand elemType
    .ok (.sliceLiteral elemType)
  | kind => .ok kind

mutual

def expandNode : Node → Except Raised Node
  | .node kind children => do
    let kind ← expandKind expand kind
    let children ← expandNodes children
    .ok (.node kind children)

def expandNodes : List Node → Except Raised (List Node)
  | [] => .ok []
  | child :: children => do
    let child ← expandNode child
    let children ← expandNodes children
    .ok (child :: children)

end

/-- `_expand_type_aliases_in_module`, which leaves the statements of each file. -/
def expandTypeAliasesInModule (files : List (List Statement)) : Except Raised (List (List Node)) := do
  let (aliases, remaining) ← collectAliases files
  if aliases.isEmpty then .ok remaining
  else remaining.mapM (expandNodes (expandTypeStr aliases (aliases.length + 1) []))

variable {expand} {g : String → TypeRef} (h : ∀ t, expand t = .ok (t.rewrite g))
include h

theorem expandOptional_rewrites (t : Option TypeRef) :
    expandOptional expand t = .ok (t.map (TypeRef.rewrite g)) := by
  cases t with
  | none => rfl
  | some t => exact bind_ok (h t)

theorem expandParam_rewrites (p : Param) : expandParam expand p = .ok (p.rewrite g) :=
  bind_ok (expandOptional_rewrites h p.type)

theorem expandField_rewrites (f : String × TypeRef) :
    expandField expand f = .ok (f.1, f.2.rewrite g) :=
  bind_ok (h f.2)

theorem expandMethod_rewrites (method : Method) :
    expandMethod expand method = .ok (method.rewrite g) :=
  (bind_ok (mapM_ok (fun f _ => expandField_rewrites h f))).trans
    (bind_ok (expandOptional_rewrites h method.returnType))

theorem expandKind_rewrites (kind : Kind) : expandKind expand kind = .ok (kind.rewrite g) := by
  have hargs (ts : List TypeRef) : ts.mapM expand = .ok (ts.map (TypeRef.rewrite g)) :=
    mapM_ok (fun t _ => h t)
  have hparams (params : List Param) :
      params.mapM (expandParam expand) = .ok (params.map (Param.rewrite g)) :=
    mapM_ok (fun p _ => expandParam_rewrites h p)
  have hoptional := expandOptional_rewrites h
  cases kind with
  | functionDeclaration head =>
    exact (bind_ok (hparams head.params)).trans ((bind_ok (hoptional head.returnType)).trans
      (bind_ok (hoptional head.receiverType)))
  | functionExpr params returnType =>
    exact (bind_ok (hparams params)).trans (bind_ok (hoptional returnType))
  | structDecl head => exact bind_ok (mapM_ok (fun f _ => expandField_rewrites h f))
  | ifaceDecl name methods embeds =>
    exact (bind_ok (mapM_ok (fun method _ => expandMethod_rewrites h method))).trans
      (bind_ok (hargs embeds))
  | variableDeclaration name annotated => exact bind_ok (hoptional annotated)
  | mapLiteral mapType => exact bind_ok (hoptional mapType)
  | sliceLiteral elemType => exact bind_ok (hoptional elemType)
  | functionCall name typeArgs => exact bind_ok (hargs typeArgs)
  | genericFunctionValue name typeArgs => exact bind_ok (hargs typeArgs)
  | indexAccess candidate =>
    cases candidate with
    | none => rfl
    | some typeArgs => exact bind_ok (hargs typeArgs)
  | sizeOfType typeName => exact bind_ok (h typeName)
  | structLiteral name fields => exact bind_ok (h name)
  | arrayLiteral length elemType => exact bind_ok (h elemType)
  | _ => rfl

omit h in
theorem expandNodes_children {ts : List Node}
    (hts : ∀ t ∈ ts, expandNode expand t = .ok (t.map (Kind.rewrite g))) :
    expandNodes expand ts = .ok (mapAll (Kind.rewrite g) ts) := by
  induction ts with
  | nil => rfl
  | cons t ts ih =>
    obtain ⟨ht, hts⟩ := List.forall_mem_cons.mp hts
    exact (bind_ok ht).trans (bind_ok (ih hts))

theorem expandNode_rewrites (t : Node) : expandNode expand t = .ok (t.map (Kind.rewrite g)) := by
  induction t using RoseTree.induct with
  | hnode kind children ih =>
    exact (bind_ok (expandKind_rewrites h kind)).trans (bind_ok (expandNodes_children ih))

theorem expandNodes_rewrites (ts : List Node) :
    expandNodes expand ts = .ok (mapAll (Kind.rewrite g) ts) :=
  expandNodes_children (fun t _ => expandNode_rewrites h t)

end Expanding

section Scopes

/-- A visited node before and after a pass. Its types are rewritten by something that leaves alone
what is bound as a type parameter. -/
def Spares (before after : List String × Kind) : Prop :=
  after.1 = before.1 ∧ ∃ g : String → TypeRef,
    (∀ n ∈ before.1, g n = .named n) ∧ after.2.types = before.2.types.map (TypeRef.rewrite g)

def SparesBound (before after : List Node) : Prop :=
  List.Forall₂ Spares (visitsAll typeScope [] before) (visitsAll typeScope [] after)

theorem sparesBound_refl (ts : List Node) : SparesBound ts ts := by
  refine List.forall₂_same.mpr (fun visit _ => ⟨rfl, .named, fun _ _ => rfl, ?_⟩)
  rw [← rewriteAll_eq, rewriteAll_named]

/-- A rewriting of types is one that spares what is bound if and only if it leaves alone all that is
bound and mentioned. -/
theorem rewritten_spares_iff {g : String → TypeRef} {bound : List String} {ts : List TypeRef} :
    (∃ g' : String → TypeRef, (∀ n ∈ bound, g' n = .named n) ∧
        ts.map (TypeRef.rewrite g) = ts.map (TypeRef.rewrite g')) ↔
      ∀ n ∈ namesAll ts, n ∈ bound → g n = .named n := by
  constructor
  · rintro ⟨g', hbound, hsame⟩ n hn hmem
    rw [← rewriteAll_eq, ← rewriteAll_eq] at hsame
    exact (rewriteAll_agree ts hsame n hn).trans (hbound n hmem)
  · intro h
    refine ⟨unbound bound g, fun n hn => if_pos hn, ?_⟩
    rw [← rewriteAll_eq, ← rewriteAll_eq]
    refine rewriteAll_congr ts (fun n hn => ?_)
    by_cases hmem : n ∈ bound
    · rw [unbound, if_pos hmem, h n hn hmem]
    · rw [unbound, if_neg hmem]

theorem mapAll_spares_iff {f : Kind → Kind} {g : Kind → String → TypeRef}
    (hparams : ∀ kind bound, typeScope (f kind) bound = typeScope kind bound)
    (htypes : ∀ kind, (f kind).types = kind.types.map (TypeRef.rewrite (g kind))) (ts : List Node) :
    SparesBound ts (mapAll f ts) ↔ ∀ visit ∈ visitsAll typeScope [] ts,
      ∀ n ∈ namesAll visit.2.types, n ∈ visit.1 → g visit.2 n = .named n := by
  rw [SparesBound, visitsAll_map hparams, List.forall₂_map_right_iff, List.forall₂_same]
  refine forall_congr' (fun visit => imp_congr_right (fun _ => ?_))
  rw [Spares, htypes, rewritten_spares_iff, eq_self_iff_true, true_and]

end Scopes

section Aliases
variable {aliases : Aliases}

/-- What an alias stands for. -/
def expansion (aliases : Aliases) (name : String) : TypeRef :=
  (expandTypeStr aliases (aliases.length + 1) [] (.named name)).toOption.getD (.named name)

theorem expandTypeStr_rewrites (hacyclic : ¬ Cyclic (Mentions aliases)) (t : TypeRef) :
    expandTypeStr aliases (aliases.length + 1) [] t = .ok (t.rewrite (expansion aliases)) := by
  rw [expandTypeStr]
  refine rewriteTypeRef_all (fun n _ => ?_)
  obtain ⟨t', ht'⟩ := expandTypeStr_acyclic hacyclic (.named n)
  have hn := ht' (aliases.length + 1) (Nat.lt_succ_self _)
  rw [expansion, hn]
  exact hn

theorem expansion_eq_iff (hacyclic : ¬ Cyclic (Mentions aliases)) (n : String) :
    expansion aliases n = .named n ↔ n ∉ keys aliases := by
  have hexpand := expandTypeStr_rewrites hacyclic (.named n)
  rw [← lookup_isSome_iff]
  constructor
  · intro h
    rw [TypeRef.rewrite, h] at hexpand
    rw [expandTypeStr_names hexpand n List.mem_cons_self]
    exact Bool.false_ne_true
  · intro h
    have hnone : ∀ n' ∈ names (.named n), aliases.lookup n' = none := by
      intro n' hn'
      rw [List.mem_singleton.mp hn']
      exact Option.not_isSome_iff_eq_none.mp h
    rw [expandTypeStr_settled hnone] at hexpand
    exact (Except.ok.inj hexpand).symm

/-- The statements that collecting the aliases of some files leaves. -/
def remainingStatements (files : List (List Statement)) : List Node :=
  (files.map (List.filterMap remainingNode)).flatten

/-- No type parameter that is mentioned has the name of an alias. -/
def NoneAliased (files : List (List Statement)) : Prop :=
  ∀ visit ∈ visitsAll typeScope [] (remainingStatements files),
    ∀ n ∈ namesAll visit.2.types, n ∈ visit.1 → n ∉ keys (declaredAliases files)

theorem rewrite_typeParams (g : String → TypeRef) (kind : Kind) (bound : List String) :
    typeScope (kind.rewrite g) bound = typeScope kind bound := by
  cases kind with
  | indexAccess candidate => cases candidate <;> rfl
  | _ => rfl

/-- The pass over the statements that remain, where there are aliases. -/
theorem expanded_spares_iff {files : List (List Statement)}
    (hacyclic : ¬ Cyclic (Mentions (declaredAliases files))) :
    SparesBound (remainingStatements files)
        (mapAll (Kind.rewrite (expansion (declaredAliases files))) (remainingStatements files)) ↔
      NoneAliased files := by
  rw [mapAll_spares_iff (g := fun _ => expansion (declaredAliases files))
    (rewrite_typeParams _) (types_rewrite _)]
  refine forall_congr' (fun visit => imp_congr_right (fun _ => ?_))
  exact forall_congr' (fun n => imp_congr_right (fun _ => imp_congr_right (fun _ =>
    expansion_eq_iff hacyclic n)))

/-- Where the aliases are collected, the pass has its result. -/
theorem expandTypeAliases_collected {files : List (List Statement)}
    (hcollect : collectAliases files =
      .ok (declaredAliases files, files.map (List.filterMap remainingNode)))
    (hacyclic : ¬ Cyclic (Mentions (declaredAliases files))) :
    ∃ statements, expandTypeAliasesInModule files = .ok statements ∧
      (SparesBound (remainingStatements files) statements.flatten ↔ NoneAliased files) := by
  rw [expandTypeAliasesInModule, bind_ok hcollect]
  dsimp only
  by_cases hempty : (declaredAliases files).isEmpty
  · refine ⟨_, if_pos hempty, iff_of_true (sparesBound_refl _) (fun visit _ n _ _ => ?_)⟩
    rw [List.isEmpty_iff.mp hempty]
    exact List.not_mem_nil
  · refine ⟨_, (if_neg hempty).trans (mapM_ok (fun statements _ =>
      expandNodes_rewrites (expandTypeStr_rewrites hacyclic) statements)), ?_⟩
    rw [← expanded_spares_iff hacyclic, remainingStatements, funext (mapAll_eq _), List.map_flatten]

theorem expandTypeAliases_spares_iff (files : List (List Statement)) :
    (∀ statements, expandTypeAliasesInModule files = .ok statements →
        SparesBound (remainingStatements files) statements.flatten) ↔
      ((keys (declaredAliases files)).Nodup → ¬ Cyclic (Mentions (declaredAliases files)) →
        NoneAliased files) := by
  have houtcome := collectAliases_outcome files
  generalize hcollect : collectAliases files = collected at houtcome
  cases houtcome with
  | duplicate htwice =>
    refine iff_of_true (fun statements h => ?_) (fun hnodup => absurd hnodup htwice)
    rw [expandTypeAliasesInModule, bind_error hcollect] at h
    cases h
  | cycle _ hcyclic =>
    refine iff_of_true (fun statements h => ?_) (fun _ hacyclic => absurd hcyclic hacyclic)
    rw [expandTypeAliasesInModule, bind_error hcollect] at h
    cases h
  | collected hnodup hacyclic =>
    obtain ⟨expanded, hexpanded, hspares⟩ := expandTypeAliases_collected hcollect hacyclic
    constructor
    · exact fun h _ _ => hspares.mp (h expanded hexpanded)
    · intro h statements hstatements
      rw [hexpanded] at hstatements
      cases hstatements
      exact hspares.mpr (h hnodup hacyclic)

end Aliases

section Qualification
variable (m : Module)

/-- No type parameter that is mentioned where `walk` looks has the name of a declaration of the
module. -/
def NoneQualified : Prop :=
  ∀ visit ∈ visitsAll typeScope [] m.statements, omitsTypes visit.2 = false →
    ∀ n ∈ namesAll visit.2.types, n ∈ visit.1 → n ∉ topNames m.statements

/-- What the names in the types of a node become. -/
def qualification (kind : Kind) (name : String) : TypeRef :=
  .named (if omitsTypes kind then name else q m name)

theorem q_eq_iff (name : String) : q m name = name ↔ name ∉ topNames m.statements := by
  constructor
  · intro h hown
    rw [q_own m hown] at h
    exact qualified_ne m hown h.symm
  · intro h
    refine if_neg ?_
    rw [Bool.and_eq_true, List.contains_iff_mem]
    exact fun hq => h hq.2

theorem qualification_types (kind : Kind) :
    (rewriteKind m kind).types = kind.types.map (TypeRef.rewrite (qualification m kind)) := by
  rw [rewriteKind_types]
  cases homits : omitsTypes kind with
  | true =>
    have hsame : qualification m kind = .named := by
      funext name
      rw [qualification, homits, if_pos rfl]
    rw [if_pos rfl, hsame, ← rewriteAll_eq, rewriteAll_named]
  | false =>
    have hsame : qualification m kind = fun name => .named (q m name) := by
      funext name
      rw [qualification, homits, if_neg Bool.false_ne_true]
    rw [if_neg Bool.false_ne_true, hsame]
    rfl

theorem qualification_eq_iff (kind : Kind) (name : String) :
    qualification m kind name = .named name ↔
      (omitsTypes kind = false → name ∉ topNames m.statements) := by
  rw [qualification, TypeRef.named.injEq, ← q_eq_iff]
  cases omitsTypes kind with
  | true => exact iff_of_true rfl (fun h => absurd h Bool.true_eq_false.mp)
  | false => exact ⟨fun h _ => h, fun h => h rfl⟩

theorem rewriteModuleNames_spares_iff :
    (∀ entry, SparesBound m.statements (rewriteModuleNames m entry)) ↔ NoneQualified m := by
  have hspares := mapAll_spares_iff (rewriteKind_typeParams m) (qualification_types m) m.statements
  constructor
  · intro h visit hvisit homits n hn hbound
    exact (qualification_eq_iff m visit.2 n).mp (hspares.mp (h false) visit hvisit n hn hbound) homits
  · intro h entry
    cases entry with
    | true => exact sparesBound_refl m.statements
    | false =>
      refine hspares.mpr (fun visit hvisit n hn hbound => ?_)
      exact (qualification_eq_iff m visit.2 n).mpr (fun homits => h visit hvisit homits n hn hbound)

end Qualification

section Instances

/-- A generic function or struct. -/
inductive Template where
  | function (tmpl : FunctionTemplate)
  | struct (tmpl : StructTemplate)

def Template.typeParams : Template → List TypeParam
  | .function tmpl => tmpl.head.typeParams
  | .struct tmpl => tmpl.head.typeParams

/-- The declaration of a template under another name. -/
def Template.declared (name : String) : Template → Kind
  | .function tmpl => .functionDeclaration { tmpl.head with name }
  | .struct tmpl => .structDecl { tmpl.head with name }

def Template.children : Template → List Node
  | .function tmpl => tmpl.children
  | .struct tmpl => tmpl.children

def Template.instantiate (name : String) (args : List TypeRef) : Template → Node
  | .function tmpl => functionInstance tmpl name args
  | .struct tmpl => structInstance tmpl name args

/-- A node as `apply` leaves it apart from its types: it declares no type parameters, and the type
arguments of a call are apart from its name. -/
def settled : Kind → Kind
  | .functionDeclaration head => .functionDeclaration { head with typeParams := [] }
  | .structDecl head => .structDecl { head with typeParams := [] }
  | .functionCall name typeArgs =>
    .functionCall (normalizeCallTypeArgs name typeArgs).1 (normalizeCallTypeArgs name typeArgs).2
  | kind => kind

/-- Whether `apply` has no case for the types of a node. -/
def skipsTypes : Kind → Bool
  | .functionExpr _ _ => true
  | .ifaceDecl _ _ _ => true
  | _ => false

variable (tmpl : Template) (name : String) (args : List TypeRef)

/-- The instance of a template in which each type parameter is replaced wherever it is not bound
again, and nothing else. -/
def Template.substituted : Node :=
  .node ((settled (tmpl.declared name)).rewrite (substitution tmpl.typeParams args))
    (mapAllIn typeScope
      (fun bound kind =>
        (settled kind).rewrite (unbound bound (substitution tmpl.typeParams args)))
      [] tmpl.children)

/-- A type parameter that is replaced by something else is mentioned by what `apply` has no case for
only where it is bound again, and it is bound again only there. -/
def Substitutable : Prop :=
  ∀ visit ∈ visitsAll typeScope [] tmpl.children, ∀ n ∈ namesAll (settled visit.2).types,
    substitution tmpl.typeParams args n ≠ .named n → (n ∈ visit.1 ↔ skipsTypes visit.2 = true)

theorem substituteKind_eq (subst : String → TypeRef) (kind : Kind) :
    substituteKind subst kind =
      (settled kind).rewrite (if skipsTypes kind then .named else subst) := by
  have hnamed : TypeRef.rewrite .named = id := funext rewrite_named
  have hoptional (t : Option TypeRef) : t.map (TypeRef.rewrite .named) = t := by
    rw [hnamed, Option.map_id, id]
  cases kind with
  | functionExpr params returnType =>
    have hparam : Param.rewrite .named = id := by
      funext p
      rw [Param.rewrite, hoptional]
      rfl
    change _ = Kind.functionExpr (params.map (Param.rewrite .named))
      (returnType.map (TypeRef.rewrite .named))
    rw [hparam, List.map_id, hoptional]
    rfl
  | ifaceDecl name methods embeds =>
    have hmethod : Method.rewrite .named = id := by
      funext method
      rw [Method.rewrite, hoptional, hnamed]
      exact congrArg (fun params => { method with params }) (List.map_id method.params)
    change _ = Kind.ifaceDecl name (methods.map (Method.rewrite .named))
      (embeds.map (TypeRef.rewrite .named))
    rw [hmethod, hnamed, List.map_id, List.map_id]
    rfl
  | _ => rfl

theorem instantiate_eq : tmpl.instantiate name args =
    .node (substituteKind (substitution tmpl.typeParams args) (tmpl.declared name))
      (mapAll (substituteKind (substitution tmpl.typeParams args)) tmpl.children) := by
  cases tmpl <;> rfl

/-- One node of a template: the names in its types become the same. -/
theorem substituted_agree_iff (subst : String → TypeRef) (bound : List String) (kind : Kind) :
    (settled kind).rewrite (unbound bound subst) = substituteKind subst kind ↔
      ∀ n ∈ namesAll (settled kind).types, subst n ≠ .named n →
        (n ∈ bound ↔ skipsTypes kind = true) := by
  rw [substituteKind_eq, Kind.rewrite_eq_iff]
  refine forall_congr' (fun n => imp_congr_right (fun _ => ?_))
  rw [unbound]
  cases skipsTypes kind with
  | true =>
    rw [if_pos rfl]
    by_cases hbound : n ∈ bound
    · simp [hbound]
    · simp [hbound]
  | false =>
    rw [if_neg Bool.false_ne_true]
    by_cases hbound : n ∈ bound
    · simp [hbound, eq_comm]
    · simp [hbound]

/-- An instance has each type parameter replaced where it is not bound again, and nothing else, if and
only if the type parameters that are bound again are just those in what `apply` skips. -/
theorem substituted_iff : tmpl.instantiate name args = tmpl.substituted name args ↔
    Substitutable tmpl args := by
  have hhead : substituteKind (substitution tmpl.typeParams args) (tmpl.declared name) =
      (settled (tmpl.declared name)).rewrite (substitution tmpl.typeParams args) := by
    cases tmpl <;> rfl
  rw [instantiate_eq, Template.substituted, hhead, RoseTree.node.injEq, eq_self_iff_true, true_and,
    eq_comm, mapAllIn_eq_map_iff]
  exact forall_congr' (fun visit => imp_congr_right (fun _ => substituted_agree_iff _ _ _))

end Instances

section Capture

/-- The passes over the aliases of some files, over the names of a module and over an instance of a
template see what is bound as a type parameter. -/
structure CaptureFree (files : List (List Statement)) (m : Module) (tmpl : Template) (name : String)
    (args : List TypeRef) : Prop where
  aliases : ∀ statements, expandTypeAliasesInModule files = .ok statements →
    SparesBound (remainingStatements files) statements.flatten
  names : ∀ entry, SparesBound m.statements (rewriteModuleNames m entry)
  instances : tmpl.instantiate name args = tmpl.substituted name args

/-- What the passes find by its spelling is what is meant. -/
structure Unambiguous (files : List (List Statement)) (m : Module) (tmpl : Template)
    (args : List TypeRef) : Prop where
  aliases : (keys (declaredAliases files)).Nodup → ¬ Cyclic (Mentions (declaredAliases files)) →
    NoneAliased files
  names : NoneQualified m
  instances : Substitutable tmpl args

/-- The passes are capture-free exactly when no type parameter that is mentioned has the name of an
alias or of a declaration of the module, and of the type parameters that an instance replaces, those
that are bound again are mentioned in the types that `_substitute_node` skips, and no other. -/
theorem captureFree_iff (files : List (List Statement)) (m : Module) (tmpl : Template)
    (name : String) (args : List TypeRef) :
    CaptureFree files m tmpl name args ↔ Unambiguous files m tmpl args := by
  constructor
  · rintro ⟨haliases, hnames, hinstances⟩
    exact ⟨(expandTypeAliases_spares_iff files).mp haliases,
      (rewriteModuleNames_spares_iff m).mp hnames, (substituted_iff tmpl name args).mp hinstances⟩
  · rintro ⟨haliases, hnames, hinstances⟩
    exact ⟨(expandTypeAliases_spares_iff files).mpr haliases,
      (rewriteModuleNames_spares_iff m).mpr hnames, (substituted_iff tmpl name args).mpr hinstances⟩

/-- `fun twice[T](x: T): T { let f = fun(y: T): T { y }  f(f(x)) }` -/
def twice : FunctionTemplate where
  head := ⟨"twice", none, none, [⟨"T", "any"⟩], [⟨"x", some (.named "T"), false⟩], some (.named "T")⟩
  children := [.node (.block false) [
    .node (.variableDeclaration "f" none) [
      .node (.functionExpr [⟨"y", some (.named "T"), false⟩] (some (.named "T"))) [
        .node (.block false) [.node .expressionStatement [.node (.identifier "y") []]]]],
    .node .expressionStatement [
      .node (.functionCall (.named "f") []) [
        .node (.functionCall (.named "f") []) [.node (.identifier "x") []]]]]]

/-- The instance at `i32` has a function expression from `T` to `T`. -/
theorem twice_not_substituted :
    ¬ CaptureFree [] jsonModule (.function twice) "twice__i32" [.named "i32"] := by
  intro h
  have hnames := congrArg
    (fun t : Node => (t.visits typeScope []).map (fun visit => namesAll visit.2.types)) h.instances
  revert hnames
  decide

end Capture

end NewClLang.TypeSubstitution
