import NewClLang.ModuleLoading

set_option autoImplicit false

/-!
# Linking the modules of a project

The names of the modules of a project in the one program that they are put together in: no name of
one module is that of another one.
-/
namespace NewClLang.ModuleLinking
open RoseTrees ModuleSyntax ModuleNames ModuleLoading

/-- A name that is declared in an `extern` block has no receiver. -/
def ExternsPlain (statements : List Node) : Prop :=
  ∀ stmt ∈ statements, stmt.label = .externBlock → ∀ fn ∈ stmt.children,
    ∀ head, fn.label = .functionDeclaration head → head.receiverName = none

section Texts

/-- The part before the last dot. -/
theorem append_dot_inj {as as' bs bs' : List Char} (hbs : '.' ∉ bs) (hbs' : '.' ∉ bs')
    (h : as ++ '.' :: bs = as' ++ '.' :: bs') : as = as' ∧ bs = bs' := by
  induction as generalizing as' with
  | nil =>
    cases as' with
    | nil => exact ⟨rfl, by simpa using h⟩
    | cons a as' =>
      obtain ⟨-, hrest⟩ := List.cons.inj h
      exact absurd (hrest ▸ List.mem_append_right as' List.mem_cons_self) hbs
  | cons a as ih =>
    cases as' with
    | nil =>
      obtain ⟨-, hrest⟩ := List.cons.inj h
      exact absurd (hrest ▸ List.mem_append_right as List.mem_cons_self) hbs'
    | cons a' as' =>
      obtain ⟨rfl, hrest⟩ := List.cons.inj h
      obtain ⟨rfl, rfl⟩ := ih hrest
      exact ⟨rfl, rfl⟩

variable {m m' : Module} {x y : String}

theorem not_dot (h : isQualified x = false) : '.' ∉ x.toList := by
  simpa [isQualified] using h

theorem qualified_toList (m : Module) (x : String) :
    (qualified m x).toList = m.name.toList ++ '.' :: x.toList := by
  simp [qualified]

theorem qualified_inj (hx : isQualified x = false) (hy : isQualified y = false)
    (h : qualified m x = qualified m' y) : m.name = m'.name ∧ x = y := by
  have hlists := congrArg String.toList h
  rw [qualified_toList, qualified_toList] at hlists
  obtain ⟨hname, htext⟩ := append_dot_inj (not_dot hx) (not_dot hy) hlists
  exact ⟨String.toList_inj.mp hname, String.toList_inj.mp htext⟩

end Texts

section Linking
variable {m m' : Module}

/-- A statement that is rewritten declares the names that are qualified, in the order they have. -/
theorem topNamesOf_map {stmt : Node}
    (hexterns : stmt.label = .externBlock → ∀ fn ∈ stmt.children,
      ∀ head, fn.label = .functionDeclaration head → head.receiverName = none) :
    topNamesOf (stmt.map (rewriteKind m)) = (topNamesOf stmt).map (q m) := by
  obtain ⟨kind, children⟩ := stmt
  cases kind with
  | functionDeclaration head =>
    cases hreceiver : head.receiverName <;>
      simp [topNamesOf, RoseTree.map, RoseTree.label, functionName, rewriteKind, hreceiver]
  | externBlock =>
    have hchild : ∀ fn ∈ children,
        externName (fn.map (rewriteKind m)) = (externName fn).map (q m) := by
      intro fn hfn
      have hreceiver := hexterns rfl fn hfn
      obtain ⟨kind, rest⟩ := fn
      cases kind with
      | functionDeclaration head =>
        simp [externName, RoseTree.map, RoseTree.label, rewriteKind, hreceiver head rfl]
      | _ => rfl
    change (mapAll (rewriteKind m) children).filterMap externName =
      (children.filterMap externName).map (q m)
    rw [mapAll_eq, List.filterMap_map, List.map_filterMap]
    exact List.filterMap_congr hchild
  | structDecl head => rfl
  | ifaceDecl name methods embeds => rfl
  | enumDecl name variants => rfl
  | _ => rfl

theorem topNames_rewrite (hplain : ExternsPlain m.statements) :
    topNames (rewriteModuleNames m false) = (topNames m.statements).map (qualified m) := by
  have hq : (topNames m.statements).map (q m) = (topNames m.statements).map (qualified m) :=
    List.map_congr_left fun name hname => q_own m hname
  rw [← hq, topNames, topNames, rewriteModuleNames, if_neg Bool.false_ne_true, mapAll_eq,
    List.flatMap_map, List.map_flatMap]
  exact List.flatMap_congr fun stmt hstmt => topNamesOf_map (hplain stmt hstmt)

/-- The names that a module has in the program. -/
def namesIn (entry m : Module) : List String :=
  topNames (rewriteModuleNames m (m.name == entry.name))

variable {entry : Module} {s : State}

theorem topNames_link : topNames (link entry s).statements = s.order.flatMap (namesIn entry) := by
  rw [topNames, link, List.flatMap_assoc]
  rfl

/-- The names of the entry have no dot, and those of other modules begin with the module. -/
theorem namesIn_eq (hplain : ExternsPlain m.statements) : namesIn entry m =
    if m.name = entry.name then topNames m.statements
    else (topNames m.statements).map (qualified m) := by
  unfold namesIn
  split
  · rename_i hname
    rw [hname, beq_self_eq_true]
    rfl
  · rename_i hname
    rw [beq_false_of_ne hname]
    exact topNames_rewrite hplain

theorem nodup_namesIn (hplain : ExternsPlain m.statements) :
    (namesIn entry m).Nodup ↔ (topNames m.statements).Nodup := by
  rw [namesIn_eq hplain]
  split
  · rfl
  · refine ⟨List.Nodup.of_map _, fun h => (List.nodup_map_iff_inj_on h).mpr ?_⟩
    intro x hx y hy heq
    exact (qualified_inj (m.plainNames x hx) (m.plainNames y hy) heq).2

theorem disjoint_namesIn (hplain : ExternsPlain m.statements) (hplain' : ExternsPlain m'.statements)
    (hne : m.name ≠ m'.name) : (namesIn entry m).Disjoint (namesIn entry m') := by
  intro name hname hname'
  rw [namesIn_eq hplain] at hname
  rw [namesIn_eq hplain'] at hname'
  split at hname
  · rename_i hentry
    rw [if_neg (fun hentry' => hne (hentry.trans hentry'.symm))] at hname'
    obtain ⟨y, -, rfl⟩ := List.mem_map.mp hname'
    have hdot := m.plainNames _ hname
    rw [qualified_isQualified] at hdot
    cases hdot
  · obtain ⟨x, hx, rfl⟩ := List.mem_map.mp hname
    split at hname'
    · have hdot := m'.plainNames _ hname'
      rw [qualified_isQualified] at hdot
      cases hdot
    · obtain ⟨y, hy, heq⟩ := List.mem_map.mp hname'
      exact hne (qualified_inj (m'.plainNames y hy) (m.plainNames x hx) heq).1.symm

/-- No module of a project declares a name that another one declares, so the program declares a
name twice only if one module does. -/
theorem linked_nodup_iff {c : Compiler} {p : Project} (h : loadEntry c p entry = some (.ok s))
    (hplain : ∀ m ∈ s.order, ExternsPlain m.statements) :
    (topNames (link entry s).statements).Nodup ↔ ∀ m ∈ s.order, (topNames m.statements).Nodup := by
  have hnames : s.order.Pairwise fun m m' => m.name ≠ m'.name :=
    List.pairwise_map.mp (loadOrder_of_load h).nodup
  have hdisjoint : s.order.Pairwise (Function.onFun List.Disjoint (namesIn entry)) :=
    hnames.imp_of_mem fun hm hm' hne => disjoint_namesIn (hplain _ hm) (hplain _ hm') hne
  rw [topNames_link, List.nodup_flatMap]
  constructor
  · rintro ⟨hall, -⟩ m hm
    exact (nodup_namesIn (hplain m hm)).mp (hall m hm)
  · intro hall
    exact ⟨fun m hm => (nodup_namesIn (hplain m hm)).mpr (hall m hm), hdisjoint⟩

end Linking

section Example

/-- `enum Color { Red }` -/
def colorContents : Contents where
  statements := [.node (.enumDecl "Color" ["Red"]) []]
  plainNames := by decide
  plainBinders := by decide

/-- A compiler in `/nc`, and a project in `/work`. -/
def smallDirectories : List (Path × List File) :=
  (["work", "color"], [⟨"color.nc", "enum Color { Red }"⟩]) ::
    stdlibSourceModules.map fun n => (["nc", "stdlib", n], [⟨n ++ ".nc", ""⟩])

theorem small_installed : ∀ n ∈ stdlibSourceModules,
    smallDirectories.lookup ["nc", "stdlib", n] = some [⟨n ++ ".nc", ""⟩] ∧
      ncFiles [⟨n ++ ".nc", ""⟩] ≠ [] := by
  decide

def smallCompiler : Compiler where
  disk := ⟨smallDirectories, by decide⟩
  stdlibDir := ["nc", "stdlib"]
  cwd := ["work"]
  parse := fun _ sources =>
    if sources = ["enum Color { Red }"] then .ok colorContents else .error "unexpected token"
  installed := fun n hn => ⟨_, small_installed n hn⟩

/-- `import color`, with a `Color` of its own. -/
def painting : Module where
  name := "main"
  statements := [.node (.importDecl "color") [], .node (.enumDecl "Color" ["Blue"]) []]
  plainNames := by decide
  plainBinders := by decide

def colorModule : Module where
  name := "color"
  statements := colorContents.statements
  plainNames := colorContents.plainNames
  plainBinders := colorContents.plainBinders

def painted : State := ⟨["color", "main"], [colorModule, painting], []⟩

theorem painting_loads :
    loadEntry smallCompiler ⟨"linux-x64", ["work"]⟩ painting = some (.ok painted) := rfl

theorem painted_nodup : (topNames (link painting painted).statements).Nodup := by
  have hplain : ∀ m ∈ painted.order, ExternsPlain m.statements := by
    simp [painted, ExternsPlain, colorModule, colorContents, painting, RoseTree.label]
  exact (linked_nodup_iff painting_loads hplain).mpr (by decide)

end Example

end NewClLang.ModuleLinking
