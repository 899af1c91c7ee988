import Mathlib.Data.List.Sort
import NewClLang.FinishOrder
import NewClLang.ModuleNames

set_option autoImplicit false

/-!
# Loading the modules of a project

`parse_project_sources` reads the directories that the modules of a project import, each module
after those it imports, and the C sources that belong to modules of the standard library.
-/
namespace NewClLang.ModuleLoading
open ModuleSyntax ModuleNames FinishOrder Relation

/-- The components of an absolute path. -/
abbrev Path := List String

def pathText (path : Path) : String := "/" ++ "/".intercalate path

section Files

structure File where
  name : String
  source : String
deriving DecidableEq

/-- The directories of a file system. A directory holds one file of a name. -/
structure Disk where
  directories : List (Path × List File)
  nodup : ∀ d ∈ directories, (d.2.map File.name).Nodup

def Disk.listing (disk : Disk) (path : Path) : Option (List File) := disk.directories.lookup path

def Disk.exists (disk : Disk) (path : Path) : Bool :=
  match disk.listing path.dropLast with
  | some files => files.any fun file => some file.name == path.getLast?
  | none => false

def isSource (file : File) : Bool := ".nc".toList.isSuffixOf file.name.toList

/-- The files of a module, in the order of their names. -/
def ncFiles (files : List File) : List File :=
  (files.insertionSort fun a b => a.name ≤ b.name).filter isSource

def commonPrefix : Path → Path → Path
  | a :: as, b :: bs => if a = b then a :: commonPrefix as bs else []
  | _, _ => []

/-- `os.path.commonpath` -/
def commonPath : List Path → Path
  | [] => []
  | [path] => path
  | path :: paths => commonPrefix path (commonPath paths)

/-- Where the sources of a module come from: `<command>` and the like, or files that exist. -/
inductive Origin where
  | label (text : String)
  | files (paths : List Path)

/-- What the sources have in common is a file only if it is one of them. -/
def moduleRoot (paths : List Path) : Path :=
  if paths.contains (commonPath paths) then (commonPath paths).dropLast else commonPath paths

/-- `module_name_from_sources` -/
def moduleNameFromSources : Origin → String × Option Path
  | .label text => (text, none)
  | .files [] => ("<empty>", none)
  | .files paths => ((moduleRoot paths).getLast?.getD "/", some (moduleRoot paths))

end Files

section Loading

/-- What the parser makes of the files of a module. -/
structure Contents where
  statements : List Node
  plainNames : ∀ name ∈ topNames statements, isQualified name = false
  plainBinders : ∀ visit ∈ RoseTrees.visitsAll (fun _ _ => ()) () statements,
    ∀ name ∈ binders visit.2, isQualified name = false

inductive LoadError where
  | parse (message : String)
  | notForTarget
  | listing (directory : Path)
  | notFound (moduleName : String) (directory : Path)
  | noFiles (moduleName : String) (directory : Path)

def LoadError.message : LoadError → String
  | .parse message => message
  | .notForTarget => "module 'linux' is only available for target linux-x64"
  | .listing directory => pathText directory
  | .notFound moduleName directory =>
    "module '" ++ moduleName ++ "' not found: " ++ pathText directory
  | .noFiles moduleName directory =>
    "module '" ++ moduleName ++ "' has no .nc files: " ++ pathText directory

def cycleMessage (names : List String) : String := "import cycle: " ++ " -> ".intercalate names

def builtinModules : List String :=
  ["io", "runtime", "fs", "os", "strings", "strconv", "math", "sort", "types", "linux", "json"]

def stdlibSourceModules : List String :=
  ["fs", "os", "strings", "strconv", "math", "sort", "linux", "json", "sync"]

/-- The compiler, with its standard library on the disk, and the parser of a module, which is told
whether the sources are those of the standard library. -/
structure Compiler where
  disk : Disk
  stdlibDir : Path
  cwd : Path
  parse : Bool → List String → Except String Contents
  installed : ∀ n ∈ stdlibSourceModules, ∃ files, disk.listing (stdlibDir ++ [n]) = some files ∧
    ncFiles files ≠ []

variable (c : Compiler)

/-- `parse_module_sources` -/
def parseModuleSources (trusted : Bool) (origin : Origin) (sources : List String) :
    Except LoadError Module :=
  match c.parse trusted sources with
  | .error message => .error (.parse message)
  | .ok contents =>
    .ok ⟨(moduleNameFromSources origin).1, contents.statements, contents.plainNames,
      contents.plainBinders⟩

def parseDirectory (trusted : Bool) (directory : Path) (files : List File) :
    Except LoadError Module :=
  parseModuleSources c trusted
    (.files ((ncFiles files).map fun file => directory ++ [file.name]))
    ((ncFiles files).map File.source)

/-- `_module_imports` -/
def moduleImports (m : Module) : List String :=
  m.statements.filterMap fun stmt =>
    match stmt.label with
    | .importDecl moduleName => some moduleName
    | _ => none

/-- The target, and the directory in which the directories of the modules are. -/
structure Project where
  targetName : String
  projectRoot : Path

structure State where
  loaded : List String
  order : List Module
  supportCSources : List Path

variable (p : Project)

def supportPath (moduleName : String) : Path := c.stdlibDir ++ [moduleName, moduleName ++ ".c"]

/-- `add_stdlib_support_c`. The paths that were seen are those that were added. -/
def addStdlibSupportC (moduleName : String) (s : State) : State :=
  let path := supportPath c moduleName
  if !c.disk.exists path then s
  else if s.supportCSources.contains path then s
  else { s with supportCSources := s.supportCSources ++ [path] }

def parseStdlib (moduleName : String) : Except LoadError Module :=
  let directory := c.stdlibDir ++ [moduleName]
  match c.disk.listing directory with
  | none => .error (.listing directory)
  | some files => parseDirectory c true directory files

def parseSibling (moduleName : String) : Except LoadError Module :=
  let directory := p.projectRoot ++ [moduleName]
  match c.disk.listing directory with
  | none => .error (.notFound moduleName directory)
  | some files =>
    if (ncFiles files).isEmpty then .error (.noFiles moduleName directory)
    else parseDirectory c false directory files

abbrev Loaded := Option (Except (Failure String LoadError) State)

/-- The loop of `load`. -/
def loadImports (load : Module → State → Loaded) : List String → State → Loaded
  | [], s => some (.ok s)
  | n :: ns, s =>
    if n = "linux" ∧ p.targetName ≠ "linux-x64" then some (.error (.failed .notForTarget))
    else if n ∈ stdlibSourceModules then
      match parseStdlib c n with
      | .error e => some (.error (.failed e))
      | .ok child =>
        match load child (addStdlibSupportC c n s) with
        | some (.ok s') => loadImports load ns s'
        | r => r
    else if n ∈ builtinModules then loadImports load ns s
    else
      match parseSibling c p n with
      | .error e => some (.error (.failed e))
      | .ok child =>
        match load child s with
        | some (.ok s') => loadImports load ns s'
        | r => r

/-- `load` -/
def load : ℕ → List String → Module → State → Loaded
  | 0, _, _, _ => none
  | fuel + 1, stack, m, s =>
    if m.name ∈ stack then some (.error (.cycle (stack ++ [m.name])))
    else if m.name ∈ s.loaded then some (.ok s)
    else
      match loadImports c p (load fuel (stack ++ [m.name])) (moduleImports m)
          { s with loaded := m.name :: s.loaded } with
      | some (.ok s') => some (.ok { s' with order := s'.order ++ [m] })
      | r => r

/-- Each call of `load` that goes on is for another directory, apart from that for the entry. -/
def loadEntry (entry : Module) : Loaded :=
  load c p (c.disk.directories.length + 2) [] entry ⟨[], [], []⟩

/-- The module that the files of all modules are put together in. -/
structure Linked where
  name : String
  statements : List Node
  supportCSources : List Path

def link (entry : Module) (s : State) : Linked where
  name := entry.name
  statements := s.order.flatMap fun m => rewriteModuleNames m (m.name == entry.name)
  supportCSources := s.supportCSources

/-- `parse_project_sources`. Sources that are no files have the working directory for their root. -/
def parseProjectSources (targetName : String) (origin : Origin) (sources : List String) :
    Option (Except (Failure String LoadError) Linked) :=
  match parseModuleSources c false origin sources with
  | .error e => some (.error (.failed e))
  | .ok entry =>
    let projectRoot := ((moduleNameFromSources origin).2.map List.dropLast).getD c.cwd
    (loadEntry c ⟨targetName, projectRoot⟩ entry).map fun r => r.map (link entry)

end Loading

section Graph
variable (c : Compiler) (p : Project)

/-- The modules that have no sources are skipped. -/
def sourceImports (m : Module) : List String :=
  (moduleImports m).filter fun n => n ∈ stdlibSourceModules ∨ n ∉ builtinModules

/-- What an import leads to. -/
def openModule (n : String) : Except LoadError Module :=
  if n = "linux" ∧ p.targetName ≠ "linux-x64" then .error .notForTarget
  else if n ∈ stdlibSourceModules then parseStdlib c n
  else parseSibling c p n

def addSupport (support : List Path) (n : String) : List Path :=
  if n ∈ stdlibSourceModules then
    (addStdlibSupportC c n ⟨[], [], support⟩).supportCSources
  else support

/-- The state of `load` after a search that has followed some imports. -/
def view (s : Progress String Module) : State :=
  ⟨s.loaded, s.order, s.visits.foldl (addSupport c) []⟩

end Graph

section Names
variable {d : Path} {a b : String} {files : List File} {n : String} {m : Module}

theorem commonPrefix_self (d : Path) : commonPrefix (d ++ [a]) d = d := by
  induction d with
  | nil => rfl
  | cons e d ih => rw [List.cons_append, commonPrefix, if_pos rfl, ih]

theorem commonPrefix_ne (d : Path) (h : a ≠ b) : commonPrefix (d ++ [a]) (d ++ [b]) = d := by
  induction d with
  | nil => exact if_neg h
  | cons e d ih => rw [List.cons_append, List.cons_append, commonPrefix, if_pos rfl, ih]

/-- The files of one directory have the directory in common. -/
theorem commonPath_directory (d : Path) (names : List String) (hnodup : (a :: b :: names).Nodup) :
    commonPath ((a :: b :: names).map fun n => d ++ [n]) = d := by
  induction names generalizing a b with
  | nil => exact commonPrefix_ne d (by simpa using hnodup)
  | cons e names ih =>
    have hrest := ih (List.nodup_cons.mp hnodup).2
    change commonPrefix (d ++ [a]) (commonPath ((b :: e :: names).map fun n => d ++ [n])) = d
    rw [hrest, commonPrefix_self]

theorem moduleRoot_directory {names : List String} (hnodup : names.Nodup) (hne : names ≠ []) :
    moduleRoot (names.map fun file => d ++ [file]) = d := by
  cases names with
  | nil => exact absurd rfl hne
  | cons a rest =>
    cases rest with
    | nil => simp [moduleRoot, commonPath]
    | cons b rest =>
      have hout : ¬ ((a :: b :: rest).map fun file => d ++ [file]).contains d := by simp
      rw [moduleRoot, commonPath_directory d rest hnodup, if_neg hout]

theorem moduleName_directory {names : List String} (hnodup : names.Nodup) (hne : names ≠ []) :
    (moduleNameFromSources (.files (names.map fun file => d ++ [n] ++ [file]))).1 = n := by
  have hroot := moduleRoot_directory (d := d ++ [n]) hnodup hne
  cases names with
  | nil => exact absurd rfl hne
  | cons a rest =>
    change (moduleRoot ((a :: rest).map fun file => d ++ [n] ++ [file])).getLast?.getD "/" = n
    rw [hroot, List.getLast?_concat, Option.getD_some]

theorem nodup_ncFiles (h : (files.map File.name).Nodup) :
    ((ncFiles files).map File.name).Nodup := by
  have hperm : ((files.insertionSort fun a b => a.name ≤ b.name).map File.name).Perm
      (files.map File.name) := (List.perm_insertionSort _ files).map _
  exact (hperm.nodup_iff.mpr h).sublist (List.filter_sublist.map _)

variable {c : Compiler} {p : Project}

theorem listing_nodup {path : Path} (h : c.disk.listing path = some files) :
    (files.map File.name).Nodup := by
  obtain ⟨before, after, hsplit, -⟩ := List.lookup_eq_some_iff.mp h
  exact c.disk.nodup (path, files) (by rw [hsplit]; simp)

theorem parseDirectory_name {trusted : Bool} (hnodup : (files.map File.name).Nodup)
    (hne : ncFiles files ≠ []) (h : parseDirectory c trusted (d ++ [n]) files = .ok m) :
    m.name = n := by
  unfold parseDirectory parseModuleSources at h
  split at h
  · cases h
  · cases h
    have hname := moduleName_directory (d := d) (n := n) (nodup_ncFiles hnodup) (by simpa using hne)
    simpa [Function.comp_def] using hname

/-- A module has the name by which it is imported. -/
theorem openModule_name (h : openModule c p n = .ok m) : m.name = n := by
  unfold openModule at h
  split at h
  · cases h
  · split at h
    · rename_i hstdlib
      obtain ⟨files, hfiles, hne⟩ := c.installed n hstdlib
      rw [parseStdlib, hfiles] at h
      exact parseDirectory_name (listing_nodup hfiles) hne h
    · dsimp only [parseSibling] at h
      split at h
      · cases h
      · rename_i files hfiles
        split at h
        · cases h
        · rename_i hempty
          exact parseDirectory_name (listing_nodup hfiles) (by simpa using hempty) h

end Names

section Simulation
variable {c : Compiler} {p : Project} {m : Module} {s : Progress String Module}

theorem addStdlibSupportC_eq (n : String) (s : State) :
    addStdlibSupportC c n s = { s with
      supportCSources := (addStdlibSupportC c n ⟨[], [], s.supportCSources⟩).supportCSources } := by
  dsimp only [addStdlibSupportC]
  split
  · rfl
  · split <;> rfl

theorem view_visit_source {n : String} (h : n ∈ stdlibSourceModules) :
    view c { s with visits := s.visits ++ [n] } = addStdlibSupportC c n (view c s) := by
  rw [addStdlibSupportC_eq]
  simp only [view, List.foldl_append, List.foldl_cons, List.foldl_nil, addSupport, if_pos h]

theorem view_visit_other {n : String} (h : n ∉ stdlibSourceModules) :
    view c { s with visits := s.visits ++ [n] } = view c s := by
  simp only [view, List.foldl_append, List.foldl_cons, List.foldl_nil, addSupport, if_neg h]

variable (c) in
abbrev viewed (r : Result String Module LoadError) : Loaded := r.map fun x => x.map (view c)

theorem loadImports_view {loads : Module → State → Loaded}
    {visit : Module → Progress String Module → Result String Module LoadError}
    (hvisit : ∀ m s, loads m (view c s) = viewed c (visit m s)) (ns : List String)
    (s : Progress String Module) :
    loadImports c p loads ns (view c s) = viewed c (searchEach (openModule c p) visit
      (ns.filter fun n => n ∈ stdlibSourceModules ∨ n ∉ builtinModules) s) := by
  induction ns generalizing s with
  | nil => rfl
  | cons n ns ih =>
    rw [loadImports]
    by_cases hlinux : n = "linux" ∧ p.targetName ≠ "linux-x64"
    · have hstdlib : n ∈ stdlibSourceModules := by
        rw [hlinux.1]
        decide
      rw [if_pos hlinux, List.filter_cons_of_pos (by simp [hstdlib]), searchEach, openModule,
        if_pos hlinux]
      rfl
    · rw [if_neg hlinux]
      by_cases hstdlib : n ∈ stdlibSourceModules
      · rw [if_pos hstdlib, List.filter_cons_of_pos (by simp [hstdlib]), searchEach, openModule,
          if_neg hlinux, if_pos hstdlib]
        cases parseStdlib c n with
        | error e => rfl
        | ok child =>
          dsimp only
          rw [← view_visit_source hstdlib, hvisit]
          cases visit child { s with visits := s.visits ++ [n] } with
          | none => rfl
          | some r =>
            cases r with
            | error f => rfl
            | ok s' => exact ih s'
      · rw [if_neg hstdlib]
        by_cases hbuiltin : n ∈ builtinModules
        · rw [if_pos hbuiltin, List.filter_cons_of_neg (by simp [hstdlib, hbuiltin])]
          exact ih s
        · rw [if_neg hbuiltin, List.filter_cons_of_pos (by simp [hbuiltin]), searchEach, openModule,
            if_neg hlinux, if_neg hstdlib]
          cases parseSibling c p n with
          | error e => rfl
          | ok child =>
            dsimp only
            rw [← view_visit_other hstdlib, hvisit]
            cases visit child { s with visits := s.visits ++ [n] } with
            | none => rfl
            | some r =>
              cases r with
              | error f => rfl
              | ok s' => exact ih s'

/-- `load` is the search. -/
theorem load_view (fuel : ℕ) (stack : List String) (m : Module) (s : Progress String Module) :
    load c p fuel stack m (view c s) = viewed c
      (search (openModule c p) sourceImports Module.name fuel stack m s) := by
  induction fuel generalizing stack m s with
  | zero => rfl
  | succ fuel ih =>
    rw [load, search]
    by_cases hstack : m.name ∈ stack
    · rw [if_pos hstack, if_pos hstack]
      rfl
    · rw [if_neg hstack, if_neg hstack]
      by_cases hloaded : m.name ∈ s.loaded
      · rw [if_pos hloaded]
        exact if_pos hloaded
      · rw [if_neg hloaded]
        refine (if_neg hloaded).trans ?_
        have heach : loadImports c p (load c p fuel (stack ++ [m.name])) (moduleImports m)
            { view c s with loaded := m.name :: (view c s).loaded } = viewed c (searchEach
              (openModule c p)
              (search (openModule c p) sourceImports Module.name fuel (stack ++ [m.name]))
              (sourceImports m) { s with loaded := m.name :: s.loaded }) :=
          loadImports_view (fun n t => ih (stack ++ [m.name]) n t) (moduleImports m)
            { s with loaded := m.name :: s.loaded }
        rw [heach]
        cases searchEach (openModule c p)
            (search (openModule c p) sourceImports Module.name fuel (stack ++ [m.name]))
            (sourceImports m) { s with loaded := m.name :: s.loaded } with
        | none => rfl
        | some r =>
          cases r with
          | error f => rfl
          | ok s' => rfl

end Simulation

section Support
variable {c : Compiler} {support : List Path} {path : Path} {n : String}

theorem mem_addSupport : path ∈ addSupport c support n ↔
    path ∈ support ∨ (n ∈ stdlibSourceModules ∧ c.disk.exists (supportPath c n) = true ∧
      path = supportPath c n) := by
  unfold addSupport
  split
  · rename_i hstdlib
    dsimp only [addStdlibSupportC]
    cases hexists : c.disk.exists (supportPath c n) with
    | false => simp
    | true =>
      by_cases hseen : support.contains (supportPath c n) = true
      · rw [if_neg (by simp), if_pos hseen]
        have hmem : supportPath c n ∈ support := by simpa using hseen
        constructor
        · exact Or.inl
        · rintro (hold | ⟨-, -, rfl⟩)
          · exact hold
          · exact hmem
      · rw [if_neg (by simp), if_neg hseen]
        simp [hstdlib]
  · rename_i hother
    simp [hother]

theorem nodup_addSupport (h : support.Nodup) (n : String) : (addSupport c support n).Nodup := by
  unfold addSupport
  split
  · dsimp only [addStdlibSupportC]
    split
    · exact h
    · split
      · exact h
      · rename_i hseen
        have hfresh : supportPath c n ∉ support := by simpa using hseen
        rw [← List.concat_eq_append]
        exact h.concat hfresh
  · exact h

theorem mem_foldl_addSupport (visits : List String) :
    path ∈ visits.foldl (addSupport c) support ↔ path ∈ support ∨
      ∃ n ∈ visits, n ∈ stdlibSourceModules ∧ c.disk.exists (supportPath c n) = true ∧
        path = supportPath c n := by
  induction visits generalizing support with
  | nil => simp
  | cons n ns ih =>
    rw [List.foldl_cons, ih, mem_addSupport, or_assoc]
    simp only [List.exists_mem_cons_iff]

theorem nodup_foldl_addSupport (h : support.Nodup) (visits : List String) :
    (visits.foldl (addSupport c) support).Nodup := by
  induction visits generalizing support with
  | nil => exact h
  | cons n ns ih => exact ih (nodup_addSupport h n)

end Support

section Results
variable (c : Compiler) (p : Project) (entry : Module)

/-- The module of a name: no other module than the entry has its name. -/
abbrev moduleOf (n : String) : Except LoadError Module :=
  resolve (openModule c p) Module.name entry n

/-- A module imports another one that has sources. -/
abbrev Imports (m n : String) : Prop := Edge (openModule c p) sourceImports Module.name entry m n

/-- Each module that the entry leads to, once, after those that it imports, and each C source that
belongs to one of the standard library. -/
structure LoadOrder (s : State) : Prop where
  nodup : (s.order.map Module.name).Nodup
  members : ∀ n, n ∈ s.order.map Module.name ↔ ReflTransGen (Imports c p entry) entry.name n
  modules : ∀ m ∈ s.order, moduleOf c p entry m.name = .ok m
  ordered : Ordered sourceImports Module.name s.order
  last : ∃ before, s.order = before ++ [entry]
  support : ∀ path, path ∈ s.supportCSources ↔ ∃ n ∈ stdlibSourceModules,
    TransGen (Imports c p entry) entry.name n ∧ c.disk.exists (supportPath c n) = true ∧
      path = supportPath c n
  supportOnce : s.supportCSources.Nodup

variable {c p entry}

theorem listing_last {path : Path} {n : String} {files : List File}
    (h : c.disk.listing (path ++ [n]) = some files) :
    n ∈ c.disk.directories.map fun d => d.1.getLast?.getD "" := by
  obtain ⟨before, after, hsplit, -⟩ := List.lookup_eq_some_iff.mp h
  refine List.mem_map.mpr ⟨(path ++ [n], files), by rw [hsplit]; simp, ?_⟩
  rw [List.getLast?_concat, Option.getD_some]

theorem openModule_directory {n : String} {m : Module} (h : openModule c p n = .ok m) :
    m.name ∈ c.disk.directories.map fun d => d.1.getLast?.getD "" := by
  rw [openModule_name h]
  unfold openModule at h
  split at h
  · cases h
  · split at h
    · rename_i hstdlib
      obtain ⟨files, hfiles, -⟩ := c.installed n hstdlib
      exact listing_last hfiles
    · dsimp only [parseSibling] at h
      split at h
      · cases h
      · rename_i files hfiles
        exact listing_last hfiles

theorem loadOrder_of_exact {s : Progress String Module}
    (h : Exact (openModule c p) sourceImports Module.name entry s) :
    LoadOrder c p entry (view c s) where
  nodup := h.nodup
  members := h.members
  modules := h.resolved
  ordered := h.ordered
  last := h.last
  support := by
    intro path
    refine (mem_foldl_addSupport s.visits).trans ?_
    simp only [List.not_mem_nil, false_or, h.visits]
    exact exists_congr fun n => and_left_comm
  supportOnce := nodup_foldl_addSupport List.nodup_nil _

/-- The search with names for modules comes to an end on the disk. -/
theorem search_modules (c : Compiler) (p : Project) (entry : Module) :
    (∃ s, loadEntry c p entry = some (.ok (view c s)) ∧
      Sound (openModule c p) sourceImports Module.name entry ∧
      Exact (openModule c p) sourceImports Module.name entry s) ∨
    (∃ f, loadEntry c p entry = some (.error f) ∧
      ¬ Sound (openModule c p) sourceImports Module.name entry ∧
      Blamed (openModule c p) sourceImports Module.name entry f) := by
  have hnodes : ∀ n m, openModule c p n = .ok m →
      m.name ∈ entry.name :: c.disk.directories.map fun d => d.1.getLast?.getD "" :=
    fun n m h => List.mem_cons_of_mem _ (openModule_directory h)
  have hload : loadEntry c p entry = viewed c (search (openModule c p) sourceImports Module.name
      (c.disk.directories.length + 2) [] entry start) := load_view _ [] entry start
  have hfuel : (entry.name :: c.disk.directories.map fun d => d.1.getLast?.getD "").length <
      c.disk.directories.length + 2 := by simp
  rcases search_exact (fun n m => openModule_name) hnodes List.mem_cons_self hfuel with
    ⟨s, hs, hsound, hexact⟩ | ⟨f, hf, hsound, hblamed⟩
  · rw [hs] at hload
    exact Or.inl ⟨s, hload, hsound, hexact⟩
  · rw [hf] at hload
    exact Or.inr ⟨f, hload, hsound, hblamed⟩

theorem loadOrder_of_load {s : State} (h : loadEntry c p entry = some (.ok s)) :
    LoadOrder c p entry s := by
  rcases search_modules c p entry with ⟨s', hs', -, hexact⟩ | ⟨f, hf, -⟩
  · rw [h, Option.some.injEq, Except.ok.injEq] at hs'
    rw [hs']
    exact loadOrder_of_exact hexact
  · rw [h] at hf
    cases hf

/-- `load` comes to an end. It succeeds if and only if everything that is imported is there and no
module imports itself, by however many steps. It fails with such imports for its reason. -/
theorem load_exact (c : Compiler) (p : Project) (entry : Module) :
    (∃ s, loadEntry c p entry = some (.ok s) ∧
      Sound (openModule c p) sourceImports Module.name entry ∧ LoadOrder c p entry s) ∨
    (∃ f, loadEntry c p entry = some (.error f) ∧
      ¬ Sound (openModule c p) sourceImports Module.name entry ∧
      Blamed (openModule c p) sourceImports Module.name entry f) := by
  rcases search_modules c p entry with ⟨s, hs, hsound, hexact⟩ | hfailed
  · exact Or.inl ⟨view c s, hs, hsound, loadOrder_of_exact hexact⟩
  · exact Or.inr hfailed

end Results

end NewClLang.ModuleLoading
