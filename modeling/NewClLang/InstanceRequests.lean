import NewClLang.FirstRound

set_option autoImplicit false

/-!
# The end of monomorphization

When the instances that a program needs are finitely many `monomorphize` ends, and when those of its
first round are not it does not, unless it fails in that round. A generic function that requests
itself at an instance of a generic struct of its own type argument keeps it going.
-/
namespace NewClLang.Monomorphization
open FallibleRuns ModuleSyntax RoseTrees TypeRefs

section Start

/-- The machine at the head of the loop, before its first round. -/
structure Fresh (m : Machine) : Prop where
  control : m.control = .round
  made : m.made = []
  generated : m.generated = []
  functions : ∀ name place, (name, place) ∈ m.functions →
    ∃ fn, m.get place = some fn ∧ functionName fn.label = some name

theorem Fresh.add {m : Machine} (h : Fresh m) (stmt : Node) :
    Fresh { m with ordinary := m.ordinary ++ [stmt] } where
  control := h.control
  made := h.made
  generated := h.generated
  functions := by
    intro name place hmem
    obtain ⟨fn, hget, hname⟩ := h.functions name place hmem
    refine ⟨fn, ?_, hname⟩
    cases place with
    | ordinary index =>
      change m.ordinary[index]? = some fn at hget
      change (m.ordinary ++ [stmt])[index]? = some fn
      rw [List.getElem?_append_left (List.getElem?_eq_some_iff.mp hget).1]
      exact hget
    | generated index => exact hget

theorem Fresh.addFunction {m : Machine} (h : Fresh m) (head : FunctionHead) (children : List Node) :
    Fresh { m with
      ordinary := m.ordinary ++ [.node (.functionDeclaration head) children]
      functions := (head.name, .ordinary m.ordinary.length) :: m.functions } := by
  have hadd := h.add (.node (.functionDeclaration head) children)
  refine ⟨h.control, h.made, h.generated, fun name place hmem => ?_⟩
  rcases List.mem_cons.mp hmem with heq | hmem
  · obtain ⟨rfl, rfl⟩ := Prod.mk.inj heq
    exact ⟨_, List.getElem?_concat_length, rfl⟩
  · exact hadd.functions name place hmem

/-- A property of the generic functions of a program, and of the machine that it starts. -/
theorem declare_ok {P : FunctionTemplate → Prop} {program : List Node}
    (hprogram : ∀ head children, .node (.functionDeclaration head) children ∈ program →
      head.typeParams ≠ [] → P ⟨head, children⟩)
    {tmpls tmpls' : Templates} {m m' : Machine} (hm : Fresh m)
    (htmpls : ∀ name tmpl, (name, tmpl) ∈ tmpls.functions → P tmpl)
    (hok : declare tmpls m program = .ok (tmpls', m')) :
    Fresh m' ∧ ∀ name tmpl, (name, tmpl) ∈ tmpls'.functions → P tmpl := by
  induction program generalizing tmpls m with
  | nil =>
    cases hok
    exact ⟨hm, htmpls⟩
  | cons stmt rest ih =>
    have hrest : ∀ head children, .node (.functionDeclaration head) children ∈ rest →
        head.typeParams ≠ [] → P ⟨head, children⟩ :=
      fun head children hmem => hprogram head children (List.mem_cons_of_mem stmt hmem)
    cases stmt with
    | node kind children =>
      cases kind with
      | functionDeclaration head =>
        rw [declare] at hok
        dsimp only at hok
        split at hok
        next => exact ih hrest (hm.addFunction head children) htmpls hok
        next hgeneric =>
          split at hok
          next => cases hok
          next =>
            refine ih hrest hm (fun name tmpl hmem => ?_) hok
            rcases List.mem_cons.mp hmem with heq | hmem
            · obtain ⟨rfl, rfl⟩ := Prod.mk.inj heq
              exact hprogram head children List.mem_cons_self
                (fun hnil => hgeneric (List.isEmpty_iff.mpr hnil))
            · exact htmpls name tmpl hmem
      | structDecl head =>
        rw [declare] at hok
        split at hok
        next => exact ih hrest (hm.add _) htmpls hok
        next =>
          have hsame : ∀ name tmpl, (name, tmpl) ∈ ({ tmpls with
              structs := (head.name, ⟨head, children⟩) :: tmpls.structs } : Templates).functions →
              P tmpl := htmpls
          exact ih hrest hm hsame hok
      | _ => exact ih hrest (hm.add _) htmpls hok

theorem start_fresh {program : List Node} {tmpls : Templates} {m : Machine}
    (h : start program = .ok (tmpls, m)) : Fresh m :=
  (declare_ok (P := fun _ => True) (fun _ _ _ _ => trivial)
    ⟨rfl, rfl, rfl, fun _ _ hmem => absurd hmem List.not_mem_nil⟩
    (fun _ _ _ => trivial) h).1

theorem Fresh.bounded {m : Machine} (h : Fresh m) (tmpls : Templates) :
    Bounded tmpls m.ordinary m where
  keys := by
    rw [h.made]
    exact List.nodup_nil
  numbered := by
    rw [h.made, h.generated]
    rfl
  needed := by
    intro p hp
    rw [h.made] at hp
    cases hp
  ordinary := fun _ hstmt => within_ordinary hstmt
  generated := by
    intro stmt hstmt
    rw [h.generated] at hstmt
    cases hstmt
  functions := h.functions

end Start

section Results

/-- The program needs finitely many instances, or the walk of a statement of the first round, an
    ordinary one or an instance, fails. -/
def FinitelyNeeded (program : List Node) : Prop :=
  ∀ tmpls m, start program = .ok (tmpls, m) →
    {p | Needed tmpls m.ordinary p}.Finite ∨ FirstRaises tmpls m.ordinary

/-- The same of the instances that the first round makes. -/
def FinitelyFirstNeeded (program : List Node) : Prop :=
  ∀ tmpls m, start program = .ok (tmpls, m) →
    {p | FirstNeeded tmpls m.ordinary p}.Finite ∨ FirstRaises tmpls m.ordinary

/-- No parameter of a generic function has a default. -/
def PlainTemplates (program : List Node) : Prop :=
  ∀ head children, .node (.functionDeclaration head) children ∈ program → head.typeParams ≠ [] →
    ∀ p ∈ head.params, p.hasDefault = false

theorem returns_of_finitelyNeeded {program : List Node} (h : FinitelyNeeded program) :
    Returns program := by
  intro tmpls m hstart
  have hfresh := start_fresh hstart
  rcases h tmpls m hstart with hfin | hraises
  · exact stops_of_finite (hfresh.bounded tmpls) hfresh.control hfin
  · exact stops_of_raises hfresh.control rfl hfresh.made hfresh.generated hraises

theorem finitelyFirstNeeded_of_returns {program : List Node} (h : Returns program) :
    FinitelyFirstNeeded program := by
  intro tmpls m hstart
  have hfresh := start_fresh hstart
  exact first_of_stops hfresh.control rfl hfresh.made hfresh.generated (h tmpls m hstart)

theorem omitted_nil {params : List Param} (h : ∀ p ∈ params, p.hasDefault = false) (argc : ℕ) :
    omitted argc params = [] := by
  have hlength := omitted_length params argc
  have hcount : params.countP Param.hasDefault = 0 := by
    rw [List.countP_eq_zero]
    intro p hp
    rw [h p hp]
    exact Bool.false_ne_true
  rw [hcount] at hlength
  exact List.length_eq_zero_iff.mp hlength

/-- An instance has no more defaults than its template. -/
theorem omittedDefaults_nil {tmpls : Templates}
    (h : ∀ base, ∀ p ∈ (tmpls.function base).head.params, p.hasDefault = false) (p : Made)
    (argc : ℕ) : omittedDefaults argc (instanceOf tmpls p) = [] := by
  have hnil : omittedOf argc (instanceOf tmpls p).label = [] := by
    cases p with
    | type base args => rfl
    | function base args =>
      refine omitted_nil (fun q hq => ?_) argc
      obtain ⟨old, hold, rfl⟩ := List.mem_map.mp hq
      exact h base old hold
    | erased base =>
      refine omitted_nil (fun q hq => ?_) argc
      rcases List.mem_cons.mp hq with rfl | hq
      · rfl
      · obtain ⟨old, hold, rfl⟩ := List.mem_map.mp hq
        exact h base old hold
  rw [omittedDefaults, hnil, marked.eq_def]

theorem Needed.first {tmpls : Templates} {stmts : List Node}
    (h : ∀ base, ∀ p ∈ (tmpls.function base).head.params, p.hasDefault = false) :
    ∀ {p : Made}, Needed tmpls stmts p → FirstNeeded tmpls stmts p
  | _, .ordinary hstmt hr => .ordinary hstmt hr
  | _, .generated hp hr => .generated (Needed.first h hp) hr
  | _, .default _ _ _ hexpr _ => by
    rw [omittedDefaults_nil h] at hexpr
    cases hexpr

theorem finitelyNeeded_of_plain {program : List Node} (hplain : PlainTemplates program)
    (h : FinitelyFirstNeeded program) : FinitelyNeeded program := by
  intro tmpls m hstart
  have htmpls := (declare_ok (P := fun tmpl => ∀ p ∈ tmpl.head.params, p.hasDefault = false)
    hplain ⟨rfl, rfl, rfl, fun _ _ hmem => absurd hmem List.not_mem_nil⟩
    (fun _ _ hmem => absurd hmem List.not_mem_nil) hstart).2
  have hfunction : ∀ base, ∀ p ∈ (tmpls.function base).head.params, p.hasDefault = false := by
    intro base p hp
    rw [Templates.function] at hp
    cases hlookup : tmpls.functions.lookup base with
    | none =>
      rw [hlookup] at hp
      cases hp
    | some tmpl =>
      rw [hlookup] at hp
      obtain ⟨before, after, hfunctions, -⟩ := List.lookup_eq_some_iff.mp hlookup
      refine htmpls base tmpl ?_ p hp
      rw [hfunctions]
      exact List.mem_append_right before List.mem_cons_self
  exact (h tmpls m hstart).imp_left (fun hfin => hfin.subset (fun p hp => hp.first hfunction))

end Results

/-- `monomorphize` ends for a program that needs finitely many instances, or whose first round
    fails. When it ends, the instances of the first round were finitely many, or that round failed;
    where no generic function has a default, the two conditions are one. -/
theorem monomorphize_returns (program : List Node) :
    (FinitelyNeeded program → Returns program) ∧
      (Returns program → FinitelyFirstNeeded program) ∧
      (PlainTemplates program → (Returns program ↔ FinitelyNeeded program)) :=
  ⟨returns_of_finitelyNeeded, finitelyFirstNeeded_of_returns, fun hplain =>
    ⟨fun h => finitelyNeeded_of_plain hplain (finitelyFirstNeeded_of_returns h),
      returns_of_finitelyNeeded⟩⟩

section Boxes
open ErasedDescriptors

def callF (arg : TypeRef) : Node := .node (.functionCall (.named "f") [arg]) []

def bodyOf (call : Node) : List Node := [.node (.block true) [.node .expressionStatement [call]]]

def headF : FunctionHead := ⟨"f", none, none, [⟨"T", "any"⟩], [], none⟩

def headMain : FunctionHead := ⟨"main", none, none, [], [], none⟩

def headBox : StructHead := ⟨"Box", [⟨"T", "any"⟩], [("value", .named "T")]⟩

/-- `struct Box[T] { value: T }`, `fun f[T]() { f[Box[T]]() }` and `fun main() { f[i32]() }`. -/
def boxes : List Node :=
  [.node (.structDecl headBox) [],
    .node (.functionDeclaration headF) (bodyOf (callF (.generic (.named "Box") [.named "T"]))),
    .node (.functionDeclaration headMain) (bodyOf (callF (.named "i32")))]

def boxTemplates : Templates where
  functions := [("f", ⟨headF, bodyOf (callF (.generic (.named "Box") [.named "T"]))⟩)]
  structs := [("Box", ⟨headBox, []⟩)]

def boxMain : Node := .node (.functionDeclaration headMain) (bodyOf (callF (.named "i32")))

theorem start_boxes : start boxes =
    .ok (boxTemplates, ⟨[boxMain], [], [], [("main", .ordinary 0)], 0, .round⟩) := rfl

/-- The name of `Box[T]` for `T` of that name. -/
def boxed (s : String) : String := instanceName "Box" [.named s]

theorem walk_only_child {tmpls : Templates} {skip : Bool} {kind : Kind} {child out : Node}
    {asked : List Request} (hkind : rewriteNode tmpls kind [child] = pure (kind, true))
    (hdefaults : defaultCount kind = 0) (h : walk tmpls skip child = .ok (out, asked)) :
    walk tmpls skip (.node kind [child]) = .ok (.node kind [out], asked) := by
  have hall : walkAll tmpls skip 0 [child] = .ok ([out], asked) := by
    rw [walkAll]
    exact bind_ok.mpr ⟨out, asked, [], h, rfl, (List.append_nil asked).symm⟩
  rw [walk, hkind, hdefaults, ite_self]
  exact bind_ok.mpr ⟨_, [], asked, rfl, bind_ok.mpr ⟨_, asked, [], hall, rfl,
    (List.append_nil asked).symm⟩, rfl⟩

theorem walk_body {skip : Bool} (head : FunctionHead) (hhead : head.params = [] ∧
    head.returnType = none ∧ head.receiverType = none) {call out : Node} {asked : List Request}
    (h : walk boxTemplates skip call = .ok (out, asked)) :
    walk boxTemplates skip (.node (.functionDeclaration head) (bodyOf call)) =
      .ok (.node (.functionDeclaration head) (bodyOf out), asked) := by
  obtain ⟨hparams, hreturn, hreceiver⟩ := hhead
  refine walk_only_child ?_ ?_ (walk_only_child rfl rfl (walk_only_child rfl rfl h))
  · obtain ⟨name, receiverName, receiverType, typeParams, params, returnType⟩ := head
    subst hparams hreturn hreceiver
    rfl
  · rw [defaultCount, hparams]
    rfl

theorem rewriteType_name {s : String} (h : s ≠ "Box") :
    rewriteType boxTemplates (.named s) = pure (.named s) := by
  have hstruct : boxTemplates.isStruct s = false := by
    rw [Templates.isStruct, boxTemplates, List.lookup_cons, beq_eq_false_iff_ne.mpr h]
    rfl
  rw [rewriteType, hstruct]
  rfl

theorem rewriteTypes_name {s : String} (h : s ≠ "Box") :
    rewriteTypes boxTemplates [.named s] = .ok ([.named s], []) := by
  rw [rewriteTypes, rewriteType_name h]
  rfl

/-- A call of `f` at `arg` requests what its argument requests, and the instance. -/
theorem walk_callF (skip : Bool) {arg : TypeRef} {s : String} {asked : List Request}
    (h : rewriteTypes boxTemplates [arg] = .ok ([.named s], asked)) :
    ∃ out, walk boxTemplates skip (callF arg) = .ok (out, asked ++ [.function "f" [.named s]]) := by
  have hcall : rewriteCall boxTemplates (.named "f") [arg] =
      .ok (.functionCall (.named (instanceName "f" [.named s])) [],
        asked ++ [.function "f" [.named s]]) := by
    rw [rewriteCall]
    change (rewriteTypes boxTemplates [arg] >>= _ : Asks Kind) = _
    exact bind_ok.mpr ⟨_, asked, _, h, rfl, rfl⟩
  refine ⟨.node (.functionCall (.named (instanceName "f" [.named s])) []) [], ?_⟩
  rw [callF, walk, rewriteNode]
  refine bind_ok.mpr ⟨(.functionCall (.named (instanceName "f" [.named s])) [], true),
    asked ++ [.function "f" [.named s]], [], ?_, ?_, (List.append_nil _).symm⟩
  · exact bind_ok.mpr ⟨_, _, [], hcall, rfl, (List.append_nil _).symm⟩
  · cases skip <;> rfl

theorem walk_main : ∃ out, walk boxTemplates false boxMain =
    .ok (out, [.function "f" [.named "i32"]]) := by
  obtain ⟨out, hout⟩ := walk_callF false (rewriteTypes_name (s := "i32") (by decide))
  exact ⟨_, walk_body headMain ⟨rfl, rfl, rfl⟩ hout⟩

theorem walk_instance {s : String} (h : s ≠ "Box") :
    ∃ out, walk boxTemplates true (instanceOf boxTemplates (.function "f" [.named s])) =
      .ok (out, [.type "Box" [.named s], .function "f" [.named (boxed s)]]) := by
  have harg : rewriteTypes boxTemplates [.generic (.named "Box") [.named s]] =
      .ok ([.named (boxed s)], [.type "Box" [.named s]]) := by
    have hbox : rewriteType boxTemplates (.generic (.named "Box") [.named s]) =
        .ok (.named (boxed s), [.type "Box" [.named s]]) := by
      rw [rewriteType, bind_pure_eq (rewriteTypes_name h)]
      rfl
    rw [rewriteTypes, hbox]
    rfl
  obtain ⟨out, hout⟩ := walk_callF true harg
  exact ⟨_, walk_body ⟨instanceName "f" [.named s], none, none, [], [], none⟩
    ⟨rfl, rfl, rfl⟩ hout⟩

theorem walk_struct {s : String} (h : s ≠ "Box") :
    ∃ out, walk boxTemplates true (instanceOf boxTemplates (.type "Box" [.named s])) =
      .ok (out, []) := by
  have hfields : each (rewriteField boxTemplates) [("value", .named s)] =
      .ok ([("value", .named s)], []) := by
    rw [each, rewriteField, rewriteType_name h]
    rfl
  refine ⟨.node (.structDecl ⟨boxed s, [], [("value", .named s)]⟩) [], ?_⟩
  change walk boxTemplates true (.node (.structDecl ⟨boxed s, [], [("value", .named s)]⟩) []) = _
  rw [walk, rewriteNode, bind_pure_eq hfields]
  rfl

/-- A name that mangling leaves as it is. -/
structure Clean (chars : List Char) : Prop where
  words : ∀ c ∈ chars, isWordChar c = true
  first : ∀ c ∈ chars.head?, c ≠ '_'
  last : ∀ c ∈ chars.getLast?, c ≠ '_'

theorem collapse_words {chars : List Char} (h : ∀ c ∈ chars, isWordChar c = true) :
    collapse false chars = chars := by
  induction chars with
  | nil => rfl
  | cons c rest ih =>
    rw [collapse, if_pos (h c List.mem_cons_self),
      ih (fun c' hc' => h c' (List.mem_cons_of_mem c hc'))]

theorem dropWhile_first {chars : List Char} (h : ∀ c ∈ chars.head?, c ≠ '_') :
    chars.dropWhile (· == '_') = chars := by
  cases chars with
  | nil => rfl
  | cons c rest =>
    rw [List.dropWhile_cons_of_neg]
    simpa using h c rfl

theorem Clean.mangle {s : String} (h : Clean s.toList) : mangleType (.named s) = s := by
  rw [mangleType, formatTypeRef, collapse_words h.words, stripUnderscores, dropWhile_first h.first,
    dropWhile_first (by rw [List.head?_reverse]; exact h.last), List.reverse_reverse,
    String.ofList_toList]

theorem boxed_clean {s : String} (h : Clean s.toList) (hne : s.toList ≠ []) :
    (boxed s).toList = "Box__".toList ++ s.toList ∧ Clean (boxed s).toList := by
  have hboxed : (boxed s).toList = "Box__".toList ++ s.toList := by
    have hs : boxed s = "Box" ++ "__" ++ s := by
      rw [boxed, instanceName, List.map_singleton, h.mangle]
      rfl
    rw [hs, String.toList_append]
    rfl
  refine ⟨hboxed, ?_⟩
  rw [hboxed]
  refine ⟨fun c hc => ?_, fun c hc => ?_, fun c hc => ?_⟩
  · rcases List.mem_append.mp hc with hc | hc
    · have hprefix : "Box__".toList.all isWordChar = true := by decide
      exact List.all_eq_true.mp hprefix c hc
    · exact h.words c hc
  · cases hc
    decide
  · rw [List.getLast?_append_of_ne_nil _ hne] at hc
    exact h.last c hc

/-- The arguments at which `f` is requested. -/
def boxName : ℕ → String
  | 0 => "i32"
  | n + 1 => boxed (boxName n)

theorem boxName_clean (n : ℕ) :
    Clean (boxName n).toList ∧ (boxName n).toList.length = 5 * n + 3 := by
  induction n with
  | zero =>
    have hwords : "i32".toList.all isWordChar = true := by decide
    refine ⟨⟨List.all_eq_true.mp hwords, fun c hc => ?_, fun c hc => ?_⟩, rfl⟩
    · cases hc
      decide
    · cases hc
      decide
  | succ n ih =>
    obtain ⟨hclean, hlength⟩ := ih
    have hne : (boxName n).toList ≠ [] := by
      intro hnil
      rw [hnil] at hlength
      cases hlength
    obtain ⟨htoList, hclean'⟩ := boxed_clean hclean hne
    refine ⟨hclean', ?_⟩
    rw [boxName, htoList, List.length_append, hlength]
    change 5 + (5 * n + 3) = 5 * (n + 1) + 3
    omega

theorem boxName_ne (n : ℕ) : boxName n ≠ "Box" := by
  cases n with
  | zero => decide
  | succ n =>
    intro heq
    have hlength := (boxName_clean (n + 1)).2
    rw [heq] at hlength
    change 3 = 5 * (n + 1) + 3 at hlength
    omega

theorem boxName_inj {n k : ℕ} (h : boxName n = boxName k) : n = k := by
  have hn := (boxName_clean n).2
  have hk := (boxName_clean k).2
  rw [h] at hn
  omega

theorem boxes_needed (n : ℕ) :
    FirstNeeded boxTemplates [boxMain] (.function "f" [.named (boxName n)]) := by
  induction n with
  | zero =>
    obtain ⟨out, hout⟩ := walk_main
    exact .ordinary (r := .function "f" [.named "i32"]) List.mem_cons_self
      ⟨out, _, hout, List.mem_cons_self⟩
  | succ n ih =>
    obtain ⟨out, hout⟩ := walk_instance (boxName_ne n)
    exact .generated (r := .function "f" [.named (boxName (n + 1))]) ih
      ⟨out, _, hout, List.mem_cons_of_mem _ List.mem_cons_self⟩

/-- No other instances are needed. -/
theorem boxes_only {p : Made} (h : FirstNeeded boxTemplates [boxMain] p) :
    ∃ n, p = .function "f" [.named (boxName n)] ∨ p = .type "Box" [.named (boxName n)] := by
  induction h with
  | ordinary hstmt hr =>
    obtain ⟨out, hout⟩ := walk_main
    rw [List.mem_singleton] at hstmt
    subst hstmt
    obtain ⟨out', asked, hout', hr⟩ := hr
    rw [hout] at hout'
    cases hout'
    rw [List.mem_singleton] at hr
    subst hr
    exact ⟨0, Or.inl rfl⟩
  | generated _ hr ih =>
    obtain ⟨out', asked, hout', hr⟩ := hr
    obtain ⟨n, rfl | rfl⟩ := ih
    · obtain ⟨out, hout⟩ := walk_instance (boxName_ne n)
      rw [hout] at hout'
      cases hout'
      rcases List.mem_cons.mp hr with rfl | hr
      · exact ⟨n, Or.inr rfl⟩
      · rw [List.mem_singleton] at hr
        subst hr
        exact ⟨n + 1, Or.inl rfl⟩
    · obtain ⟨out, hout⟩ := walk_struct (boxName_ne n)
      rw [hout] at hout'
      cases hout'
      cases hr

theorem boxes_never_return : ¬Returns boxes := by
  intro h
  rcases finitelyFirstNeeded_of_returns h _ _ start_boxes with hfin | hraises
  · refine Set.infinite_of_injective_forall_mem (f := fun n => Made.function "f" [.named (boxName n)])
      (fun n k hnk => ?_) (fun n => boxes_needed n) hfin
    injection hnk with _ hargs
    injection hargs with hname
    injection hname with hname
    exact boxName_inj hname
  · rcases hraises with ⟨stmt, hstmt, e, herror⟩ | ⟨p, hp, e, herror⟩
    · obtain ⟨out, hout⟩ := walk_main
      change stmt ∈ [boxMain] at hstmt
      rw [List.mem_singleton] at hstmt
      rw [hstmt, hout] at herror
      cases herror
    · obtain ⟨n, rfl | rfl⟩ := boxes_only hp
      · obtain ⟨out, hout⟩ := walk_instance (boxName_ne n)
        rw [hout] at herror
        cases herror
      · obtain ⟨out, hout⟩ := walk_struct (boxName_ne n)
        rw [hout] at herror
        cases herror

end Boxes

end NewClLang.Monomorphization
