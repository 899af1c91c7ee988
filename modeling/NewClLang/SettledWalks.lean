import NewClLang.Monomorphization

set_option autoImplicit false

/-!
# Walks over what a walk has left

A second walk over a node finds no request in it, and changes nothing: it can only fail.
-/
namespace NewClLang.Monomorphization
open FallibleRuns ModuleSyntax RoseTrees TypeRefs
variable (tmpls : Templates)

section Types

theorem named_idle (name : String) : Idle (rewriteType tmpls (.named name)) (.named name) := by
  rw [rewriteType]
  split
  · exact idle_raise _ _
  · exact idle_pure _

mutual

theorem settles_rewriteType : ∀ t : TypeRef, Settles (rewriteType tmpls) t
  | .named name => by
    intro b asked h
    obtain ⟨rfl, -⟩ := named_idle tmpls name b asked h
    exact named_idle tmpls name
  | .pointer inner nullable => by
    intro b asked h
    rw [rewriteType] at h
    obtain ⟨inner', first, later, hinner, hb, -⟩ := bind_ok.mp h
    obtain ⟨rfl, -⟩ := pure_ok.mp hb
    rw [rewriteType]
    exact (settles_rewriteType inner inner' first hinner).bind (idle_pure _)
  | .slice elem => by
    intro b asked h
    rw [rewriteType] at h
    obtain ⟨elem', first, later, helem, hb, -⟩ := bind_ok.mp h
    obtain ⟨rfl, -⟩ := pure_ok.mp hb
    rw [rewriteType]
    exact (settles_rewriteType elem elem' first helem).bind (idle_pure _)
  | .array length elem => by
    intro b asked h
    rw [rewriteType] at h
    obtain ⟨elem', first, later, helem, hb, -⟩ := bind_ok.mp h
    obtain ⟨rfl, -⟩ := pure_ok.mp hb
    rw [rewriteType]
    exact (settles_rewriteType elem elem' first helem).bind (idle_pure _)
  | .function params ret fallible => by
    intro b asked h
    obtain ⟨rfl, -⟩ := pure_ok.mp h
    exact idle_pure _
  | .generic (.named base) args => by
    intro b asked h
    rw [rewriteType] at h
    obtain ⟨args', first, later, hargs, hrest, -⟩ := bind_ok.mp h
    by_cases hmap : base = "map"
    · rw [if_pos hmap] at hrest
      obtain ⟨rfl, -⟩ := pure_ok.mp hrest
      rw [rewriteType]
      exact (settles_rewriteTypes args args' first hargs).bind (idle_pure _)
    · rw [if_neg hmap] at hrest
      obtain ⟨_, _, _, _, hb, -⟩ := bind_ok.mp hrest
      obtain ⟨rfl, -⟩ := pure_ok.mp hb
      exact named_idle tmpls _
  | .generic (.pointer _ _) _ => fun _ _ h => by
    obtain ⟨rfl, -⟩ := pure_ok.mp h
    exact idle_pure _
  | .generic (.slice _) _ => fun _ _ h => by
    obtain ⟨rfl, -⟩ := pure_ok.mp h
    exact idle_pure _
  | .generic (.array _ _) _ => fun _ _ h => by
    obtain ⟨rfl, -⟩ := pure_ok.mp h
    exact idle_pure _
  | .generic (.function _ _ _) _ => fun _ _ h => by
    obtain ⟨rfl, -⟩ := pure_ok.mp h
    exact idle_pure _
  | .generic (.generic _ _) _ => fun _ _ h => by
    obtain ⟨rfl, -⟩ := pure_ok.mp h
    exact idle_pure _

theorem settles_rewriteTypes : ∀ ts : List TypeRef, Settles (rewriteTypes tmpls) ts
  | [] => by
    intro bs asked h
    obtain ⟨rfl, -⟩ := pure_ok.mp h
    exact idle_pure []
  | t :: ts => by
    intro bs asked h
    rw [rewriteTypes] at h
    obtain ⟨t', first, rest, ht, hrest, -⟩ := bind_ok.mp h
    obtain ⟨ts', second, last, hts, hlast, -⟩ := bind_ok.mp hrest
    obtain ⟨rfl, -⟩ := pure_ok.mp hlast
    rw [rewriteTypes]
    exact (settles_rewriteType t t' first ht).bind
      ((settles_rewriteTypes ts ts' second hts).bind (idle_pure _))

end

theorem rewriteTypes_isEmpty {ts ts' : List TypeRef} {asked : List Request}
    (h : rewriteTypes tmpls ts = .ok (ts', asked)) : ts'.isEmpty = ts.isEmpty := by
  cases ts with
  | nil =>
    obtain ⟨rfl, -⟩ := pure_ok.mp h
    rfl
  | cons t ts =>
    rw [rewriteTypes] at h
    obtain ⟨_, _, _, _, hrest, -⟩ := bind_ok.mp h
    obtain ⟨_, _, _, _, hlast, -⟩ := bind_ok.mp hrest
    obtain ⟨rfl, -⟩ := pure_ok.mp hlast
    rfl

theorem settles_rewriteOptional (t : Option TypeRef) : Settles (rewriteOptional tmpls) t := by
  intro b asked h
  cases t with
  | none =>
    obtain ⟨rfl, -⟩ := pure_ok.mp h
    exact idle_pure none
  | some t =>
    rw [rewriteOptional] at h
    obtain ⟨t', first, later, ht, hb, -⟩ := bind_ok.mp h
    obtain ⟨rfl, -⟩ := pure_ok.mp hb
    exact (settles_rewriteType tmpls t t' first ht).bind (idle_pure _)

theorem settles_rewriteParam (p : Param) : Settles (rewriteParam tmpls) p := by
  intro p' asked h
  obtain ⟨type, first, later, htype, hp, -⟩ := bind_ok.mp h
  obtain ⟨rfl, -⟩ := pure_ok.mp hp
  exact (settles_rewriteOptional tmpls p.type type first htype).bind (idle_pure _)

theorem settles_rewriteField (f : String × TypeRef) : Settles (rewriteField tmpls) f := by
  intro f' asked h
  obtain ⟨type, first, later, htype, hf, -⟩ := bind_ok.mp h
  obtain ⟨rfl, -⟩ := pure_ok.mp hf
  exact (settles_rewriteType tmpls f.2 type first htype).bind (idle_pure _)

end Types

section Nodes

/-- What a walk keeps of a node, whatever its class becomes. -/
structure SameShape (kind kind' : Kind) : Prop where
  defaults : defaultCount kind' = defaultCount kind
  omitted : ∀ argc, omittedOf argc kind' = omittedOf argc kind
  identifier : ∀ children children', identifierName (.node kind' children') =
    identifierName (.node kind children)
  declared : functionName kind' = functionName kind

theorem SameShape.refl (kind : Kind) : SameShape kind kind :=
  ⟨rfl, fun _ => rfl, fun _ _ => by cases kind <;> rfl, rfl⟩

theorem omitted_congr {ps ps' : List Param}
    (h : ps'.map Param.hasDefault = ps.map Param.hasDefault) :
    ∀ argc, omitted argc ps' = omitted argc ps := by
  induction ps generalizing ps' with
  | nil =>
    rw [List.map_nil, List.map_eq_nil_iff] at h
    intro argc
    rw [h]
  | cons p ps ih =>
    cases ps' with
    | nil => cases h
    | cons p' ps' =>
      rw [List.map_cons, List.map_cons, List.cons.injEq] at h
      intro argc
      cases argc with
      | zero => rw [omitted, omitted, h.1, ih h.2]
      | succ argc => rw [omitted, omitted, h.1, ih h.2]

theorem rewriteParams_hasDefault {ps ps' : List Param} {asked : List Request}
    (h : each (rewriteParam tmpls) ps = .ok (ps', asked)) :
    ps'.map Param.hasDefault = ps.map Param.hasDefault := by
  induction ps generalizing ps' asked with
  | nil =>
    obtain ⟨rfl, -⟩ := pure_ok.mp h
    rfl
  | cons p ps ih =>
    obtain ⟨p', first, rest, hp, hrest, -⟩ := bind_ok.mp h
    obtain ⟨ps', second, last, hps, hlast, -⟩ := bind_ok.mp hrest
    obtain ⟨rfl, -⟩ := pure_ok.mp hlast
    obtain ⟨type, _, _, _, hp', -⟩ := bind_ok.mp hp
    obtain ⟨rfl, -⟩ := pure_ok.mp hp'
    rw [List.map_cons, List.map_cons, ih hps]

theorem functionDeclaration_shape {head : FunctionHead} {params : List Param}
    {asked : List Request} (h : each (rewriteParam tmpls) head.params = .ok (params, asked))
    (returnType receiverType : Option TypeRef) :
    SameShape (.functionDeclaration head)
      (.functionDeclaration { head with params, returnType, receiverType }) := by
  have hparams := rewriteParams_hasDefault tmpls h
  refine ⟨?_, omitted_congr hparams, fun _ _ => rfl, rfl⟩
  change params.countP Param.hasDefault = head.params.countP Param.hasDefault
  have hcount : ∀ ps : List Param,
      ps.countP Param.hasDefault = (ps.map Param.hasDefault).countP id := fun ps => by
    rw [List.countP_map]
    rfl
  rw [hcount, hcount, hparams]

theorem normalize_plain {name name' : TypeRef} {typeArgs : List TypeRef}
    (h : normalizeCallTypeArgs name typeArgs = (name', [])) :
    normalizeCallTypeArgs name' [] = (name', []) := by
  cases typeArgs with
  | cons t ts => cases h
  | nil =>
    cases name with
    | generic base args =>
      cases base with
      | named base =>
        cases h
        rfl
      | _ =>
        cases h
        rfl
    | _ =>
      cases h
      rfl

/-- The node of a call that has been rewritten, when it is rewritten again. -/
theorem rewriteCall_idle {name : TypeRef} {typeArgs : List TypeRef} {kind : Kind}
    {asked : List Request} (h : rewriteCall tmpls name typeArgs = .ok (kind, asked)) :
    ∃ name', kind = .functionCall name' [] ∧ Idle (rewriteCall tmpls name' []) kind := by
  have hplain : ∀ name', (normalizeCallTypeArgs name' []) = (name', []) →
      Idle (rewriteCall tmpls name' []) (.functionCall name' []) := by
    intro name' hname
    rw [rewriteCall, hname]
    simp only [List.isEmpty_nil, if_true]
    split
    · exact idle_raise _ _
    · exact idle_pure _
  rw [rewriteCall] at h
  cases hnorm : normalizeCallTypeArgs name typeArgs with
  | mk base args =>
    rw [hnorm] at h
    by_cases hargs : args.isEmpty
    · simp only [hargs, if_true] at h
      split at h
      next => cases h
      next =>
        obtain ⟨rfl, -⟩ := pure_ok.mp h
        refine ⟨base, rfl, hplain base ?_⟩
        rw [List.isEmpty_iff] at hargs
        subst hargs
        exact normalize_plain hnorm
    · simp only [hargs, Bool.false_eq_true, if_false] at h
      obtain ⟨args', first, later, hargs', hrest, -⟩ := bind_ok.mp h
      by_cases hmap : formatTypeRef base = "map"
      · rw [if_pos hmap] at hrest
        obtain ⟨rfl, -⟩ := pure_ok.mp hrest
        refine ⟨_, rfl, ?_⟩
        have hne : args'.isEmpty = false := by
          rw [rewriteTypes_isEmpty tmpls hargs']
          simpa using hargs
        rw [rewriteCall]
        simp only [normalizeCallTypeArgs, List.isEmpty_nil, if_true, hne, Bool.false_eq_true,
          if_false]
        exact (settles_rewriteTypes tmpls args args' first hargs').bind (idle_pure _)
      · rw [if_neg hmap] at hrest
        obtain ⟨rewrittenName, _, _, _, hb, -⟩ := bind_ok.mp hrest
        obtain ⟨rfl, -⟩ := pure_ok.mp hb
        exact ⟨_, rfl, hplain _ rfl⟩

theorem rewriteFunctionValue_ok {name : String} {typeArgs : List TypeRef} {kind : Kind}
    {asked : List Request} (h : rewriteFunctionValue tmpls name typeArgs = .ok (kind, asked)) :
    ∃ name', kind = .genericFunctionValue name' [] := by
  rw [rewriteFunctionValue] at h
  split at h
  next =>
    obtain ⟨rfl, -⟩ := pure_ok.mp h
    exact ⟨name, rfl⟩
  next =>
    obtain ⟨args, _, _, _, hrest, -⟩ := bind_ok.mp h
    obtain ⟨name', _, _, _, hb, -⟩ := bind_ok.mp hrest
    obtain ⟨rfl, -⟩ := pure_ok.mp hb
    exact ⟨name', rfl⟩

/-- The walk of a node's own attributes: what they become has the shape they had, and a second walk
    leaves it, whatever the first has made of the children. -/
theorem rewriteNode_ok {kind kind' : Kind} {kept : Bool} {children : List Node}
    {asked : List Request} (h : rewriteNode tmpls kind children = .ok ((kind', kept), asked)) :
    SameShape kind kind' ∧ ∀ children' : List Node,
      (kept = true → children'.head?.bind identifierName = children.head?.bind identifierName) →
        Idle (rewriteNode tmpls kind' children') (kind', true) := by
  have hvalue : ∀ name children', Idle (rewriteNode tmpls (.genericFunctionValue name []) children')
      (.genericFunctionValue name [], true) := fun name children' =>
    (idle_pure (Kind.genericFunctionValue name [])).bind (idle_pure _)
  cases kind with
  | functionDeclaration head =>
    rw [rewriteNode] at h
    obtain ⟨params, first, rest, hparams, h, -⟩ := bind_ok.mp h
    obtain ⟨returnType, second, rest, hreturn, h, -⟩ := bind_ok.mp h
    obtain ⟨receiverType, third, rest, hreceiver, h, -⟩ := bind_ok.mp h
    obtain ⟨heq, -⟩ := pure_ok.mp h
    cases heq
    refine ⟨functionDeclaration_shape tmpls hparams returnType receiverType, fun _ _ => ?_⟩
    have hsettled := settles_each (fun p _ => settles_rewriteParam tmpls p) params first hparams
    exact hsettled.bind ((settles_rewriteOptional tmpls _ returnType second hreturn).bind
      ((settles_rewriteOptional tmpls _ receiverType third hreceiver).bind (idle_pure _)))
  | structDecl head =>
    rw [rewriteNode] at h
    obtain ⟨fields, first, rest, hfields, h, -⟩ := bind_ok.mp h
    obtain ⟨heq, -⟩ := pure_ok.mp h
    cases heq
    refine ⟨⟨rfl, fun _ => rfl, fun _ _ => rfl, rfl⟩, fun _ _ => ?_⟩
    exact (settles_each (fun f _ => settles_rewriteField tmpls f) fields first hfields).bind
      (idle_pure _)
  | structLiteral name fields =>
    rw [rewriteNode] at h
    obtain ⟨name', first, rest, hname, h, -⟩ := bind_ok.mp h
    obtain ⟨heq, -⟩ := pure_ok.mp h
    cases heq
    exact ⟨⟨rfl, fun _ => rfl, fun _ _ => rfl, rfl⟩, fun _ _ =>
      (settles_rewriteType tmpls name name' first hname).bind (idle_pure _)⟩
  | mapLiteral mapType =>
    rw [rewriteNode] at h
    obtain ⟨mapType', first, rest, hmapType, h, -⟩ := bind_ok.mp h
    obtain ⟨heq, -⟩ := pure_ok.mp h
    cases heq
    exact ⟨⟨rfl, fun _ => rfl, fun _ _ => rfl, rfl⟩, fun _ _ =>
      (settles_rewriteOptional tmpls mapType mapType' first hmapType).bind (idle_pure _)⟩
  | functionCall name typeArgs =>
    rw [rewriteNode] at h
    obtain ⟨call, first, rest, hcall, h, -⟩ := bind_ok.mp h
    obtain ⟨heq, -⟩ := pure_ok.mp h
    cases heq
    obtain ⟨name', rfl, hidle⟩ := rewriteCall_idle tmpls hcall
    exact ⟨⟨rfl, fun _ => rfl, fun _ _ => rfl, rfl⟩, fun _ _ => hidle.bind (idle_pure _)⟩
  | genericFunctionValue name typeArgs =>
    rw [rewriteNode] at h
    obtain ⟨value, first, rest, hval, h, -⟩ := bind_ok.mp h
    obtain ⟨heq, -⟩ := pure_ok.mp h
    cases heq
    obtain ⟨name', rfl⟩ := rewriteFunctionValue_ok tmpls hval
    exact ⟨⟨rfl, fun _ => rfl, fun _ _ => rfl, rfl⟩, fun children' _ => hvalue name' children'⟩
  | indexAccess candidate =>
    rw [rewriteNode] at h
    cases hindexed : indexedFunction tmpls candidate children with
    | some fn =>
      rw [hindexed] at h
      obtain ⟨value, first, rest, hval, h, -⟩ := bind_ok.mp h
      obtain ⟨heq, -⟩ := pure_ok.mp h
      cases heq
      obtain ⟨name', rfl⟩ := rewriteFunctionValue_ok tmpls hval
      exact ⟨⟨rfl, fun _ => rfl, fun _ _ => rfl, rfl⟩, fun children' _ => hvalue name' children'⟩
    | none =>
      rw [hindexed] at h
      obtain ⟨heq, -⟩ := pure_ok.mp h
      cases heq
      refine ⟨SameShape.refl _, fun children' hchildren => ?_⟩
      have hsame : indexedFunction tmpls candidate children' = none := by
        unfold indexedFunction at hindexed ⊢
        rw [hchildren rfl]
        exact hindexed
      rw [rewriteNode, hsame]
      exact idle_pure _
  | sizeOfType typeName =>
    rw [rewriteNode] at h
    obtain ⟨typeName', first, rest, htype, h, -⟩ := bind_ok.mp h
    obtain ⟨heq, -⟩ := pure_ok.mp h
    cases heq
    exact ⟨⟨rfl, fun _ => rfl, fun _ _ => rfl, rfl⟩, fun _ _ =>
      (settles_rewriteType tmpls typeName typeName' first htype).bind (idle_pure _)⟩
  | variableDeclaration name annotated =>
    rw [rewriteNode] at h
    obtain ⟨annotated', first, rest, htype, h, -⟩ := bind_ok.mp h
    obtain ⟨heq, -⟩ := pure_ok.mp h
    cases heq
    exact ⟨⟨rfl, fun _ => rfl, fun _ _ => rfl, rfl⟩, fun _ _ =>
      (settles_rewriteOptional tmpls annotated annotated' first htype).bind (idle_pure _)⟩
  | arrayLiteral length elemType =>
    rw [rewriteNode] at h
    obtain ⟨elemType', first, rest, htype, h, -⟩ := bind_ok.mp h
    obtain ⟨heq, -⟩ := pure_ok.mp h
    cases heq
    exact ⟨⟨rfl, fun _ => rfl, fun _ _ => rfl, rfl⟩, fun _ _ =>
      (settles_rewriteType tmpls elemType elemType' first htype).bind (idle_pure _)⟩
  | sliceLiteral elemType =>
    rw [rewriteNode] at h
    obtain ⟨elemType', first, rest, htype, h, -⟩ := bind_ok.mp h
    obtain ⟨heq, -⟩ := pure_ok.mp h
    cases heq
    exact ⟨⟨rfl, fun _ => rfl, fun _ _ => rfl, rfl⟩, fun _ _ =>
      (settles_rewriteOptional tmpls elemType elemType' first htype).bind (idle_pure _)⟩
  | _ =>
    obtain ⟨heq, -⟩ := pure_ok.mp h
    cases heq
    exact ⟨SameShape.refl _, fun _ _ => idle_pure _⟩

end Nodes

section Walks

theorem walk_ok {skip : Bool} {kind : Kind} {children : List Node} {node : Node}
    {asked : List Request} (h : walk tmpls skip (.node kind children) = .ok (node, asked)) :
    ∃ kind' kept, ∃ own : List Request,
      rewriteNode tmpls kind children = .ok ((kind', kept), own) ∧
      ((kept = false ∧ node = .node kind' [] ∧ asked = own) ∨
        kept = true ∧ ∃ children' below,
          walkAll tmpls skip (if skip then defaultCount kind else 0) children =
            .ok (children', below) ∧ node = .node kind' children' ∧ asked = own ++ below) := by
  rw [walk] at h
  obtain ⟨⟨kind', kept⟩, own, rest, hown, h, hasked⟩ := bind_ok.mp h
  refine ⟨kind', kept, own, hown, ?_⟩
  cases kept with
  | false =>
    obtain ⟨rfl, rfl⟩ := pure_ok.mp h
    exact Or.inl ⟨rfl, rfl, by rw [hasked, List.append_nil]⟩
  | true =>
    obtain ⟨children', below, last, hchildren, h, hrest⟩ := bind_ok.mp h
    obtain ⟨rfl, rfl⟩ := pure_ok.mp h
    exact Or.inr ⟨rfl, children', below, hchildren, rfl, by rw [hasked, hrest, List.append_nil]⟩

theorem walk_shape {skip : Bool} {node node' : Node} {asked : List Request}
    (h : walk tmpls skip node = .ok (node', asked)) : SameShape node.label node'.label := by
  cases node with
  | node kind children =>
    obtain ⟨kind', kept, own, hown, hnode⟩ := walk_ok tmpls h
    have hshape := (rewriteNode_ok tmpls hown).1
    rcases hnode with ⟨-, rfl, -⟩ | ⟨-, children', -, -, rfl, -⟩
    · exact hshape
    · exact hshape

theorem walk_identifier {skip : Bool} {node node' : Node} {asked : List Request}
    (h : walk tmpls skip node = .ok (node', asked)) :
    identifierName node' = identifierName node := by
  cases node with
  | node kind children =>
    cases node' with
    | node kind' children' => exact (walk_shape tmpls h).identifier children children'

theorem walkAll_head {skip : Bool} {skipped : ℕ} {children children' : List Node}
    {asked : List Request} (h : walkAll tmpls skip skipped children = .ok (children', asked)) :
    children'.head?.bind identifierName = children.head?.bind identifierName := by
  cases children with
  | nil =>
    cases skipped <;> obtain ⟨rfl, -⟩ := pure_ok.mp h <;> rfl
  | cons child children =>
    cases skipped with
    | succ skipped =>
      rw [walkAll] at h
      obtain ⟨rest, _, _, _, h, -⟩ := bind_ok.mp h
      obtain ⟨rfl, -⟩ := pure_ok.mp h
      rfl
    | zero =>
      rw [walkAll] at h
      obtain ⟨child', first, _, hchild, h, -⟩ := bind_ok.mp h
      obtain ⟨rest, _, _, _, h, -⟩ := bind_ok.mp h
      obtain ⟨rfl, -⟩ := pure_ok.mp h
      exact walk_identifier tmpls hchild

theorem settles_walkAll {skip : Bool} {children : List Node}
    (h : ∀ child ∈ children, Settles (walk tmpls skip) child) :
    ∀ skipped, Settles (walkAll tmpls skip skipped) children := by
  induction children with
  | nil =>
    intro skipped children' asked hok
    cases skipped <;> obtain ⟨rfl, -⟩ := pure_ok.mp hok <;> exact idle_pure []
  | cons child children ih =>
    have hrest : ∀ skipped, Settles (walkAll tmpls skip skipped) children :=
      ih (fun c hc => h c (List.mem_cons_of_mem child hc))
    intro skipped children' asked hok
    cases skipped with
    | succ skipped =>
      rw [walkAll] at hok
      obtain ⟨rest, first, _, hwalk, hok, -⟩ := bind_ok.mp hok
      obtain ⟨rfl, -⟩ := pure_ok.mp hok
      rw [walkAll]
      exact (hrest skipped rest first hwalk).bind (idle_pure _)
    | zero =>
      rw [walkAll] at hok
      obtain ⟨child', first, _, hchild, hok, -⟩ := bind_ok.mp hok
      obtain ⟨rest, second, _, hwalk, hok, -⟩ := bind_ok.mp hok
      obtain ⟨rfl, -⟩ := pure_ok.mp hok
      rw [walkAll]
      exact (h child List.mem_cons_self child' first hchild).bind
        ((hrest 0 rest second hwalk).bind (idle_pure _))

/-- A node that a walk has left is left as it is by the next one. -/
theorem settles_walk (skip : Bool) (node : Node) : Settles (walk tmpls skip) node := by
  induction node using RoseTree.induct with
  | hnode kind children ih =>
    intro node' asked h
    obtain ⟨kind', kept, own, hown, hnode⟩ := walk_ok tmpls h
    obtain ⟨hshape, hidle⟩ := rewriteNode_ok tmpls hown
    rcases hnode with ⟨rfl, rfl, -⟩ | ⟨rfl, children', below, hchildren, rfl, -⟩
    · rw [walk]
      refine (hidle [] (fun hkept => Bool.noConfusion hkept)).bind ?_
      change Idle (walkAll tmpls skip _ [] >>= fun children => pure (RoseTree.node kind' children)) _
      refine Idle.bind (a := []) ?_ (idle_pure _)
      cases (if skip then defaultCount kind' else 0) <;> exact idle_pure []
    · rw [walk]
      refine (hidle children' (fun _ => walkAll_head tmpls hchildren)).bind ?_
      change Idle (walkAll tmpls skip _ children' >>= fun children => pure (RoseTree.node kind' children)) _
      rw [hshape.defaults]
      exact (settles_walkAll tmpls ih _ children' below hchildren).bind (idle_pure _)

end Walks

section Defaults

theorem rewriteNode_functionDeclaration (head : FunctionHead) (children children' : List Node) :
    rewriteNode tmpls (.functionDeclaration head) children' =
      rewriteNode tmpls (.functionDeclaration head) children := rfl

theorem walkAll_append {skip : Bool} {skipped : ℕ} {children children' : List Node}
    {asked : List Request} :
    walkAll tmpls skip skipped children = .ok (children', asked) ↔
      ∃ rest, walkAll tmpls skip 0 (children.drop skipped) = .ok (rest, asked) ∧
        children' = children.take skipped ++ rest := by
  induction children generalizing skipped children' asked with
  | nil =>
    have hnil : ∀ n, walkAll tmpls skip n [] = pure [] := fun n => by cases n <;> rfl
    rw [List.drop_nil, List.take_nil, hnil, hnil]
    constructor
    · exact fun h => ⟨children', h, rfl⟩
    · rintro ⟨rest, h, rfl⟩
      exact h
  | cons child children ih =>
    cases skipped with
    | zero => simp
    | succ skipped =>
      rw [walkAll, List.drop_succ_cons, List.take_succ_cons]
      constructor
      · intro h
        obtain ⟨tail, first, last, htail, hlast, rfl⟩ := bind_ok.mp h
        obtain ⟨rfl, rfl⟩ := pure_ok.mp hlast
        obtain ⟨rest, hrest, rfl⟩ := ih.mp htail
        exact ⟨rest, by rw [List.append_nil]; exact hrest, rfl⟩
      · rintro ⟨rest, hrest, rfl⟩
        refine bind_ok.mpr ⟨children.take skipped ++ rest, asked, [], ih.mpr ⟨rest, hrest, rfl⟩, rfl,
          (List.append_nil asked).symm⟩

theorem callsAll_drop (skipped : ℕ) (children : List Node) :
    callsAll skipped children = callsAll 0 (children.drop skipped) := by
  induction children generalizing skipped with
  | nil => cases skipped <;> rfl
  | cons child children ih =>
    cases skipped with
    | zero => rfl
    | succ skipped => exact ih skipped

/-- Every node that a walk leaves among the children is left by a walk of its own. -/
theorem walkAll_mem {skip : Bool} {children children' : List Node} {asked : List Request}
    (h : walkAll tmpls skip 0 children = .ok (children', asked)) :
    ∀ child' ∈ children', ∃ child own, walk tmpls skip child = .ok (child', own) := by
  induction children generalizing children' asked with
  | nil =>
    obtain ⟨rfl, -⟩ := pure_ok.mp h
    exact fun _ hchild => absurd hchild List.not_mem_nil
  | cons child children ih =>
    rw [walkAll] at h
    obtain ⟨child', first, _, hchild, h, -⟩ := bind_ok.mp h
    obtain ⟨rest, second, _, hrest, h, -⟩ := bind_ok.mp h
    obtain ⟨rfl, -⟩ := pure_ok.mp h
    intro c hc
    rcases List.mem_cons.mp hc with rfl | hc
    · exact ⟨child, first, hchild⟩
    · exact ih hrest c hc

/-- After a walk that skips nothing, every child has been walked. -/
theorem walk_children {node node' : Node} {asked : List Request}
    (h : walk tmpls false node = .ok (node', asked)) :
    ∀ child ∈ node'.children, Idle (walk tmpls false child) child := by
  cases node with
  | node kind children =>
    obtain ⟨kind', kept, own, hown, hnode⟩ := walk_ok tmpls h
    rcases hnode with ⟨-, rfl, -⟩ | ⟨-, children', below, hbelow, rfl, -⟩
    · exact fun _ hchild => absurd hchild List.not_mem_nil
    · intro child' hchild'
      obtain ⟨child, own', hchild⟩ := walkAll_mem tmpls hbelow child' hchild'
      exact settles_walk tmpls false child child' own' hchild

/-- The children at the marks that are set. -/
def marked : List Bool → List Node → List Node
  | mark :: marks, child :: children =>
    if mark then child :: marked marks children else marked marks children
  | _, _ => []

theorem marked_subset (marks : List Bool) (children : List Node) :
    ∀ child ∈ marked marks children, child ∈ children := by
  induction children generalizing marks with
  | nil => cases marks <;> exact fun _ h => absurd h List.not_mem_nil
  | cons child children ih =>
    cases marks with
    | nil => exact fun _ h => absurd h List.not_mem_nil
    | cons mark marks =>
      intro c hc
      rw [marked] at hc
      split at hc
      · rcases List.mem_cons.mp hc with rfl | hc
        · exact List.mem_cons_self
        · exact List.mem_cons_of_mem child (ih marks c hc)
      · exact List.mem_cons_of_mem child (ih marks c hc)

theorem walkMarked_nil (marks : List Bool) : walkMarked tmpls marks [] = pure [] := by
  cases marks with
  | nil => rfl
  | cons mark marks => cases mark <;> rfl

/-- What the walk of some children asks for is asked for in one of them. Afterwards a child is still
    the one it was, at whichever marks it is looked up, or has nothing to ask for. The children past
    the marks are the same. -/
theorem walkMarked_ok {marks : List Bool} {children children' : List Node} {asked : List Request}
    (h : walkMarked tmpls marks children = .ok (children', asked)) :
    (∀ r ∈ asked, ∃ child ∈ marked marks children, AsksFor (walk tmpls false child) r) ∧
      (∀ marks', ∀ child ∈ marked marks' children', child ∈ marked marks' children ∨
        ∀ r, ¬AsksFor (walk tmpls false child) r) ∧
      children'.drop marks.length = children.drop marks.length := by
  induction children generalizing marks children' asked with
  | nil =>
    rw [walkMarked_nil] at h
    obtain ⟨rfl, rfl⟩ := pure_ok.mp h
    exact ⟨fun _ hr => absurd hr List.not_mem_nil, fun marks' child hc => Or.inl hc, rfl⟩
  | cons child children ih =>
    cases marks with
    | nil =>
      obtain ⟨rfl, rfl⟩ := pure_ok.mp h
      exact ⟨fun _ hr => absurd hr List.not_mem_nil, fun marks' child hc => Or.inl hc, rfl⟩
    | cons mark marks =>
      cases mark with
      | true =>
        rw [walkMarked] at h
        obtain ⟨child', first, rest, hchild, hrest, rfl⟩ := bind_ok.mp h
        obtain ⟨tail, second, last, htail, hlast, rfl⟩ := bind_ok.mp hrest
        obtain ⟨rfl, rfl⟩ := pure_ok.mp hlast
        obtain ⟨hasks, hkept, hdrop⟩ := ih htail
        have hidle := settles_walk tmpls false child child' first hchild
        refine ⟨fun r hr => ?_, fun marks' c hc => ?_, hdrop⟩
        · rw [List.append_nil] at hr
          rw [marked, if_pos rfl]
          rcases List.mem_append.mp hr with hr | hr
          · exact ⟨child, List.mem_cons_self, child', first, hchild, hr⟩
          · obtain ⟨c, hc, hask⟩ := hasks r hr
            exact ⟨c, List.mem_cons_of_mem child hc, hask⟩
        · cases marks' with
          | nil => exact absurd hc List.not_mem_nil
          | cons mark' marks' =>
            rw [marked] at hc ⊢
            cases mark' with
            | true =>
              rcases List.mem_cons.mp hc with rfl | hc
              · exact Or.inr hidle.asksFor
              · exact (hkept marks' c hc).imp_left (List.mem_cons_of_mem child)
            | false => exact hkept marks' c hc
      | false =>
        rw [walkMarked] at h
        obtain ⟨tail, second, last, htail, hlast, rfl⟩ := bind_ok.mp h
        obtain ⟨rfl, rfl⟩ := pure_ok.mp hlast
        obtain ⟨hasks, hkept, hdrop⟩ := ih htail
        refine ⟨fun r hr => ?_, fun marks' c hc => ?_, hdrop⟩
        · rw [List.append_nil] at hr
          exact hasks r hr
        · cases marks' with
          | nil => exact absurd hc List.not_mem_nil
          | cons mark' marks' =>
            rw [marked] at hc ⊢
            cases mark' with
            | true =>
              rcases List.mem_cons.mp hc with rfl | hc
              · exact Or.inl List.mem_cons_self
              · exact (hkept marks' c hc).imp_left (List.mem_cons_of_mem _)
            | false => exact hkept marks' c hc

theorem walkMarked_idle {marks : List Bool} {children : List Node}
    (h : ∀ child ∈ children, Idle (walk tmpls false child) child) :
    Idle (walkMarked tmpls marks children) children := by
  induction children generalizing marks with
  | nil =>
    rw [walkMarked_nil]
    exact idle_pure []
  | cons child children ih =>
    cases marks with
    | nil => exact idle_pure _
    | cons mark marks =>
      have hrest : Idle (walkMarked tmpls marks children) children :=
        ih (fun c hc => h c (List.mem_cons_of_mem child hc))
      cases mark with
      | true => exact (h child List.mem_cons_self).bind (hrest.bind (idle_pure _))
      | false => exact hrest.bind (idle_pure _)

theorem omitted_length (params : List Param) (argc : ℕ) :
    (omitted argc params).length = params.countP Param.hasDefault := by
  induction params generalizing argc with
  | nil => cases argc <;> rfl
  | cons p ps ih =>
    rw [List.countP_cons]
    cases argc with
    | zero =>
      rw [omitted]
      split
      · rw [List.length_cons, ih]
      · rw [ih, Nat.add_zero]
    | succ argc =>
      rw [omitted]
      split
      · rw [List.length_cons, ih]
      · rw [ih, Nat.add_zero]

theorem callsAll_append {skip : Bool} {skipped : ℕ} {children rest : List Node}
    {asked : List Request} (h : walkAll tmpls skip 0 (children.drop skipped) = .ok (rest, asked)) :
    callsAll skipped (children.take skipped ++ rest) = callsAll 0 rest := by
  induction children generalizing skipped with
  | nil =>
    rw [List.drop_nil] at h
    obtain ⟨rfl, -⟩ := pure_ok.mp h
    rw [List.take_nil, callsAll_drop, List.append_nil, List.drop_nil]
  | cons child children ih =>
    cases skipped with
    | zero => rfl
    | succ skipped => exact ih h

/-- A walk that skips the defaults asks for the same, and leaves the same calls, whatever they are. -/
theorem walk_defaults {head : FunctionHead} {children children' : List Node}
    (hsame : children'.drop (head.params.countP Param.hasDefault) =
      children.drop (head.params.countP Param.hasDefault)) {node' : Node} {asked : List Request}
    (h : walk tmpls true (.node (.functionDeclaration head) children') = .ok (node', asked)) :
    ∃ node, walk tmpls true (.node (.functionDeclaration head) children) = .ok (node, asked) ∧
      calls node = calls node' := by
  obtain ⟨kind', kept, own, hown, hnode⟩ := walk_ok tmpls h
  have hshape := (rewriteNode_ok tmpls hown).1
  rw [rewriteNode_functionDeclaration tmpls head children] at hown
  have hdefaults : defaultCount kind' = head.params.countP Param.hasDefault := hshape.defaults
  have hcall : ∀ cs, callOf kind' cs = [] := by
    intro cs
    cases kind' with
    | functionCall name typeArgs => cases hshape.declared
    | _ => rfl
  rcases hnode with ⟨rfl, rfl, rfl⟩ | ⟨rfl, out', below, hout, rfl, rfl⟩
  · refine ⟨.node kind' [], ?_, rfl⟩
    rw [walk]
    exact bind_ok.mpr ⟨_, asked, [], hown, rfl, (List.append_nil asked).symm⟩
  · obtain ⟨rest, hrest, rfl⟩ := (walkAll_append tmpls).mp hout
    rw [if_pos rfl] at hrest
    change walkAll tmpls true 0 (children'.drop (head.params.countP _)) = _ at hrest
    rw [hsame] at hrest
    have hwalk := (walkAll_append tmpls).mpr ⟨rest, hrest, rfl⟩
    refine ⟨.node kind' (children.take (head.params.countP Param.hasDefault) ++ rest), ?_, ?_⟩
    · rw [walk]
      refine bind_ok.mpr ⟨_, own, below, hown, ?_, rfl⟩
      exact bind_ok.mpr ⟨_, below, [], hwalk, rfl, (List.append_nil below).symm⟩
    · rw [calls, calls, hcall, hcall, hdefaults]
      rw [if_pos rfl]
      change _ ++ _ = _ ++ callsAll _ (children'.take (head.params.countP _) ++ rest)
      rw [callsAll_append tmpls hrest]
      rw [hsame.symm] at hrest
      rw [callsAll_append tmpls hrest]

theorem marked_append {skip : Bool} {skipped : ℕ} {children rest : List Node}
    {asked : List Request} (h : walkAll tmpls skip 0 (children.drop skipped) = .ok (rest, asked))
    {marks : List Bool} (hmarks : marks.length ≤ skipped) :
    marked marks (children.take skipped ++ rest) = marked marks children := by
  induction children generalizing skipped marks with
  | nil =>
    rw [List.drop_nil] at h
    obtain ⟨rfl, -⟩ := pure_ok.mp h
    rw [List.take_nil, List.append_nil]
  | cons child children ih =>
    cases marks with
    | nil => rw [marked.eq_def, marked.eq_def]
    | cons mark marks =>
      cases skipped with
      | zero => exact absurd hmarks (Nat.not_succ_le_zero _)
      | succ skipped =>
        rw [List.take_succ_cons, List.cons_append, marked, marked,
          ih h (Nat.le_of_succ_le_succ hmarks)]

/-- A walk that skips the defaults leaves them where they are. -/
theorem walk_marked {node node' : Node} {asked : List Request}
    (h : walk tmpls true node = .ok (node', asked)) {argc : ℕ} {expr : Node}
    (hexpr : expr ∈ marked (omittedOf argc node'.label) node'.children) :
    expr ∈ marked (omittedOf argc node.label) node.children := by
  rw [(walk_shape tmpls h).omitted argc] at hexpr
  cases node with
  | node kind children =>
    obtain ⟨kind', kept, own, hown, hnode⟩ := walk_ok tmpls h
    have hlength : (omittedOf argc kind).length ≤ defaultCount kind := by
      cases kind with
      | functionDeclaration head => exact Nat.le_of_eq (omitted_length head.params argc)
      | _ => exact Nat.zero_le _
    rcases hnode with ⟨-, rfl, -⟩ | ⟨-, children', below, hbelow, rfl, -⟩
    · exact absurd (marked_subset _ _ expr hexpr) List.not_mem_nil
    · obtain ⟨rest, hrest, rfl⟩ := (walkAll_append tmpls).mp hbelow
      rw [if_pos rfl] at hrest hexpr
      change expr ∈ marked (omittedOf argc kind) (children.take (defaultCount kind) ++ rest) at hexpr
      rw [marked_append tmpls hrest hlength] at hexpr
      exact hexpr

end Defaults

end NewClLang.Monomorphization
