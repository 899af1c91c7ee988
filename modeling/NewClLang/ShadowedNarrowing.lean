import Mathlib.Data.List.Nodup
import NewClLang.IdentifierTypes
import NewClLang.NestingDepth

set_option autoImplicit false

/-!
# Narrowing under shadowing

Narrowed variables are kept by name, so an identifier that names another declaration is given the
type of the variable that a condition tested, and that declaration may not be assigned. An
identifier has the type of its declaration where the narrowing in force for its name, if there is
one, is of that declaration.
-/
namespace NewClLang.ShadowedNarrowing
open TypeRefs StatefulRuns IdentifierTypes NestingDepth

/-- The type that the declaration in scope gives to an identifier. -/
def due (r : Reading) : Option TypeRef :=
  match r.declared with
  | some sym => if sym.decl ∈ r.tested then nonnullable sym.type else some sym.type
  | none => r.globalType

def ReadingRight (r : Reading) : Prop := due r = some r.assigned

/-- A narrowing in force for the name is of the declaration in scope, which a condition around the
    place in its function tests; without one, the symbol found is that declaration. Else the stacks
    happen to hold the same type. -/
def ReadingUndisturbed (r : Reading) : Prop :=
  match r.narrowing with
  | some e =>
      (∃ sym, r.declared = some sym ∧ sym.decl ∈ r.tested ∧ e.decl = sym.decl) ∨
        due r = some e.type
  | none => r.found = r.declared ∨ ∃ sym, r.found = some sym ∧ due r = some sym.type

def DeclarationTested (a : Assigning) : Prop := ∃ sym, a.declared = some sym ∧ sym.decl ∈ a.tested

def AssigningRight (a : Assigning) : Prop := a.banned = true ↔ DeclarationTested a

/-- A narrowing in force for the name comes with a test of the declaration in scope. -/
def AssigningUndisturbed (a : Assigning) : Prop := a.narrowing.isSome → DeclarationTested a

def Right (s : State) : Prop :=
  (∀ r ∈ s.readings, ReadingRight r) ∧ ∀ a ∈ s.assignings, AssigningRight a

def Undisturbed (s : State) : Prop :=
  (∀ r ∈ s.readings, ReadingUndisturbed r) ∧ ∀ a ∈ s.assignings, AssigningUndisturbed a

/-- What holds wherever the walk ends. -/
structure Settled (s : State) : Prop where
  followed : s.exhausted = false
  readings : ∀ r ∈ s.readings, (ReadingRight r ↔ ReadingUndisturbed r)
  assignings : ∀ a ∈ s.assignings, (AssigningRight a ↔ AssigningUndisturbed a)

/-- A narrowing holds the non-nullable type of its declaration. -/
def Narrows (declared : List Symbol) (e : Narrowed) : Prop :=
  ∃ sym ∈ declared, e.name = sym.name ∧ e.decl = sym.decl ∧ nonnullable sym.type = some e.type

/-- What holds while the walk goes on. -/
structure Coherent (p : Program) (n : ℕ) (s : State) : Prop where
  settled : Settled s
  numbered : s.declared.map Symbol.decl = List.range s.declared.length
  scopes : ∀ scope ∈ s.scopes, ∀ sym ∈ scope, sym ∈ s.declared
  narrowed : ∀ e ∈ s.narrowed, Narrows s.declared e
  marked : ∀ m ∈ s.narrowedVars, Narrows s.declared m.2
  tested : ∀ d ∈ s.tested, ∃ e ∈ s.narrowed, e.decl = d
  room : Room p.top n s.resolving

/-- A walk leaves the stacks of narrowings as they were. -/
structure Extends (s s' : State) : Prop where
  declared : ∀ sym ∈ s.declared, sym ∈ s'.declared
  narrowed : s'.narrowed = s.narrowed
  tested : s'.tested = s.tested
  resolving : s'.resolving = s.resolving

section Facts
variable {p : Program} {n : ℕ} {s s' : State} {name : String} {sym : Symbol}

theorem Extends.refl (s : State) : Extends s s := ⟨fun _ h => h, rfl, rfl, rfl⟩

theorem Extends.trans {s'' : State} (h : Extends s s') (h' : Extends s' s'') : Extends s s'' where
  declared sym hsym := h'.declared sym (h.declared sym hsym)
  narrowed := h'.narrowed.trans h.narrowed
  tested := h'.tested.trans h.tested
  resolving := h'.resolving.trans h.resolving

theorem Narrows.mono {declared declared' : List Symbol} {e : Narrowed} (h : Narrows declared e)
    (hsub : ∀ sym ∈ declared, sym ∈ declared') : Narrows declared' e := by
  obtain ⟨sym, hsym, hname, hdecl, htype⟩ := h
  exact ⟨sym, hsub sym hsym, hname, hdecl, htype⟩

theorem lookup_some {scopes : List (List Symbol)} (h : lookup scopes name = some sym) :
    (∃ scope ∈ scopes, sym ∈ scope) ∧ sym.name = name := by
  rw [lookup] at h
  have hname := List.find?_some h
  rw [beq_iff_eq] at hname
  exact ⟨List.mem_flatten.1 (List.mem_of_find?_eq_some h), hname⟩

theorem mem_scopes_of_lexical {scope : List Symbol} (h : scope ∈ s.lexical) : scope ∈ s.scopes := by
  rw [State.lexical, List.mem_append] at h
  rcases h with h | h
  · exact List.mem_of_mem_take h
  · rw [Option.mem_toList] at h
    exact List.mem_of_mem_drop (List.mem_of_getLast? h)

theorem lookup_lexical_none (h : lookup s.scopes name = none) : lookup s.lexical name = none := by
  rw [lookup, List.find?_eq_none] at h ⊢
  intro sym hsym
  obtain ⟨scope, hscope, hmem⟩ := List.mem_flatten.1 hsym
  exact h sym (List.mem_flatten.2 ⟨scope, mem_scopes_of_lexical hscope, hmem⟩)

theorem Coherent.lookup_declared (hs : Coherent p n s) (h : lookup s.scopes name = some sym) :
    sym ∈ s.declared := by
  obtain ⟨⟨scope, hscope, hmem⟩, -⟩ := lookup_some h
  exact hs.scopes scope hscope sym hmem

theorem Coherent.lexical_declared (hs : Coherent p n s) (h : lookup s.lexical name = some sym) :
    sym ∈ s.declared := by
  obtain ⟨⟨scope, hscope, hmem⟩, -⟩ := lookup_some h
  exact hs.scopes scope (mem_scopes_of_lexical hscope) sym hmem

theorem Coherent.decl_inj (hs : Coherent p n s) {a b : Symbol} (ha : a ∈ s.declared)
    (hb : b ∈ s.declared) (h : a.decl = b.decl) : a = b := by
  have hnodup : (s.declared.map Symbol.decl).Nodup := by
    rw [hs.numbered]
    exact List.nodup_range
  exact List.inj_on_of_nodup_map hnodup ha hb h

/-- The narrowing of a declaration is known by its number. -/
theorem Coherent.narrowing_of (hs : Coherent p n s) {e : Narrowed} (he : e ∈ s.narrowed)
    (hsym : sym ∈ s.declared) (hdecl : e.decl = sym.decl) :
    e.name = sym.name ∧ nonnullable sym.type = some e.type := by
  obtain ⟨tested, htested, hname, hnumber, htype⟩ := hs.narrowed e he
  have hsame := hs.decl_inj htested hsym (hnumber.symm.trans hdecl)
  rw [hsame] at hname htype
  exact ⟨hname, htype⟩

theorem lookupNarrowed_mem {narrowed : List Narrowed} {e : Narrowed}
    (h : lookupNarrowed narrowed name = some e) : e ∈ narrowed := List.mem_of_find?_eq_some h

/-- A declaration that is tested where it is in scope has a narrowing in force for its name. -/
theorem Coherent.narrowed_of_tested (hs : Coherent p n s) (hsym : lookup s.lexical name = some sym)
    (htested : sym.decl ∈ s.tested) : lookupNarrowed s.narrowed name ≠ none := by
  obtain ⟨e, he, hdecl⟩ := hs.tested sym.decl htested
  have hname := (hs.narrowing_of he (hs.lexical_declared hsym) hdecl).left
  intro hnone
  rw [lookupNarrowed, List.find?_eq_none] at hnone
  apply hnone e he
  rw [hname, (lookup_some hsym).right]
  exact beq_self_eq_true name

end Facts

section Logs
variable {p : Program} {n : ℕ} {s : State} {name : String}

/-- An identifier that is given the type of the narrowing in force for its name. -/
theorem narrowed_right_iff (hs : Coherent p n s) {e : Narrowed}
    (he : lookupNarrowed s.narrowed name = some e) (globalType : Option TypeRef)
    (found : Option Symbol) :
    ReadingRight ⟨lookup s.lexical name, globalType, s.tested, found, some e, e.type⟩ ↔
      ReadingUndisturbed ⟨lookup s.lexical name, globalType, s.tested, found, some e, e.type⟩ := by
  constructor
  · exact Or.inr
  · rintro (⟨sym, hsym, htested, hdecl⟩ | h)
    · have htype := (hs.narrowing_of (lookupNarrowed_mem he) (hs.lexical_declared hsym) hdecl).right
      rw [ReadingRight, due]
      dsimp only at hsym htested ⊢
      rw [hsym]
      dsimp only
      rw [if_pos htested, htype]
    · exact h

/-- A variable for whose name no narrowing is in force. -/
theorem found_right_iff (hs : Coherent p n s) (hnone : lookupNarrowed s.narrowed name = none)
    (globalType : Option TypeRef) (sym : Symbol) :
    ReadingRight ⟨lookup s.lexical name, globalType, s.tested, some sym, none, sym.type⟩ ↔
      ReadingUndisturbed ⟨lookup s.lexical name, globalType, s.tested, some sym, none, sym.type⟩ := by
  constructor
  · exact fun h => Or.inr ⟨sym, rfl, h⟩
  · rintro (h | ⟨sym', hsym', h⟩)
    · rw [ReadingRight, due]
      dsimp only at h ⊢
      rw [← h]
      dsimp only
      have huntested : sym.decl ∉ s.tested := fun htested =>
        hs.narrowed_of_tested h.symm htested hnone
      rw [if_neg huntested]
    · cases hsym'
      exact h

/-- A name that is no variable, where no narrowing is in force for it. -/
theorem global_right_iff (hnone : lookup s.scopes name = none) (type : TypeRef) :
    ReadingRight ⟨lookup s.lexical name, some type, s.tested, none, none, type⟩ ↔
      ReadingUndisturbed ⟨lookup s.lexical name, some type, s.tested, none, none, type⟩ := by
  rw [lookup_lexical_none hnone]
  exact iff_of_true rfl (Or.inl rfl)

theorem assigning_right_iff (hs : Coherent p n s) :
    AssigningRight ⟨lookup s.lexical name, s.tested, lookupNarrowed s.narrowed name,
        (lookupNarrowed s.narrowed name).isSome⟩ ↔
      AssigningUndisturbed ⟨lookup s.lexical name, s.tested, lookupNarrowed s.narrowed name,
        (lookupNarrowed s.narrowed name).isSome⟩ := by
  constructor
  · exact fun h => h.1
  · intro h
    refine ⟨h, ?_⟩
    rintro ⟨sym, hsym, htested⟩
    exact Option.isSome_iff_ne_none.2 (hs.narrowed_of_tested hsym htested)

end Logs

section Steps
variable {p : Program} {n : ℕ} {s t : State} {base : List Symbol} {α β : Type}

/-- A step that makes no declaration and leaves the narrowings alone. -/
structure Same (s t : State) : Prop where
  declared : t.declared = s.declared
  narrowed : t.narrowed = s.narrowed
  tested : t.tested = s.tested
  resolving : t.resolving = s.resolving

theorem Same.extends (h : Same s t) : Extends s t where
  declared sym hsym := by
    rw [h.declared]
    exact hsym
  narrowed := h.narrowed
  tested := h.tested
  resolving := h.resolving

theorem Coherent.same (hs : Coherent p n s) (h : Same s t) (hsettled : Settled t)
    (hscopes : ∀ scope ∈ t.scopes, ∀ sym ∈ scope, sym ∈ s.declared)
    (hmarked : ∀ m ∈ t.narrowedVars, Narrows s.declared m.2) : Coherent p n t := by
  obtain ⟨hdeclared, hnarrowed, htested, hresolving⟩ := h
  constructor
  case settled => exact hsettled
  case numbered => rw [hdeclared, hs.numbered]
  case scopes => rwa [hdeclared]
  case narrowed =>
    rw [hdeclared, hnarrowed]
    exact hs.narrowed
  case marked => rwa [hdeclared]
  case tested =>
    rw [hnarrowed, htested]
    exact hs.tested
  case room =>
    rw [hresolving]
    exact hs.room

/-- After a walk, with the narrowings of the state before it. -/
theorem Coherent.restore {m : ℕ} {s' : State} (hs : Coherent p n s) (hs' : Coherent p m s')
    (hdeclared : ∀ sym ∈ s.declared, sym ∈ s'.declared) (h : t.declared = s'.declared)
    (hsettled : Settled t) (hscopes : t.scopes = s'.scopes)
    (hmarked : t.narrowedVars = s'.narrowedVars) (hnarrowed : t.narrowed = s.narrowed)
    (htested : t.tested = s.tested) (hresolving : t.resolving = s.resolving) :
    Coherent p n t ∧ Extends s t := by
  constructor
  · constructor
    case settled => exact hsettled
    case numbered => rw [h, hs'.numbered]
    case scopes =>
      rw [h, hscopes]
      exact hs'.scopes
    case narrowed =>
      rw [h, hnarrowed]
      exact fun e he => (hs.narrowed e he).mono hdeclared
    case marked =>
      rw [h, hmarked]
      exact hs'.marked
    case tested =>
      rw [hnarrowed, htested]
      exact hs.tested
    case room =>
      rw [hresolving]
      exact hs.room
  · constructor
    case declared => rwa [h]
    case narrowed => exact hnarrowed
    case tested => exact htested
    case resolving => exact hresolving

/-- A walk keeps the state coherent. Its value is about the declarations made so far, which include
    those of `base`. -/
def Walks (p : Program) (n : ℕ) (base : List Symbol) (x : Walk α)
    (post : List Symbol → α → Prop) : Prop :=
  ∀ s, Coherent p n s → (∀ sym ∈ base, sym ∈ s.declared) →
    Ends x s (fun a s' => (Coherent p n s' ∧ Extends s s') ∧ post s'.declared a) Settled

def anything (_ : List Symbol) (_ : α) : Prop := True

theorem walks_mono {base' : List Symbol} {x : Walk α} {post : List Symbol → α → Prop}
    (h : Walks p n base x post) (hsub : ∀ sym ∈ base, sym ∈ base') : Walks p n base' x post :=
  fun s hs hbase => h s hs (fun sym hsym => hbase sym (hsub sym hsym))

theorem walks_of_nil {x : Walk α} {post : List Symbol → α → Prop} (h : Walks p n [] x post) :
    Walks p n base x post :=
  walks_mono h (fun _ hsym => absurd hsym List.not_mem_nil)

/-- A walk after another. -/
theorem Walks.after {x : Walk α} {post : List Symbol → α → Prop} (h : Walks p n t.declared x post)
    (ht : Coherent p n t) (hext : Extends s t) :
    Ends x t (fun a s' => (Coherent p n s' ∧ Extends s s') ∧ post s'.declared a) Settled := by
  apply ends_mono (h t ht (fun _ hsym => hsym))
  rintro a s' ⟨⟨hs', hext'⟩, hpost⟩
  exact ⟨⟨hs', hext.trans hext'⟩, hpost⟩

theorem walks_bind {x : Walk α} {f : α → Walk β} {mid : List Symbol → α → Prop}
    {post : List Symbol → β → Prop} (hx : Walks p n base x mid)
    (hf : ∀ a base', (∀ sym ∈ base, sym ∈ base') → mid base' a → Walks p n base' (f a) post) :
    Walks p n base (x >>= f) post := by
  intro s hs hbase
  apply ends_bind (hx s hs hbase)
  rintro a s₁ ⟨⟨hs₁, hext₁⟩, hmid⟩
  have hbase₁ : ∀ sym ∈ base, sym ∈ s₁.declared := fun sym h => hext₁.declared sym (hbase sym h)
  exact (hf a s₁.declared hbase₁ hmid).after hs₁ hext₁

/-- Steps one after the other, where nothing is asked of the value of the first. -/
theorem walks_then {x : Walk α} {f : α → Walk β} {post : List Symbol → β → Prop}
    (hx : Walks p n base x anything) (hf : ∀ a, Walks p n base (f a) post) :
    Walks p n base (x >>= f) post :=
  walks_bind hx (fun a _ hsub _ => walks_mono (hf a) hsub)

theorem walks_get {f : State → Walk α} {post : List Symbol → α → Prop}
    (hf : ∀ s, Walks p n base (f s) post) : Walks p n base (get >>= f) post :=
  fun s hs hbase => hf s s hs hbase

theorem walks_pure {a : α} {post : List Symbol → α → Prop}
    (h : ∀ declared : List Symbol, (∀ sym ∈ base, sym ∈ declared) → post declared a) :
    Walks p n base (pure a) post :=
  fun s hs hbase => ⟨⟨hs, Extends.refl s⟩, h s.declared hbase⟩

theorem walks_done (a : α) : Walks p n base (pure a) anything := walks_pure (fun _ _ => trivial)

theorem walks_throw {post : List Symbol → α → Prop} (failure : Failure) :
    Walks p n base (throw failure : Walk α) post :=
  fun _ hs _ => hs.settled

theorem walks_forget {x : Walk α} {post : List Symbol → α → Prop} (h : Walks p n base x post) :
    Walks p n base x anything := by
  intro s hs hbase
  apply ends_mono (h s hs hbase)
  rintro a s' ⟨hafter, -⟩
  exact ⟨hafter, trivial⟩

theorem walks_pushScope : Walks p n base pushScope anything := by
  intro s hs _
  have hsame : Same s { s with scopes := [] :: s.scopes, ownScopes := s.ownScopes + 1 } :=
    ⟨rfl, rfl, rfl, rfl⟩
  refine ⟨⟨hs.same hsame ?_ ?_ hs.marked, hsame.extends⟩, trivial⟩
  · exact ⟨hs.settled.followed, hs.settled.readings, hs.settled.assignings⟩
  · exact List.forall_mem_cons.2 ⟨fun _ h => absurd h List.not_mem_nil, hs.scopes⟩

theorem walks_popScope : Walks p n base popScope anything := by
  intro s hs _
  have hsame : Same s { s with scopes := s.scopes.tail, ownScopes := s.ownScopes - 1 } :=
    ⟨rfl, rfl, rfl, rfl⟩
  refine ⟨⟨hs.same hsame ?_ ?_ hs.marked, hsame.extends⟩, trivial⟩
  · exact ⟨hs.settled.followed, hs.settled.readings, hs.settled.assignings⟩
  · exact fun scope h => hs.scopes scope (List.mem_of_mem_tail h)

theorem walks_inScope {x : Walk α} (hx : Walks p n base x anything) :
    Walks p n base (inScope x) anything :=
  walks_then walks_pushScope (fun _ => walks_then hx (fun a =>
    walks_then walks_popScope (fun _ => walks_done a)))

theorem walks_declare (name : String) (type : TypeRef) :
    Walks p n base (declare name type) anything := by
  intro s hs _
  rw [Ends, declare]
  cases hscopes : s.scopes with
  | nil => exact ⟨⟨hs, Extends.refl s⟩, trivial⟩
  | cons scope rest =>
    dsimp only
    by_cases htaken : scope.any (fun sym => sym.name == name) = true
    · rw [if_pos htaken]
      exact hs.settled
    · rw [if_neg htaken]
      have hgrow : ∀ sym ∈ s.declared, sym ∈ s.declared ++ [⟨name, type, s.declared.length⟩] :=
        fun sym h => List.mem_append_left _ h
      have hold := hs.scopes
      rw [hscopes] at hold
      obtain ⟨hscope, hrest⟩ := List.forall_mem_cons.1 hold
      refine ⟨⟨?_, ⟨hgrow, rfl, rfl, rfl⟩⟩, trivial⟩
      constructor
      case settled => exact ⟨hs.settled.followed, hs.settled.readings, hs.settled.assignings⟩
      case numbered =>
        rw [List.map_append, hs.numbered, List.length_append, List.length_singleton,
          List.range_succ]
        rfl
      case scopes =>
        refine List.forall_mem_cons.2 ⟨List.forall_mem_cons.2 ⟨?_, ?_⟩, ?_⟩
        · exact List.mem_append_right _ List.mem_cons_self
        · exact fun sym h => hgrow sym (hscope sym h)
        · exact fun other hother sym h => hgrow sym (hrest other hother sym h)
      case narrowed => exact fun e he => (hs.narrowed e he).mono hgrow
      case marked => exact fun m hm => (hs.marked m hm).mono hgrow
      case tested => exact hs.tested
      case room => exact hs.room

theorem walks_declareAll (names : List String) (types : List TypeRef) :
    Walks p n base (declareAll names types) anything := by
  induction names generalizing types base with
  | nil => exact walks_done ()
  | cons name names ih =>
    cases types with
    | nil => exact walks_done ()
    | cons type types => exact walks_then (walks_declare name type) (fun _ => ih types)

theorem walks_checkForbidden (name : String) : Walks p n base (checkForbidden name) anything := by
  intro s hs _
  let narrowing := lookupNarrowed s.narrowed name
  let t : State :=
    { s with
      assignings :=
        ⟨lookup s.lexical name, s.tested, narrowing, narrowing.isSome⟩ :: s.assignings }
  have hsettled : Settled t :=
    ⟨hs.settled.followed, hs.settled.readings,
      List.forall_mem_cons.2 ⟨assigning_right_iff hs, hs.settled.assignings⟩⟩
  have hsame : Same s t := ⟨rfl, rfl, rfl, rfl⟩
  rw [Ends]
  by_cases hbanned : narrowing.isSome = true
  · have hrun : checkForbidden name s = .error (.narrowedAssignment name) t := if_pos hbanned
    rw [hrun]
    exact hsettled
  · have hrun : checkForbidden name s = .ok () t := if_neg hbanned
    rw [hrun]
    exact ⟨⟨hs.same hsame hsettled hs.scopes hs.marked, hsame.extends⟩, trivial⟩

theorem walks_checkTarget (target : Expr) : Walks p n base (checkTarget target) anything := by
  rw [checkTarget]
  cases target.name? with
  | none => exact walks_done ()
  | some name => exact walks_checkForbidden name

/-- A block under a narrowing. What the condition tests is what its narrowing is of. -/
theorem walks_narrowed {e : Narrowed} {narrowing : Option Narrowed} {x : Walk Unit}
    (he : Narrows base e) (htest : ∀ e', narrowing = some e' → e' = e)
    (hx : Walks p n [] x anything) :
    Walks p n base (do pushNarrowed e; guarded narrowing x; popNarrowed) anything := by
  intro s hs hbase
  let tests := (narrowing.map Narrowed.decl).toList
  let s₁ : State := { s with narrowed := e :: s.narrowed }
  let s₂ : State := { s₁ with tested := tests ++ s.tested }
  have hs₂ : Coherent p n s₂ := by
    constructor
    case settled => exact ⟨hs.settled.followed, hs.settled.readings, hs.settled.assignings⟩
    case numbered => exact hs.numbered
    case scopes => exact hs.scopes
    case narrowed => exact List.forall_mem_cons.2 ⟨he.mono hbase, hs.narrowed⟩
    case marked => exact hs.marked
    case tested =>
      intro d hd
      rcases List.mem_append.1 hd with hd | hd
      · obtain ⟨e', he', rfl⟩ := Option.map_eq_some_iff.1 (Option.mem_toList.1 hd)
        exact ⟨e, List.mem_cons_self, by rw [htest e' he']⟩
      · obtain ⟨e', he', hdecl⟩ := hs.tested d hd
        exact ⟨e', List.mem_cons_of_mem e he', hdecl⟩
    case room => exact hs.room
  have hpush : Ends (pushNarrowed e) s (fun _ t => t = s₁) Settled := rfl
  apply ends_bind hpush
  rintro _ _ rfl
  have hguarded : Ends (guarded narrowing x) s₁
      (fun _ t => ∃ s₃, Coherent p n s₃ ∧ Extends s₂ s₃ ∧ t = { s₃ with tested := s.tested })
      Settled := by
    have hset : Ends (setTested (tests ++ s.tested)) s₁ (fun _ t => t = s₂) Settled := rfl
    change Ends (setTested (tests ++ s.tested) >>= fun _ => x >>= fun _ => setTested s.tested) s₁
      _ _
    apply ends_bind hset
    rintro _ _ rfl
    apply ends_bind (hx s₂ hs₂ (fun _ h => absurd h List.not_mem_nil))
    rintro _ s₃ ⟨⟨hs₃, hext⟩, -⟩
    exact ⟨s₃, hs₃, hext, rfl⟩
  apply ends_bind hguarded
  rintro _ t ⟨s₃, hs₃, hext, rfl⟩
  have hnarrowed : s₃.narrowed.tail = s.narrowed := by
    rw [hext.narrowed]
    rfl
  refine ⟨hs.restore hs₃ hext.declared rfl ?_ rfl rfl hnarrowed rfl hext.resolving, trivial⟩
  exact ⟨hs₃.settled.followed, hs₃.settled.readings, hs₃.settled.assignings⟩

/-- A mark that is left from an earlier walk is no test of this one. -/
theorem setNarrowedVars_ends (node : ℕ) {narrowing : Option Narrowed} (hs : Coherent p n s)
    (hnarrowing : ∀ e, narrowing = some e → Narrows s.declared e) :
    Ends (setNarrowedVars node narrowing) s
      (fun _ t => (Coherent p n t ∧ Extends s t) ∧ ∀ e, t.narrowedVars.lookup node = some e →
        Narrows t.declared e ∧ ∀ e', narrowing = some e' → e' = e) Settled := by
  cases narrowing with
  | none =>
    refine ⟨⟨hs, Extends.refl s⟩, fun e he => ⟨?_, fun e' he' => by cases he'⟩⟩
    obtain ⟨before, after, hmarks, -⟩ := List.lookup_eq_some_iff.1 he
    apply hs.marked (node, e)
    rw [hmarks]
    exact List.mem_append_right before List.mem_cons_self
  | some e =>
    have hnew := hnarrowing e rfl
    have hsame : Same s { s with narrowedVars := (node, e) :: s.narrowedVars } :=
      ⟨rfl, rfl, rfl, rfl⟩
    refine ⟨⟨hs.same hsame ?_ hs.scopes ?_, hsame.extends⟩, fun e' he' => ?_⟩
    · exact ⟨hs.settled.followed, hs.settled.readings, hs.settled.assignings⟩
    · exact List.forall_mem_cons.2 ⟨hnew, hs.marked⟩
    · rw [List.lookup_cons_self] at he'
      cases he'
      exact ⟨hnew, fun e' he' => (Option.some.inj he').symm⟩

theorem walks_narrowedBlock (node : ℕ) {narrowing : Option Narrowed} {x : Walk Unit}
    (hnarrowing : ∀ e, narrowing = some e → Narrows base e) (hx : Walks p n [] x anything) :
    Walks p n base (narrowedBlock node narrowing x) anything := by
  intro s hs hbase
  apply ends_bind (setNarrowedVars_ends node hs (fun e he => (hnarrowing e he).mono hbase))
  rintro _ t ⟨⟨ht, hext⟩, hmark⟩
  apply ends_get
  cases hlookup : t.narrowedVars.lookup node with
  | none => exact (walks_inScope (walks_of_nil hx)).after ht hext
  | some e =>
    obtain ⟨he, htest⟩ := hmark e hlookup
    exact (walks_inScope (walks_narrowed he htest hx)).after ht hext

end Steps

section Expressions
variable {p : Program} {n : ℕ} {base : List Symbol} {env : Env}

/-- Inference of a return type is a walk. -/
def Resolves (p : Program) (n : ℕ) (env : Env) : Prop :=
  ∀ f, env.top.contains f = true → Walks p n [] (env.resolve f) anything

theorem walks_resolveTarget (henv : Resolves p n env) (f : ℕ) :
    Walks p n base (resolveTarget env f) anything := by
  rw [resolveTarget]
  by_cases hf : env.top.contains f = true
  · rw [if_pos hf]
    exact walks_of_nil (henv f hf)
  · rw [if_neg hf]
    exact walks_done ()

theorem walks_resolveDeclared (henv : Resolves p n env) (f : ℕ) :
    Walks p n base (resolveDeclared env f) anything := by
  rw [resolveDeclared]
  by_cases hf : env.top.contains f = true
  · rw [if_pos hf]
    exact walks_of_nil (henv f hf)
  · rw [if_neg hf]
    exact walks_throw _

theorem walks_resolveTargets (henv : Resolves p n env) (fs : List ℕ) :
    Walks p n base (resolveTargets env fs) anything := by
  induction fs with
  | nil => exact walks_done ()
  | cons f fs ih => exact walks_then (walks_resolveTarget henv f) (fun _ => ih)

theorem walks_check (node : ℕ) (types : List TypeRef) :
    Walks p n base (check env node types) anything := by
  intro s hs _
  rw [Ends, check]
  cases env.rules.check node types s with
  | none => exact hs.settled
  | some type =>
    have hsame : Same s { s with types := (node, type) :: s.types } := ⟨rfl, rfl, rfl, rfl⟩
    refine ⟨⟨hs.same hsame ?_ hs.scopes hs.marked, hsame.extends⟩, trivial⟩
    exact ⟨hs.settled.followed, hs.settled.readings, hs.settled.assignings⟩

theorem walks_finish (henv : Resolves p n env) (node : ℕ) (types : List TypeRef) :
    Walks p n base (finish env node types) anything :=
  walks_get (fun _ => walks_then (walks_resolveTargets henv _) (fun _ => walks_check node types))

theorem walks_bindTypes (henv : Resolves p n env) (node : ℕ) (types : List TypeRef) :
    Walks p n base (bindTypes env node types) anything := by
  refine walks_then (walks_finish henv node types) (fun _ => walks_get (fun s => ?_))
  cases env.rules.binds node types s with
  | none => exact walks_throw _
  | some bound => exact walks_done bound

theorem walks_setRead (node : ℕ) {reading : Reading}
    (h : ReadingRight reading ↔ ReadingUndisturbed reading) :
    Walks p n base (setRead node reading) anything := by
  intro s hs _
  have hsame : Same s
      { s with
        readings := reading :: s.readings
        types := (node, reading.assigned) :: s.types } := ⟨rfl, rfl, rfl, rfl⟩
  refine ⟨⟨hs.same hsame ?_ hs.scopes hs.marked, hsame.extends⟩, trivial⟩
  exact ⟨hs.settled.followed, List.forall_mem_cons.2 ⟨h, hs.settled.readings⟩,
    hs.settled.assignings⟩

/-- A walked expression that is a variable has been declared, and its type is that of its
    declaration if it is nullable; what it narrows is narrowed rightly. -/
structure Grounded (declared : List Symbol) (t : Typed) : Prop where
  symbol : ∀ sym, t.symbol? = some sym →
    sym ∈ declared ∧ ∀ type, nonnullable t.type = some type → t.type = sym.type
  narrowing : ∀ e, t.narrowing = some e → Narrows declared e

theorem Grounded.mono {declared declared' : List Symbol} {t : Typed} (h : Grounded declared t)
    (hsub : ∀ sym ∈ declared, sym ∈ declared') : Grounded declared' t where
  symbol sym hsym := ⟨hsub sym (h.symbol sym hsym).left, (h.symbol sym hsym).right⟩
  narrowing e he := (h.narrowing e he).mono hsub

/-- Only identifiers are variables, and only comparisons narrow. -/
theorem grounded_plain (declared : List Symbol) (type : TypeRef) :
    Grounded declared ⟨type, none, none⟩ where
  symbol _ hsym := by cases hsym
  narrowing _ he := by cases he

theorem nonnullable_fixed {type type' : TypeRef} (h : nonnullable type = some type') :
    nonnullable type' = none := by
  cases type with
  | pointer inner nullable =>
    cases nullable with
    | true =>
      cases h
      rfl
    | false => cases h
  | _ => cases h

theorem comparedWithNil_eq {l r var : Typed} (h : comparedWithNil l r = some var) :
    var = l ∨ var = r := by
  rw [comparedWithNil] at h
  by_cases hl : (l.symbol?.isSome && r.type == nilType) = true
  · rw [if_pos hl] at h
    exact Or.inl (Option.some.inj h).symm
  · rw [if_neg hl] at h
    by_cases hr : (r.symbol?.isSome && l.type == nilType) = true
    · rw [if_pos hr] at h
      exact Or.inr (Option.some.inj h).symm
    · rw [if_neg hr] at h
      cases h

/-- A comparison with `nil` narrows the variable to the non-nullable type of its declaration. -/
theorem grounded_comparison {declared : List Symbol} {l r : Typed} (hl : Grounded declared l)
    (hr : Grounded declared r) (type : TypeRef) :
    Grounded declared ⟨type, none, maybeNarrowCondition l r⟩ := by
  refine ⟨fun sym hsym => (by cases hsym), fun e he => ?_⟩
  dsimp only at he
  rw [maybeNarrowCondition] at he
  cases hvar : comparedWithNil l r with
  | none =>
    rw [hvar] at he
    cases he
  | some var =>
    rw [hvar] at he
    have hgrounded : Grounded declared var := by
      rcases comparedWithNil_eq hvar with rfl | rfl
      · exact hl
      · exact hr
    dsimp only at he
    cases hsym : var.symbol? with
    | none =>
      rw [hsym] at he
      cases he
    | some sym =>
      cases htype : nonnullable var.type with
      | none =>
        rw [hsym, htype] at he
        cases he
      | some narrowed =>
        rw [hsym, htype] at he
        cases he
        obtain ⟨hdeclared, hsame⟩ := hgrounded.symbol sym hsym
        have hdecl : nonnullable sym.type = some narrowed := by
          rw [← hsame narrowed htype]
          exact htype
        exact ⟨sym, hdeclared, rfl, rfl, hdecl⟩

/-- A variable is not nullable where a narrowing is in force for its name. -/
theorem grounded_variable {s : State} (name : String) {sym : Symbol} (hs : Coherent p n s)
    (hsym : sym ∈ s.declared) :
    Grounded s.declared ⟨narrowedOr (lookupNarrowed s.narrowed name) sym.type, some sym, none⟩ := by
  refine ⟨fun sym' hsym' => ?_, fun e he => by cases he⟩
  cases hsym'
  refine ⟨hsym, fun type htype => ?_⟩
  dsimp only at htype ⊢
  cases hnarrowing : lookupNarrowed s.narrowed name with
  | none => rfl
  | some e =>
    rw [hnarrowing] at htype
    obtain ⟨tested, -, -, -, hfixed⟩ := hs.narrowed e (lookupNarrowed_mem hnarrowing)
    have hnone := nonnullable_fixed hfixed
    rw [narrowedOr, hnone] at htype
    cases htype

theorem walks_identifier (henv : Resolves p n env) (node : ℕ) (name : String) :
    Walks p n base (walkIdentifier env node name) Grounded := by
  intro s hs _
  have hread : Walks p n s.declared (readIdentifier env node name s) Grounded := by
    rw [readIdentifier]
    dsimp only
    cases hfound : lookup s.scopes name with
    | some sym =>
      have hgrounded := grounded_variable name hs (hs.lookup_declared hfound)
      refine walks_bind (walks_setRead node ?_) (fun _ _ hsub _ =>
        walks_pure (fun _ hsub' =>
          hgrounded.mono (fun sym hsym => hsub' sym (hsub sym hsym))))
      cases hnarrowing : lookupNarrowed s.narrowed name with
      | none => exact found_right_iff hs hnarrowing _ sym
      | some e => exact narrowed_right_iff hs hnarrowing _ _
    | none =>
      dsimp only
      by_cases hfunction : env.rules.isFunction name = true
      · rw [if_pos hfunction]
        exact walks_then (walks_finish henv node []) (fun type =>
          walks_then (walks_setRead node (global_right_iff hfound type)) (fun _ =>
            walks_pure (fun declared _ => grounded_plain declared type)))
      · rw [if_neg hfunction]
        cases env.rules.typeName name with
        | none => exact walks_throw _
        | some named =>
          refine walks_then (walks_setRead node ?_) (fun _ =>
            walks_pure (fun declared _ => grounded_plain declared _))
          cases hnarrowing : lookupNarrowed s.narrowed name with
          | none => exact global_right_iff hfound named
          | some e => exact narrowed_right_iff hs hnarrowing _ _
  exact hread s hs (fun _ h => h)

mutual

theorem walkExpr_walks (henv : Resolves p n env) :
    ∀ (e : Expr) (base : List Symbol), Walks p n base (walkExpr env e) Grounded
  | .identifier node name, _ => by
    rw [walkExpr]
    exact walks_identifier henv node name
  | .operation node operands omitted, _ => by
    rw [walkExpr]
    exact walks_then (walkExprs_walks henv operands _) (fun _ =>
      walks_get (fun _ => walks_then (walks_resolveTargets henv _) (fun _ =>
        walks_then (walkExprs_walks henv omitted _) (fun _ =>
          walks_then (walks_finish henv node _) (fun type =>
            walks_pure (fun declared _ => grounded_plain declared type))))))
  | .notEqual node left right, _ => by
    rw [walkExpr]
    refine walks_bind (walkExpr_walks henv left _) (fun l _ _ hl => ?_)
    refine walks_bind (walkExpr_walks henv right _) (fun r _ hsub hr => ?_)
    refine walks_bind (walks_finish henv node _) (fun type _ hsub' _ => ?_)
    refine walks_pure (fun declared hsub'' => ?_)
    have hleft := (hl.mono hsub).mono (fun sym h => hsub'' sym (hsub' sym h))
    have hright := hr.mono (fun sym h => hsub'' sym (hsub' sym h))
    exact grounded_comparison hleft hright type
  | .ifExpr node condition thenBlock elseBlock, _ => by
    rw [walkExpr]
    refine walks_bind (walkExpr_walks henv condition _) (fun c _ _ hc => ?_)
    refine walks_bind (walks_finish henv node _) (fun _ _ hsub _ => ?_)
    have hnarrowing := (hc.mono hsub).narrowing
    exact walks_then (walks_narrowedBlock node hnarrowing (walkStmts_walks henv thenBlock _))
      (fun _ => walks_then (walks_inScope (walkStmts_walks henv elseBlock _)) (fun _ =>
        walks_then (walks_finish henv node []) (fun type =>
          walks_pure (fun declared _ => grounded_plain declared type))))
  | .blockExpr node block, _ => by
    rw [walkExpr]
    exact walks_then (walks_inScope (walkStmts_walks henv block _)) (fun _ =>
      walks_then (walks_finish henv node []) (fun type =>
        walks_pure (fun declared _ => grounded_plain declared type)))
  | .errorHandler node operand error handler, _ => by
    rw [walkExpr]
    refine walks_then (walks_forget (walkExpr_walks henv operand _)) (fun _ =>
      walks_then (walks_finish henv node _) (fun _ => walks_then (walks_inScope ?_) (fun _ =>
        walks_then (walks_finish henv node []) (fun type =>
          walks_pure (fun declared _ => grounded_plain declared type)))))
    exact walks_then (walks_declare error errorType) (fun _ =>
      walks_inScope (walkStmts_walks henv handler _))
  | .errorMatch node operand error arms, _ => by
    rw [walkExpr]
    refine walks_then (walks_forget (walkExpr_walks henv operand _)) (fun _ =>
      walks_then (walks_finish henv node _) (fun _ => walks_then (walks_inScope ?_) (fun types =>
        walks_then (walks_finish henv node types) (fun type =>
          walks_pure (fun declared _ => grounded_plain declared type)))))
    exact walks_then (walks_declare error errorType) (fun _ => walkExprs_walks henv arms _)
  | .functionExpr node explicit body, base => by
    rw [walkExpr]
    have hbody : Walks p n base (inScope (walkStmts env body)) anything :=
      walks_inScope (walkStmts_walks henv body _)
    have hrest : Walks p n base (do
        let _ ← finish env node []
        inScope (walkStmts env body)
        let type ← finish env node []
        pure ⟨type, none, none⟩) Grounded :=
      walks_then (walks_finish henv node []) (fun _ => walks_then hbody (fun _ =>
        walks_then (walks_finish henv node []) (fun type =>
          walks_pure (fun declared _ => grounded_plain declared type))))
    cases explicit with
    | true => exact hrest
    | false => exact walks_then hbody (fun _ => hrest)

theorem walkExprs_walks (henv : Resolves p n env) :
    ∀ (es : List Expr) (base : List Symbol), Walks p n base (walkExprs env es) anything
  | [], _ => by
    rw [walkExprs]
    exact walks_done []
  | e :: es, _ => by
    rw [walkExprs]
    exact walks_then (walks_forget (walkExpr_walks henv e _)) (fun _ =>
      walks_then (walkExprs_walks henv es _) (fun _ => walks_done _))

theorem walkStmt_walks (henv : Resolves p n env) :
    ∀ (s : Stmt) (base : List Symbol), Walks p n base (walkStmt env s) anything
  | .param node name default, _ => by
    rw [walkStmt]
    exact walks_then (walkExprs_walks henv default _) (fun ts =>
      walks_then (walks_bindTypes henv node ts) (fun types => walks_declareAll [name] types))
  | .variableDecl node name annotated initializer, _ => by
    rw [walkStmt]
    exact walks_then (walks_forget (walkExpr_walks henv initializer _)) (fun _ =>
      walks_then (walks_finish henv node _) (fun _ => walks_declare name _))
  | .assignment node target value, _ => by
    rw [walkStmt]
    exact walks_then (walks_forget (walkExpr_walks henv target _)) (fun _ =>
      walks_then (walks_finish henv node _) (fun _ => walks_then (walks_checkTarget target)
        (fun _ => walks_then (walks_forget (walkExpr_walks henv value _)) (fun _ =>
          walks_then (walks_finish henv node _) (fun _ => walks_done ())))))
  | .update node target, _ => by
    rw [walkStmt]
    exact walks_then (walks_forget (walkExpr_walks henv target _)) (fun _ =>
      walks_then (walks_finish henv node _) (fun _ => walks_then (walks_checkTarget target)
        (fun _ => walks_then (walks_finish henv node _) (fun _ => walks_done ()))))
  | .expression expr, _ => by
    rw [walkStmt]
    exact walks_then (walks_forget (walkExpr_walks henv expr _)) (fun _ => walks_done ())
  | .loop node heads names body, _ => by
    rw [walkStmt]
    exact walks_then (walkExprs_walks henv heads _) (fun ts =>
      walks_then (walks_bindTypes henv node ts) (fun types => walks_inScope
        (walks_then (walks_declareAll names types) (fun _ => walkStmts_walks henv body _))))
  | .tryCall node operand success successBlock error errorBlock, base => by
    rw [walkStmt]
    have hbranch : ∀ names types block, Walks p n base (walkStmts env block) anything →
        Walks p n base (inScope (do declareAll names types; walkStmts env block)) anything :=
      fun names types _ hblock =>
        walks_inScope (walks_then (walks_declareAll names types) (fun _ => hblock))
    exact walks_then (walks_forget (walkExpr_walks henv operand _)) (fun t =>
      walks_then (walks_bindTypes henv node [t.type]) (fun types =>
        walks_then (hbranch success types successBlock (walkStmts_walks henv successBlock _))
          (fun _ => hbranch error [errorType] errorBlock (walkStmts_walks henv errorBlock _))))
  | .defer body, _ => by
    rw [walkStmt]
    exact walkStmts_walks henv body _
  | .function node key explicit defaults body, base => by
    rw [walkStmt]
    have hrest : Walks p n base (do
        inScope (walkStmts env body)
        let _ ← finish env node []) anything :=
      walks_then (walks_inScope (walkStmts_walks henv body _)) (fun _ =>
        walks_then (walks_finish henv node []) (fun _ => walks_done ()))
    cases explicit with
    | true => exact hrest
    | false => exact walks_then (walks_resolveDeclared henv key) (fun _ => hrest)
  | .other node, _ => by
    rw [walkStmt]
    exact walks_then (walks_finish henv node []) (fun _ => walks_done ())

theorem walkStmts_walks (henv : Resolves p n env) :
    ∀ (ss : List Stmt) (base : List Symbol), Walks p n base (walkStmts env ss) anything
  | [], _ => by
    rw [walkStmts]
    exact walks_done ()
  | s :: rest, _ => by
    rw [walkStmts]
    exact walks_then (walkStmt_walks henv s _) (fun _ => walkStmts_walks henv rest _)

end

end Expressions

section Inference
variable {p : Program} {n : ℕ} {base : List Symbol} {rules : Rules}

/-- Inference starts under no tests and with the stacks of its caller, which it leaves as they
    were. -/
theorem walks_inferReturnFromBody {env : Env} (henv : Resolves p n env) (d : FunctionDecl) :
    Walks p n base (inferReturnFromBody env d) anything := by
  intro s hs _
  let s₁ : State := { s with ownScopes := 0, tested := [] }
  have hs₁ : Coherent p n s₁ := by
    constructor
    case settled => exact ⟨hs.settled.followed, hs.settled.readings, hs.settled.assignings⟩
    case numbered => exact hs.numbered
    case scopes => exact hs.scopes
    case narrowed => exact hs.narrowed
    case marked => exact hs.marked
    case tested => exact fun _ hd => absurd hd List.not_mem_nil
    case room => exact hs.room
  have hbody : Walks p n [] (inScope (walkStmts env d.body)) anything :=
    walks_inScope (walkStmts_walks henv d.body [])
  change Ends (inScope (walkStmts env d.body) >>= fun _ =>
    setOwnScopes s.ownScopes >>= fun _ => setTested s.tested) s₁ _ _
  apply ends_bind (hbody s₁ hs₁ (fun _ h => absurd h List.not_mem_nil))
  rintro _ s₂ ⟨⟨hs₂, hext⟩, -⟩
  refine ⟨hs.restore hs₂ hext.declared rfl ?_ rfl rfl hext.narrowed rfl hext.resolving, trivial⟩
  exact ⟨hs₂.settled.followed, hs₂.settled.readings, hs₂.settled.assignings⟩

/-- Inference of a return type, at every depth that there is room for. -/
theorem resolveReturn_walks (n : ℕ) :
    ∀ f ∈ p.top, Walks p n [] (resolveReturn rules p n f) anything := by
  induction n with
  | zero =>
    intro f _ s hs
    exact absurd hs.room not_room_zero
  | succ n ih =>
    intro f hf
    have henv : Resolves p n ⟨rules, p.top, resolveReturn rules p n⟩ :=
      fun g hg => ih g (List.mem_of_elem_eq_true hg)
    intro s hs _
    rw [resolveReturn]
    apply ends_get
    cases p.decls.find? (fun d => d.key == f) with
    | none => exact hs.settled
    | some d =>
      dsimp only
      by_cases hknown : (d.returnTypeExplicit || s.resolved.contains f) = true
      · rw [if_pos hknown]
        exact walks_done () s hs (fun _ h => absurd h (List.not_mem_nil (a := _)))
      · rw [if_neg hknown]
        by_cases hcycle : s.resolving.contains f = true
        · rw [if_pos hcycle]
          exact hs.settled
        · rw [if_neg hcycle]
          have hfresh : f ∉ s.resolving := fun h => hcycle (List.elem_eq_true_of_mem h)
          let s₁ : State := { s with resolving := f :: s.resolving }
          have hs₁ : Coherent p n s₁ := by
            constructor
            case settled =>
              exact ⟨hs.settled.followed, hs.settled.readings, hs.settled.assignings⟩
            case numbered => exact hs.numbered
            case scopes => exact hs.scopes
            case narrowed => exact hs.narrowed
            case marked => exact hs.marked
            case tested => exact hs.tested
            case room => exact hs.room.call hf hfresh
          change Ends (inferReturnFromBody ⟨rules, p.top, resolveReturn rules p n⟩ d >>= fun _ =>
            endInference f s.resolving) s₁ _ _
          have hinfer : Walks p n [] (inferReturnFromBody ⟨rules, p.top, resolveReturn rules p n⟩ d)
              anything := walks_inferReturnFromBody henv d
          apply ends_bind (hinfer s₁ hs₁ (fun _ h => absurd h List.not_mem_nil))
          rintro _ s₂ ⟨⟨hs₂, hext⟩, -⟩
          refine ⟨hs.restore hs₂ hext.declared rfl ?_ rfl rfl hext.narrowed hext.tested rfl,
            trivial⟩
          exact ⟨hs₂.settled.followed, hs₂.settled.readings, hs₂.settled.assignings⟩

theorem env_resolves (rules : Rules) (p : Program) :
    Resolves p (p.top.length + 1) (p.env rules) :=
  fun f hf => resolveReturn_walks (p.top.length + 1) f (List.mem_of_elem_eq_true hf)

theorem validate_walks (ds : List FunctionDecl) :
    Walks p (p.top.length + 1) base (validateFunctionDefaults (p.env rules) ds) anything := by
  induction ds with
  | nil => exact walks_done ()
  | cons d ds ih =>
    exact walks_then (walks_inScope (walkStmts_walks (env_resolves rules p) d.defaults _))
      (fun _ => ih)

theorem inferTypes_walks (rules : Rules) (p : Program) :
    Walks p (p.top.length + 1) [] (inferTypes rules p) anything :=
  walks_then (validate_walks p.decls) (fun _ =>
    walks_then (walks_resolveTargets (env_resolves rules p) p.top) (fun _ =>
      walkStmts_walks (env_resolves rules p) p []))

theorem initial_coherent (p : Program) : Coherent p (p.top.length + 1) initial := by
  constructor
  case settled =>
    exact ⟨rfl, fun _ h => absurd h List.not_mem_nil, fun _ h => absurd h List.not_mem_nil⟩
  case numbered => rfl
  case scopes =>
    intro scope hscope sym hsym
    cases List.mem_singleton.1 hscope
    exact absurd hsym List.not_mem_nil
  case narrowed => exact fun _ h => absurd h List.not_mem_nil
  case marked => exact fun _ h => absurd h List.not_mem_nil
  case tested => exact fun _ h => absurd h List.not_mem_nil
  case room => exact room_start p.top

theorem outcome_settled (rules : Rules) (p : Program) : Settled (outcome rules p) := by
  apply ends_finalState
  have h := inferTypes_walks rules p initial (initial_coherent p)
    (fun _ h => absurd h List.not_mem_nil)
  apply ends_mono h
  rintro _ s ⟨⟨hs, -⟩, -⟩
  exact hs.settled

/-- Inference never nests deeper than the model follows it. -/
theorem outcome_not_exhausted (rules : Rules) (p : Program) : (outcome rules p).exhausted = false :=
  (outcome_settled rules p).followed

end Inference

section Shadowed

def nullableNode : TypeRef := .pointer (.named "Node") true

def nonnullNode : TypeRef := .pointer (.named "Node") false

/-- The checks of `shadowing`: the two `nil`, the comparison, and the initializer of `q`, which has
    to be of type `*Node`. -/
def shadowingRules : Rules where
  resolves _ _ _ := []
  check node types _ :=
    if node = 4 ∨ node = 6 then some nilType
    else if node = 2 then some (.named "bool")
    else if node = 7 ∧ types ≠ [nonnullNode] then none
    else some (.named "void")
  binds _ _ _ := some [nullableNode]
  isFunction _ := false
  functionType _ _ := none
  typeName _ := none

/-- `fun f(p: ?*Node): void { if p != nil { let p: ?*Node = nil  let q: *Node = p } }` -/
def shadowing : Program :=
  let p : Stmt := .param 0 "p" []
  let condition : Expr := .notEqual 2 (.identifier 3 "p") (.operation 4 [] [])
  let shadow : Stmt := .variableDecl 5 "p" (some nullableNode) (.operation 6 [] [])
  let q : Stmt := .variableDecl 7 "q" (some nonnullNode) (.identifier 8 "p")
  [.function 9 0 true [p] [p, .expression (.ifExpr 1 condition [shadow, q] [])]]

/-- The inner variable, which is `nil`, has the type of the narrowed outer one. -/
def shadowedReading : Reading where
  declared := some ⟨"p", nullableNode, 2⟩
  globalType := none
  tested := [1]
  found := some ⟨"p", nullableNode, 2⟩
  narrowing := some ⟨"p", nonnullNode, 1⟩
  assigned := nonnullNode

end Shadowed

end NewClLang.ShadowedNarrowing
