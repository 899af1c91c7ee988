import NewClLang.BlockFormation
import NewClLang.SlotConditions

set_option autoImplicit false

/-!
# Slots once for each activation

The loops of the control flow graph of a function: none of them has a turn that takes a stack slot
or registers a root, if and only if the constructs of its body do so in no loop.
-/
namespace NewClLang.SlotPlacement
open ControlTrees BlockEmission BlockConditions BlockFormation SlotConditions

/-- The deferred blocks come back to the dispatch without a slot. -/
def calm (sites : List Site) : Bool :=
  sites.all fun site => offCycles takesSlot site.code && !(flow takesSlot site.code).fallsMarked

abbrev nothing : Code := .run []

section Trails
variable {t u v : Trail}

@[simp]
theorem steps_plain : Flow.steps takesSlot [.plain] = Flow.pass := rfl

@[simp]
theorem seq_leave (f : Flow) (h : f.breaks = false) (h' : f.breaksMarked = false) :
    f.seq Flow.none = Flow.none := by
  simp [Flow.seq, Flow.none, h, h']

theorem Trail.seq_of_continues (h : t.continues = true) :
    t.seq u = ⟨t.flow.seq u.flow, t.still && u.still, u.continues⟩ := if_pos h

theorem Trail.seq_of_stops (h : t.continues = false) : t.seq u = t :=
  if_neg (by simp [h])

@[simp]
theorem Trail.seq_pass (t : Trail) : t.seq Trail.pass = t := by
  obtain ⟨flow, still, continues⟩ := t
  cases continues <;> simp [Trail.seq, Trail.pass]

@[simp]
theorem Trail.pass_seq (t : Trail) : Trail.pass.seq t = t := by
  simp [Trail.seq, Trail.pass]

theorem run_plain (is : List Instruction) :
    Trail.run (is ++ [.plain]) = Trail.run is := by
  simp [Trail.run, Flow.steps_append]

end Trails

section Paths
variable {deferred looped : Bool} {before code : Code} {b b' b'' : Builder} {t u : Trail}

/-- What is emitted from `b` to `b'`, `before` with a part that `t` tells about. Outside of deferred
blocks and loops, what does not continue has passed an exit. -/
structure Path (deferred looped : Bool) (before code : Code) (b b' : Builder) (t : Trail) :
    Prop where
  flow : flow takesSlot code = (flow takesSlot before).seq t.flow
  still : (offCycles takesSlot code && calm b'.sites) =
    (offCycles takesSlot before && (calm b.sites && t.still))
  kept : deferred = true → b'.sites = b.sites
  exits : deferred = false → looped = false → t.continues = false →
    offCycles takesSlot code = true → calm b'.sites = true

theorem Path.next {part : Code} (h : Path deferred looped nothing part b b' t)
    (h' : Path deferred looped (.sequence [before, part]) code b' b'' u)
    (hcontinues : t.continues = true) : Path deferred looped before code b b'' (t.seq u) := by
  have hpart : (offCycles takesSlot part && (calm b'.sites && u.still)) =
      (calm b.sites && (t.still && u.still)) := by
    have hstill := h.still
    rw [offCycles_run, Bool.true_and] at hstill
    rw [← Bool.and_assoc, hstill, Bool.and_assoc]
  rw [Trail.seq_of_continues hcontinues]
  refine ⟨?_, ?_, fun hd => (h'.kept hd).trans (h.kept hd), h'.exits⟩
  · rw [h'.flow, flow_cons, flow_cons, flow_nil, h.flow]
    simp [Flow.seq_assoc]
  · rw [h'.still, offCycles_cons, offCycles_cons, offCycles_nil, Bool.and_true, Bool.and_assoc,
      hpart]

/-- The same code, up to how its parts are put together. -/
structure Same (code code' : Code) : Prop where
  flow : flow takesSlot code = flow takesSlot code'
  offCycles : offCycles takesSlot code = offCycles takesSlot code'

theorem Same.refl (code : Code) : Same code code := ⟨rfl, rfl⟩

theorem Path.congr {code' : Code} (h : Path deferred looped before code b b' t)
    (hsame : Same code' code) : Path deferred looped before code' b b' t where
  flow := hsame.flow.trans h.flow
  still := by
    rw [hsame.offCycles]
    exact h.still
  kept := h.kept
  exits := by
    rw [hsame.offCycles]
    exact h.exits

/-- A part after which nothing is emitted. -/
theorem Path.last {part : Code} (h : Path deferred looped nothing part b b' t)
    (hsame : Same code (.sequence [before, part])) : Path deferred looped before code b b' t where
  flow := by
    rw [hsame.flow, flow_cons, flow_cons, flow_nil, h.flow]
    simp
  still := by
    rw [hsame.offCycles, offCycles_cons, offCycles_cons, offCycles_nil, Bool.and_true,
      Bool.and_assoc, h.still, offCycles_run, Bool.true_and]
  kept := h.kept
  exits := by
    intro hd hl hc hoff
    rw [hsame.offCycles, offCycles_cons, offCycles_cons, offCycles_nil, Bool.and_true,
      Bool.and_eq_true] at hoff
    exact h.exits hd hl hc hoff.2

/-- The states count for their deferred blocks only. -/
theorem Path.shift {c c' : Builder} (h : Path deferred looped before code b b' t)
    (hstart : c.sites = b.sites) (hend : c'.sites = b'.sites) :
    Path deferred looped before code c c' t where
  flow := h.flow
  still := by
    rw [hstart, hend]
    exact h.still
  kept := by
    rw [hstart, hend]
    exact h.kept
  exits := by
    rw [hend]
    exact h.exits

/-- Code that is in no loop and emits no deferred block. -/
theorem Path.plain {part : Code} (hoff : offCycles takesSlot part = true)
    (hsites : b'.sites = b.sites) :
    Path deferred looped nothing part b b' ⟨ControlTrees.flow takesSlot part, true, true⟩ where
  flow := by simp
  still := by simp [hoff, hsites]
  kept := fun _ => hsites
  exits := fun _ _ h => by cases h

theorem Path.unchanged (hsame : Same code before) (hsites : b'.sites = b.sites) :
    Path deferred looped before code b b' Trail.pass where
  flow := by rw [hsame.flow, Trail.pass, Flow.seq_pass]
  still := by rw [hsame.offCycles, hsites, Trail.pass, Bool.and_true]
  kept := fun _ => hsites
  exits := fun _ _ h => by cases h

/-- In a loop, an exit may be missing. -/
theorem Path.inside (h : Path deferred looped before code b b' t) :
    Path deferred true before code b b' t :=
  ⟨h.flow, h.still, h.kept, fun _ hnot => (by cases hnot)⟩

/-- The last branch is the one that shows an exit. -/
theorem Path.fork {first second : Code} (h : Path deferred true nothing first b b' t)
    (h' : Path deferred looped nothing second b' b'' u) :
    Path deferred looped nothing (.oneOf [first, second]) b b'' (t.fork u) where
  flow := by
    rw [flow_oneOf, h.flow, h'.flow]
    simp [Trail.fork]
  still := by
    have hfirst := h.still
    have hsecond := h'.still
    rw [offCycles_run, Bool.true_and] at hfirst hsecond ⊢
    rw [offCycles_oneOf, Bool.and_assoc, hsecond, ← Bool.and_assoc, hfirst, Bool.and_assoc]
    rfl
  kept := fun hd => (h'.kept hd).trans (h.kept hd)
  exits := by
    intro hd hl hc hoff
    rw [offCycles_oneOf, Bool.and_eq_true] at hoff
    exact h'.exits hd hl (Bool.or_eq_false_iff.mp hc).2 hoff.2

theorem Path.loop {head body : Code} (h : Path deferred looped nothing head b b' t)
    (h' : Path deferred true nothing body b' b'' u) (hcontinues : t.continues = true) :
    Path deferred looped nothing (.loop head body) b b'' (Trail.loop t u) where
  flow := by
    rw [flow_loop, h.flow, h'.flow]
    simp [Trail.loop]
  still := by
    have hhead := h.still
    have hbody := h'.still
    have hcycles : Flow.cycles (ControlTrees.flow takesSlot head)
        (ControlTrees.flow takesSlot body) = Flow.cycles t.flow u.flow := by
      rw [h.flow, h'.flow]
      simp
    rw [offCycles_run, Bool.true_and] at hhead hbody ⊢
    rw [offCycles_loop, hcycles]
    calc
      _ = ((offCycles takesSlot head && (offCycles takesSlot body && calm b''.sites)) &&
          !Flow.cycles t.flow u.flow) := by ac_rfl
      _ = (((offCycles takesSlot head && calm b'.sites) && u.still) &&
          !Flow.cycles t.flow u.flow) := by
        rw [hbody]
        ac_rfl
      _ = (calm b.sites && (Trail.loop t u).still) := by
        rw [hhead]
        simp only [Trail.loop]
        ac_rfl
  kept := fun hd => (h'.kept hd).trans (h.kept hd)
  exits := by
    intro _ _ hstops
    rw [Trail.loop, hcontinues] at hstops
    cases hstops

/-- The block where others join. -/
theorem Path.joined {part last : Code} (merge : List Instruction)
    (h : Path deferred looped nothing part b b' t)
    (hflow : ControlTrees.flow takesSlot last =
      if t.continues then Flow.steps takesSlot merge else Flow.none)
    (hoff : offCycles takesSlot last = true) :
    Path deferred looped nothing (.sequence [part, last]) b b' (t.joined merge) where
  flow := by
    rw [flow_cons, flow_cons, flow_nil, h.flow, hflow]
    simp [Trail.joined]
  still := by
    rw [offCycles_cons, offCycles_cons, offCycles_nil, hoff]
    simpa [Trail.joined] using h.still
  kept := h.kept
  exits := by
    intro hd hl hc hall
    rw [offCycles_cons, Bool.and_eq_true] at hall
    exact h.exits hd hl hc hall.1

theorem Path.aside (h : Path deferred true before code b b' t) :
    Path deferred looped before code b b' t.aside :=
  ⟨h.flow, h.still, h.kept, fun _ _ h => by cases h⟩

end Paths

section Emissions
variable {α β γ : Type} {deferred looped : Bool} {before : Code} {view : α → Code}
  {view' : β → Code} {view'' : γ → Code} {x : Emit α} {y : Emit β} {k : α → Emit γ} {f g : Fate}
  {s s' l l' : Bool} {t u : Trail}

/-- What an emission adds to `before`, where the current block is open. -/
structure Followed (deferred looped : Bool) (before : Code) (view : α → Code) (x : Emit α)
    (s l : Bool) (t : Trail) : Prop where
  steps : Steps deferred looped x s l
  path : ∀ {b}, Ready b → decide (0 < b.loops) = looped → s = true →
    Path deferred looped before (view (x b).1) b (x b).2 t

/-- What an emission adds to `before`. -/
structure Traced (deferred looped : Bool) (before : Code) (view : α → Code) (x : Emit α) (f : Fate)
    (t : Trail) : Prop where
  emits : Emits deferred looped x f
  continues : t.continues = f.falls
  path : ∀ {b}, Ready b → decide (0 < b.loops) = looped → f.sound = true →
    Path deferred looped before (view (x b).1) b (x b).2 t
  quiet : ∀ {b}, Closed b → f.silent = true → Same (view (x b).1) before

theorem Traced.followed (hx : Traced deferred looped before view x f t) :
    Followed deferred looped before view x f.sound f.falls t :=
  ⟨hx.emits.toSteps, hx.path⟩

theorem Followed.bind (hx : Followed deferred looped nothing view x s true t)
    (hcontinues : t.continues = true)
    (hk : ∀ a, Followed deferred looped (.sequence [before, view a]) view'' (k a) s' l u) :
    Followed deferred looped before view'' (x >>= k) (s && s') l (t.seq u) where
  steps := steps_bind hx.steps fun a => (hk a).steps
  path := by
    intro b hb hlooped hsound
    obtain ⟨hs, hs'⟩ := Bool.and_eq_true_iff.mp hsound
    have hnext : Ready (x b).2 := hx.steps.ready hb hlooped hs
    have hloops : decide (0 < (x b).2.loops) = looped := by
      rw [hx.steps.loops]
      exact hlooped
    exact (hx.path hb hlooped hs).next ((hk _).path hnext hloops hs') hcontinues

/-- Where nothing else can go wrong in what follows. -/
theorem Followed.then (hx : Followed deferred looped nothing view x s true t)
    (hcontinues : t.continues = true)
    (hk : ∀ a, Followed deferred looped (.sequence [before, view a]) view'' (k a) true l u) :
    Followed deferred looped before view'' (x >>= k) s l (t.seq u) := by
  have hbind := hx.bind hcontinues hk
  rw [Bool.and_true] at hbind
  exact hbind

theorem Traced.bind (hx : Traced deferred looped nothing view x f t)
    (hk : ∀ a, Traced deferred looped (.sequence [before, view a]) view'' (k a) g u) :
    Traced deferred looped before view'' (x >>= k) (f.seq g) (t.seq u) where
  emits := emits_bind hx.emits fun a => (hk a).emits
  continues := by
    have hlast := (hk (x fresh).1).continues
    cases hcontinues : t.continues with
    | true => rw [Trail.seq_of_continues hcontinues, hlast, Fate.seq, ← hx.continues, hcontinues,
        Bool.true_and]
    | false => rw [Trail.seq_of_stops hcontinues, Fate.seq, ← hx.continues, hcontinues,
        Bool.false_and]
  path := by
    intro b hb hlooped hsound
    obtain ⟨hs, hs'⟩ := Bool.and_eq_true_iff.mp hsound
    have hnext := hx.emits.ready hb hlooped hs
    have hloops : decide (0 < (x b).2.loops) = looped := by
      rw [hx.emits.loops]
      exact hlooped
    cases hfalls : f.falls with
    | true =>
      rw [hfalls] at hs' hnext
      exact (hx.path hb hlooped hs).next ((hk _).path hnext hloops hs')
        (hx.continues.trans hfalls)
    | false =>
      -- what follows is silent, and leaves the state and the code as they are
      rw [hfalls] at hs' hnext
      have hsilent : g.silent = true := hs'
      have hsame := (hk (x b).1).quiet hnext hsilent
      have hstate := (hk (x b).1).emits.closed hnext
      rw [if_pos hsilent] at hstate
      rw [Trail.seq_of_stops (hx.continues.trans hfalls)]
      exact ((hx.path hb hlooped hs).last hsame).shift rfl (congrArg Builder.sites hstate)
  quiet := by
    intro b hb hsilent
    obtain ⟨hf, hg⟩ := Bool.and_eq_true_iff.mp hsilent
    have hsame := hx.quiet hb hf
    have hstate := hx.emits.closed hb
    rw [if_pos hf] at hstate
    have hclosed : Closed (x b).2 := by
      rw [hstate]
      exact hb
    have hlast := (hk (x b).1).quiet hclosed hg
    refine ⟨hlast.flow.trans ?_, hlast.offCycles.trans ?_⟩
    · rw [flow_cons, flow_cons, flow_nil, hsame.flow]
      simp
    · rw [offCycles_cons, offCycles_cons, offCycles_nil, hsame.offCycles]
      simp

theorem traced_pure {c : γ} (hsame : Same (view'' c) before) :
    Traced deferred looped before view'' (pure c) Fate.pass Trail.pass where
  emits := emits_pure c
  continues := rfl
  path := fun _ _ _ => Path.unchanged hsame rfl
  quiet := fun _ _ => hsame

theorem Traced.congr (hx : Traced deferred looped before view x f t) (hf : f = g) (ht : t = u) :
    Traced deferred looped before view x g u :=
  hf ▸ ht ▸ hx

theorem Traced.map (hx : Traced deferred looped nothing view x f t) {k : α → γ}
    (hsame : ∀ a, Same (view'' (k a)) (.sequence [before, view a])) :
    Traced deferred looped before view'' (x >>= fun a => pure (k a)) f t := by
  refine (hx.bind (fun a => traced_pure (hsame a))).congr ?_ (Trail.seq_pass t)
  cases f with
  | mk silent sound falls => cases silent <;> cases sound <;> cases falls <;> rfl

theorem traced_append (instructions : List Instruction) :
    Traced deferred looped nothing id (append instructions) (Fate.run instructions)
      (Trail.run instructions) where
  emits := emits_append instructions
  continues := rfl
  path := fun _ _ _ => Path.plain (by simp [append]) rfl
  quiet := by
    intro b _ hsilent
    have hnil : instructions = [] := List.isEmpty_iff.mp hsilent
    rw [hnil]
    exact ⟨rfl, rfl⟩

/-- A conversion, and the store of its value. -/
theorem traced_store (convert : List Instruction) :
    Traced deferred looped nothing id (append (convert ++ [.plain])) (Fate.run [.plain])
      (Trail.run convert) :=
  (traced_append (convert ++ [.plain])).congr (run_append convert) (run_plain convert)

theorem Followed.jump {k : Unit → Emit γ}
    (hk : Followed deferred looped before view'' (k ()) s l t) :
    Followed deferred looped before view'' (jump >>= k) s l t where
  steps := steps_bind steps_jump fun _ => hk.steps
  path := fun hb hlooped hs => (hk.path hb.terminate.position hlooped hs).shift rfl rfl

theorem traced_jump {k : Unit → Emit γ} (hk : Followed deferred looped before view'' (k ()) s l t)
    (hcontinues : t.continues = l) :
    Traced deferred looped before view'' (jump >>= k) ⟨false, s, l⟩ t where
  emits := emits_jump fun _ => hk.steps
  continues := hcontinues
  path := hk.jump.path
  quiet := fun _ hsilent => by cases hsilent

end Emissions

section Branches
variable {α β γ : Type} {deferred looped : Bool} {before : Code} {view : α → Code}
  {view' : β → Code} {view'' : γ → Code} {s s' l l' : Bool} {t u : Trail}

theorem sites_closeBlock (b : Builder) : (closeBlock b).2.sites = b.sites := by
  unfold closeBlock
  split <;> rfl

theorem sites_advance (b : Builder) : (advance b).2.sites = b.sites := by
  unfold advance
  split <;> rfl

theorem Followed.path_arm {x : Emit α} {b : Builder}
    (hx : Followed deferred looped nothing view x s l t) (hb : Ready b)
    (hlooped : decide (0 < b.loops) = looped) (hs : s = true) :
    Path deferred looped nothing (view (arm x b).1.1) b (arm x b).2 t :=
  (hx.path hb hlooped hs).shift rfl (sites_closeBlock (x b).2)

/-- What branches add to `before`. -/
structure Branched (deferred looped : Bool) (before : Code) (view : α → Code)
    (x : Emit (α × Bool)) (s l : Bool) (t : Trail) : Prop where
  flagged : Flagged deferred looped x s l
  continues : t.continues = l
  path : ∀ {b}, Ready b → decide (0 < b.loops) = looped → s = true →
    Path deferred looped before (view (x b).1.1) b (x b).2 t

theorem branched_arm {x : Emit α} (hx : Followed deferred looped nothing view x s l t)
    (hcontinues : t.continues = l) : Branched deferred looped nothing view (arm x) s l t where
  flagged := flagged_arm hx.steps
  continues := hcontinues
  path := hx.path_arm

theorem branched_bind {x : Emit α} {k : α → Emit (γ × Bool)}
    (hx : Followed deferred looped nothing view x s true t) (hcontinues : t.continues = true)
    (hk : ∀ a, Branched deferred looped (.sequence [before, view a]) view'' (k a) s' l u) :
    Branched deferred looped before view'' (x >>= k) (s && s') l (t.seq u) where
  flagged := flagged_bind hx.steps fun a => (hk a).flagged
  continues := by
    rw [Trail.seq_of_continues hcontinues]
    exact (hk (x fresh).1).continues
  path := by
    intro b hb hlooped hsound
    obtain ⟨hs, hs'⟩ := Bool.and_eq_true_iff.mp hsound
    have hnext : Ready (x b).2 := hx.steps.ready hb hlooped hs
    have hloops : decide (0 < (x b).2.loops) = looped := by
      rw [hx.steps.loops]
      exact hlooped
    exact (hx.path hb hlooped hs).next ((hk _).path hnext hloops hs') hcontinues

theorem Branched.jump {k : Unit → Emit (γ × Bool)}
    (hk : Branched deferred looped before view'' (k ()) s l t) :
    Branched deferred looped before view'' (jump >>= k) s l t where
  flagged := flagged_bind steps_jump fun _ => hk.flagged
  continues := hk.continues
  path := fun hb hlooped hs => (hk.path hb.terminate.position hlooped hs).shift rfl rfl

theorem branched_or {x : Emit (α × Bool)} {y : Emit (β × Bool)}
    (hx : Branched deferred looped nothing view x s l t)
    (hy : Branched deferred looped nothing view' y s' l' u) (k : α → β → γ)
    (hsame : ∀ a c, Same (view'' (k a c)) (.sequence [before, .oneOf [view a, view' c]])) :
    Branched deferred looped before view''
      (x >>= fun a => y >>= fun c => pure (k a.1 c.1, a.2 || c.2)) (s && s') (l || l')
      (t.fork u) where
  flagged := flagged_or hx.flagged hy.flagged k
  continues := by
    rw [← hx.continues, ← hy.continues]
    rfl
  path := by
    intro b hb hlooped hsound
    obtain ⟨hs, hs'⟩ := Bool.and_eq_true_iff.mp hsound
    obtain ⟨hnext, -⟩ := hx.flagged.ready hb hlooped hs
    have hloops : decide (0 < (x b).2.loops) = looped := by
      rw [hx.flagged.loops]
      exact hlooped
    exact ((hx.path hb hlooped hs).inside.fork (hy.path hnext hloops hs')).last (hsame _ _)

/-- The branch that follows when no pattern matches is `unreachable`. -/
theorem branched_leaving {x : Emit (α × Bool)}
    (hx : Branched deferred looped nothing view x s l t) (k : α → γ)
    (hsame : ∀ a, Same (view'' (k a)) (.sequence [before, view a])) :
    Branched deferred looped before view''
      (x >>= fun a => leaving closeBlock >>= fun _ => pure (k a.1, a.2)) s l t where
  flagged := flagged_leaving hx.flagged closes_closeBlock k
  continues := hx.continues
  path := by
    intro b hb hlooped hs
    exact ((hx.path hb hlooped hs).last (hsame _)).shift rfl (sites_closeBlock (x b).2)

theorem followed_joined {x : Emit (α × Bool)} {k : α × Bool → Code → γ}
    (hx : Branched deferred looped nothing view x s l t) (merge : List Instruction)
    (hsame : ∀ a last, Same (view'' (k a last)) (.sequence [before, .sequence [view a.1, last]])) :
    Followed deferred looped before view''
      (x >>= fun a => joined a.2 merge >>= fun last => pure (k a last)) s l (t.joined merge) where
  steps := steps_joined hx.flagged merge k
  path := by
    intro b hb hlooped hs
    obtain ⟨-, hflag⟩ := hx.flagged.ready hb hlooped hs
    have hcontinues : t.continues = (x b).1.2 := hx.continues.trans hflag.symm
    have hlast : ControlTrees.flow takesSlot (joined (x b).1.2 merge (x b).2).1 =
        (if t.continues then Flow.steps takesSlot merge else Flow.none) ∧
        offCycles takesSlot (joined (x b).1.2 merge (x b).2).1 = true ∧
        (joined (x b).1.2 merge (x b).2).2.sites = (x b).2.sites := by
      rw [hcontinues]
      cases (x b).1.2 with
      | true => exact ⟨by simp [joined, append], by simp [joined, append], rfl⟩
      | false => exact ⟨flow_leave takesSlot, offCycles_leave takesSlot, rfl⟩
    have hpart := (hx.path hb hlooped hs).joined merge hlast.1 hlast.2.1
    exact (hpart.last (hsame _ _)).shift rfl hlast.2.2

end Branches

section Deferred
variable {deferred looped : Bool} {sites : List Site}

theorem sites_emitSites (sites : List Site) (b : Builder) :
    (emitSites sites b).2.sites = b.sites := by
  induction sites generalizing b with
  | nil => rfl
  | cons site sites ih => exact (ih _).trans (sites_closeBlock _)

theorem sites_emitDeferred (deferred : Bool) (b : Builder) :
    (emitDeferred deferred b).2.sites = b.sites := by
  cases deferred with
  | true => rfl
  | false => exact (sites_closeBlock _).trans (sites_emitSites b.sites _)

theorem offCyclesEach_sites (sites : List Site) :
    (offCyclesEach takesSlot (sites.map Site.code) &&
        !(flowEach takesSlot (sites.map Site.code)).fallsMarked) = calm sites := by
  induction sites with
  | nil => rfl
  | cons site sites ih =>
    rw [calm, List.all_cons, ← calm, ← ih, List.map_cons, offCyclesEach, flowEach, Flow.or,
      Bool.not_or]
    ac_rfl

theorem dispatch_code (sites : List Site) (b : Builder) :
    (dispatch sites b).1 = .loop (.run [.plain])
      (.sequence [.run [.plain], .oneOf (.run [] :: sites.map Site.code)]) := rfl

/-- The loop of `emit_deferred` is left by its head only. -/
theorem flow_drain (deferred : Bool) (b : Builder) :
    (flow takesSlot (emitDeferred deferred b).1).seq Flow.none = Flow.none := by
  cases deferred with
  | true => rfl
  | false =>
    change (flow takesSlot (dispatch b.sites b).1).seq Flow.none = Flow.none
    rw [dispatch_code, flow_loop, flow_run, steps_plain]
    exact seq_leave _ rfl (by simp [Flow.loop, Flow.pass])

/-- It comes back over no slot if and only if no deferred block does. -/
theorem offCycles_drain (deferred : Bool) (b : Builder) :
    offCycles takesSlot (emitDeferred deferred b).1 = (deferred || calm b.sites) := by
  cases deferred with
  | true => rfl
  | false =>
    change offCycles takesSlot (dispatch b.sites b).1 = calm b.sites
    have hone : (flow takesSlot (.oneOf (.run [] :: b.sites.map Site.code))).fallsMarked =
        (flowEach takesSlot (b.sites.map Site.code)).fallsMarked := by
      simp [flow, flowEach, Flow.or, Flow.steps]
    have hbody : offCycles takesSlot (.oneOf (.run [] :: b.sites.map Site.code)) =
        offCyclesEach takesSlot (b.sites.map Site.code) := by
      simp [offCycles, offCyclesEach]
    rw [dispatch_code, offCycles_loop, flow_run, steps_plain, ← offCyclesEach_sites]
    simp only [offCycles_run, offCycles_cons, offCycles_nil, hbody, Bool.true_and, Bool.and_true,
      Flow.cycles, flow_cons, flow_nil, flow_run, steps_plain, Flow.pass_seq, Flow.seq_pass, hone]

/-- An exit shows what the deferred blocks are. -/
theorem traced_emitExit {last : List Instruction} (hlast : last ≠ []) :
    Traced deferred looped nothing id (emitExit deferred last) Fate.leaves Trail.leave where
  emits := emits_emitExit hlast
  continues := rfl
  path := by
    intro b _ _ _
    have hcode : (emitExit deferred last b).1 =
        .sequence [(emitDeferred deferred b).1, .run last, .leave] := rfl
    have hsites : (emitExit deferred last b).2.sites = b.sites := sites_emitDeferred deferred b
    have hoff : offCycles takesSlot (emitExit deferred last b).1 = (deferred || calm b.sites) := by
      rw [hcode]
      simp [offCycles_drain]
    refine ⟨?_, ?_, fun _ => hsites, fun hdeferred _ _ hcalm => ?_⟩
    · rw [id, hcode, flow_cons, flow_cons, flow_cons, flow_nil, flow_leave, flow_run, flow_run,
        Flow.seq_pass, seq_leave (Flow.steps takesSlot last) rfl rfl, flow_drain]
      rfl
    · rw [id, hoff, hsites]
      cases deferred <;> simp [Trail.leave]
    · rw [id, hoff, hdeferred, Bool.false_or] at hcalm
      rw [hsites]
      exact hcalm
  quiet := fun _ hsilent => by cases hsilent

theorem traced_emitErrorReturn (c : Context) :
    Traced c.deferred looped nothing id (emitErrorReturn c) Fate.leaves Trail.leave := by
  have hlast : errorEnd c.fallible ≠ [] := by
    unfold errorEnd
    split <;> simp
  have hreturn : Traced c.deferred looped nothing id (emitErrorReturn c)
      ((Fate.run (appendFrame ++ [.plain])).seq Fate.leaves)
      ((Trail.run (appendFrame ++ [.plain])).seq Trail.leave) := by
    refine (traced_append _).bind fun frame => (traced_emitExit hlast).map fun exit => ⟨?_, ?_⟩
    · simp
    · simp
  refine hreturn.congr (by rw [run_append]; rfl) ?_
  rw [Trail.seq_of_continues rfl]
  rfl

theorem traced_emitCall {args : Emit Code} {f : Fate} {t : Trail} (success : Option ℕ)
    (hargs : Traced deferred looped nothing id args f t) :
    Traced deferred looped nothing id (emitCall success args) (Fate.call f)
      (Trail.call success t) := by
  have hslots : Traced deferred looped nothing id (append (fallibleOutSlots success))
      (Fate.run [.slot]) (Trail.run (fallibleOutSlots success)) :=
    (traced_append _).congr (run_fallibleOutSlots success) rfl
  have hcall : Traced deferred looped nothing id (emitCall success args) (Fate.call f)
      ((Trail.run (fallibleOutSlots success)).seq (t.seq (Trail.run [.plain]))) := by
    refine hslots.bind fun slots => hargs.bind fun codes =>
      (traced_append [.plain]).map fun call => ⟨?_, ?_⟩
    · simp [Flow.seq_assoc]
    · simp [Bool.and_assoc]
  refine hcall.congr rfl ?_
  rw [show Trail.run [.plain] = Trail.pass from rfl, Trail.seq_pass]
  rfl

theorem traced_unlessTerminated {α : Type} {before : Code} {view : α → Code} {x : Emit α} {f : Fate}
    {t : Trail} (checked : Bool) {skipped : α} (hx : Traced deferred looped before view x f t)
    (hskipped : Same (view skipped) before) :
    Traced deferred looped before view (unlessTerminated checked skipped x)
      { f with silent := checked || f.silent } t where
  emits := emits_unlessTerminated checked skipped hx.emits
  continues := hx.continues
  path := by
    intro b hb hlooped hsound
    rw [unlessTerminated, hb.not_isTerminated, Bool.and_false]
    exact hx.path hb hlooped hsound
  quiet := by
    intro b hb hsilent
    rw [unlessTerminated, hb.isTerminated, Bool.and_true]
    cases checked with
    | true => exact hskipped
    | false => exact hx.quiet hb hsilent

theorem traced_emitBreak : Traced deferred looped nothing id emitBreak ⟨false, looped, false⟩
    ⟨⟨false, false, true, false⟩, true, false⟩ where
  emits := emits_emitBreak
  continues := rfl
  path := by
    intro b _ _ hlooped
    refine ⟨rfl, ?_, fun _ => rfl, fun _ hnot => ?_⟩
    · simp [emitBreak, offCycles]
    · rw [hnot] at hlooped
      cases hlooped
  quiet := fun _ hsilent => by cases hsilent

/-- A deferred block is emitted apart, and counts at the exits that come after it. -/
theorem traced_emitDefer {body : Emit (List Code)} {f : Fate} {t : Trail}
    (h : Traced true false nothing Code.sequence body f t) :
    Traced false looped nothing id (emitDefer false body) f.aside ⟨Flow.pass, t.site, true⟩ where
  emits := emits_emitDefer h.emits
  continues := rfl
  path := by
    intro b _ _ hsound
    have hbody := h.path ready_fresh rfl hsound
    have hsites : (emitDefer false body b).2.sites = b.sites ++
        [⟨(body fresh).2.current, (body fresh).2.left, (body fresh).2.raised,
          .sequence (body fresh).1⟩] := rfl
    have hstill : offCycles takesSlot (.sequence (body fresh).1) = t.still := by
      have hpath := hbody.still
      rw [hbody.kept rfl, offCycles_run] at hpath
      simpa [calm, fresh] using hpath
    have hflow : flow takesSlot (.sequence (body fresh).1) = t.flow := by
      have hpath := hbody.flow
      rwa [flow_run, Flow.steps_nil, Flow.pass_seq] at hpath
    refine ⟨rfl, ?_, fun hd => (by cases hd), fun _ _ hstops => (by cases hstops)⟩
    rw [hsites]
    simp [calm, hstill, hflow, Trail.site, emitDefer, append]
  quiet := fun _ hsilent => by cases hsilent

end Deferred

section Constructs
variable {α : Type} {deferred looped : Bool} {before : Code} {b : Builder} {s s' l l' : Bool}
  {t u : Trail}

theorem steps_loadValue (success : Option ℕ) :
    Flow.steps takesSlot (loadValue success) = Flow.pass := by
  cases success <;> rfl

theorem path_inLoop {view : α → Code} {x : Emit α}
    (hx : Followed deferred true nothing view x s l u) (hb : Ready b) (hs : s = true) :
    Path deferred true nothing (view (inLoop x b).1) b (inLoop x b).2 u := by
  have hentered : Ready { b with loops := b.loops + 1 } :=
    ⟨hb.raised, hb.current, hb.left, hb.sites⟩
  exact (hx.path hentered (by simp) hs).shift rfl rfl

/-- The body of a `for` over elements takes no slot before it and after it. -/
theorem Path.advanced {code : Code} {b' : Builder} {element : List Instruction}
    (h : Path deferred looped nothing code b b' t)
    (helement : Flow.steps takesSlot element = Flow.pass) :
    Path deferred looped nothing (.sequence [.run element, code, (advance b').1]) b
      (leaving advance b').2 t := by
  have hnext : ControlTrees.flow takesSlot (advance b').1 = Flow.pass ∧
      offCycles takesSlot (advance b').1 = true := by
    unfold advance
    split
    · exact ⟨flow_run takesSlot [], offCycles_run takesSlot []⟩
    · exact ⟨flow_run takesSlot [.plain], offCycles_run takesSlot [.plain]⟩
  refine (h.congr ⟨?_, ?_⟩).shift rfl (sites_advance b')
  · simp [helement, hnext.1]
  · simp [hnext.2]

theorem Path.following {first part : Code} {b' : Builder}
    (h : Path deferred looped nothing part b b' t) :
    Path deferred looped (.sequence [nothing, first]) (.sequence [first, part]) b b' t :=
  h.last ⟨by simp, by simp⟩

theorem Path.after {first second third part : Code} {b' : Builder}
    (h : Path deferred looped nothing part b b' t) :
    Path deferred looped (.sequence [.sequence [.sequence [nothing, first], second], third])
      (.sequence [first, second, third, part]) b b' t := by
  refine h.last ⟨?_, ?_⟩
  · simp [Flow.seq_assoc]
  · simp [Bool.and_assoc]

/-- What comes after instructions that take a slot. -/
theorem Path.after_slot {code part : Code} {b' : Builder} {slots : List Instruction}
    (h : Path deferred looped nothing part b b' t)
    (hsame : Same code (.sequence [.run slots, part])) :
    Path deferred looped nothing code b b' ((Trail.run slots).seq t) := by
  have hslots : Path deferred looped nothing (.run slots) b b (Trail.run slots) :=
    Path.plain (offCycles_run takesSlot slots) rfl
  refine hslots.next (h.last ⟨hsame.flow.trans ?_, hsame.offCycles.trans ?_⟩) rfl
  · simp
  · simp

/-- A branch that stops the program shows no exit. -/
theorem path_stops {b' : Builder} (instructions : List Instruction) (hsites : b'.sites = b.sites) :
    Path deferred true nothing (.sequence [.run instructions, .leave]) b b' Trail.leave where
  flow := by
    simp only [flow_cons, flow_nil, flow_run, flow_leave, Flow.seq_pass, Flow.steps_nil,
      Flow.pass_seq, Trail.leave]
    exact seq_leave _ rfl rfl
  still := by simp [hsites, Trail.leave]
  kept := fun _ => hsites
  exits := fun _ hnot => (by cases hnot)

/-- The error branch of a `try`. -/
theorem path_emitHandler {errorBlock : Emit (List Code)} (handled : Bool)
    (h : Followed deferred looped nothing Code.sequence errorBlock s l t) (hb : Ready b)
    (hlooped : decide (0 < b.loops) = looped) (hs : handled = true → s = true) :
    Path deferred true nothing (emitHandler handled errorBlock b).1 b
      (emitHandler handled errorBlock b).2
      (if handled then (Trail.run bindError).seq t else Trail.leave) := by
  cases handled with
  | true =>
    have hbound := (hb.append (.plain :: appendFrame)).append bindError
    have hblock := h.path_arm hbound hlooped (hs rfl)
    have hcode : (emitHandler true errorBlock b).1 =
        .sequence [.run (.plain :: appendFrame), .run bindError, .sequence (arm errorBlock
          (append bindError (append (.plain :: appendFrame) b).2).2).1.1] := rfl
    have hslots : (Flow.steps takesSlot (.plain :: appendFrame)).seq
        (Flow.steps takesSlot bindError) = Flow.steps takesSlot bindError := rfl
    refine (Path.after_slot hblock ⟨?_, ?_⟩).inside.shift rfl rfl
    · rw [hcode, flow_cons, flow_cons, flow_run, flow_run, ← Flow.seq_assoc, hslots, flow_cons]
    · rw [hcode, offCycles_cons, offCycles_run, Bool.true_and]
  | false =>
    have hcode : (emitHandler false errorBlock b).1 =
        .sequence [.run (.plain :: appendFrame), .run (printError ++ [.plain]), .leave] := rfl
    have hsites : (emitHandler false errorBlock b).2.sites = b.sites := rfl
    rw [if_neg Bool.false_ne_true]
    refine (path_stops (.plain :: appendFrame ++ (printError ++ [.plain])) hsites).congr ⟨?_, ?_⟩
    · rw [hcode]
      simp only [flow_cons, flow_nil, flow_run, flow_leave]
      rfl
    · rw [hcode]
      simp only [offCycles_cons, offCycles_nil, offCycles_run, offCycles_leave]
      rfl

/-- What comes after instructions that count as `slots` do. -/
theorem Path.bound {part : Code} {b' : Builder} {slots bound : List Instruction}
    (h : Path deferred looped nothing part b b' t)
    (hbound : Flow.steps takesSlot bound = Flow.steps takesSlot slots) :
    Path deferred looped nothing (.sequence [.run bound, part]) b b' ((Trail.run slots).seq t) := by
  refine h.after_slot ⟨?_, ?_⟩
  · simp only [flow_cons, flow_run, hbound]
  · simp only [offCycles_cons, offCycles_run]

theorem recovered_continues (t : Trail) (merge : List Instruction) :
    ((t.fork Trail.pass).seq (Trail.run merge)).continues = true := by
  rw [Trail.seq_of_continues (Bool.or_true _)]
  rfl

/-- Where the value of a fallible call is loaded, next to the branch of its error. -/
theorem path_forked {first error : Code} {b' : Builder} (success : Option ℕ)
    (h : Path deferred true nothing error b b' t) :
    Path deferred looped (.sequence [nothing, first])
      (.sequence [first, .oneOf [error, .run (loadValue success)]]) b
      (append (loadValue success) b').2 (t.fork Trail.pass) := by
  have hvalue : Path deferred looped nothing (.run (loadValue success)) b'
      (append (loadValue success) b').2 Trail.pass :=
    Path.unchanged ⟨by simp [steps_loadValue], by simp⟩ rfl
  exact (h.fork hvalue).following

/-- Where the value of a fallible call, or of what handles its error, is merged. -/
theorem path_recovered {first error : Code} {b' : Builder} (success : Option ℕ)
    (merge : List Instruction) (h : Path deferred true nothing error b b' t) :
    Path deferred looped (.sequence [nothing, first])
      (.sequence [first, .oneOf [error, .run (loadValue success)], .run merge]) b
      (append merge (jump (append (loadValue success) b').2).2).2
      ((t.fork Trail.pass).seq (Trail.run merge)) := by
  have hmerge : Path deferred looped nothing (.run merge) b' b' (Trail.run merge) :=
    Path.plain (offCycles_run takesSlot merge) rfl
  have hvalue : Path deferred looped nothing (.run (loadValue success)) b' b' Trail.pass :=
    Path.unchanged ⟨by simp [steps_loadValue], by simp⟩ rfl
  have hcontinues : (t.fork Trail.pass).continues = true := Bool.or_true _
  refine ((h.fork hvalue).next (hmerge.last ⟨?_, ?_⟩) hcontinues).shift rfl rfl
  · simp [Flow.seq_assoc]
  · simp

theorem steps_bound (success : Option ℕ) :
    Flow.steps takesSlot (match success with
      | some roots => rootedSlot roots ++ [.plain]
      | none => []) = Flow.steps takesSlot ((success.map rootedSlot).getD []) := by
  cases success <;> simp [Flow.steps, takesSlot]

/-- The branch of a `try` without an error comes last. -/
theorem path_tried {first error : Code} {b' : Builder} {slots bound : List Instruction}
    {block : Emit (List Code)} (herror : Path deferred true nothing error b b' u)
    (hb : Ready b') (hlooped : decide (0 < b'.loops) = looped)
    (hblock : Followed deferred looped nothing Code.sequence block s l t) (hs : s = true)
    (hbound : Flow.steps takesSlot bound = Flow.steps takesSlot slots) :
    Path deferred looped (.sequence [nothing, first])
      (.sequence [first, .oneOf [error,
        .sequence [.run bound, .sequence (arm block (append bound b').2).1.1]]]) b
      (arm block (append bound b').2).2 (u.fork ((Trail.run slots).seq t)).aside := by
  have hpart := (hblock.path_arm (hb.append bound) hlooped hs).bound hbound
  exact (herror.fork (hpart.inside.shift rfl rfl)).following.aside

end Constructs

section Induction
variable {deferred looped : Bool} {before : Code}

theorem traced_joined {α β : Type} {view : α → Code} {view'' : β → Code} {x : Emit (α × Bool)}
    {s l : Bool} {t : Trail} {k : α × Bool → Code → β}
    (hx : Branched deferred looped nothing view x s l t)
    (hclosed : ∀ b, Closed b → Faulty (x b).2) (merge : List Instruction)
    (hsame : ∀ a last, Same (view'' (k a last)) (.sequence [before, .sequence [view a.1, last]])) :
    Traced deferred looped before view''
      (x >>= fun a => joined a.2 merge >>= fun last => pure (k a last)) ⟨false, s, l⟩
      (t.joined merge) where
  emits := emits_joined hx.flagged hclosed merge k
  continues := hx.continues
  path := (followed_joined hx merge hsame).path
  quiet := fun _ hsilent => by cases hsilent

mutual

theorem traced_expr (c : Context) (looped : Bool) (e : Expr) :
    Traced c.deferred looped nothing id (emitExpr c e) (fateExpr c.deferred looped e)
      (trailExpr c.deferred e) := by
  cases e with
  | operation before operands =>
    exact (traced_append before).bind fun first =>
      (traced_operands c looped operands).map fun codes => ⟨by simp, by simp⟩
  | ifExpr condition test thenBlock elseBlock merge =>
    have hthen := traced_stmts c looped false thenBlock
    have helse := traced_stmts c looped false elseBlock
    have hfork : Branched c.deferred looped nothing
        (fun codes : List Code × List Code => .oneOf [.sequence codes.1, .sequence codes.2])
        (fork (emitStmts c false thenBlock) (emitStmts c false elseBlock)) _ _ _ :=
      branched_or (branched_arm hthen.followed hthen.continues)
        (branched_arm helse.followed helse.continues) Prod.mk fun codes codes' =>
          ⟨by simp, by simp⟩
    refine (traced_expr c looped condition).bind fun code => (traced_append test).bind fun tested =>
      traced_jump (followed_joined hfork merge fun codes last => ⟨?_, ?_⟩) hfork.continues
    · simp [Flow.seq_assoc]
    · simp [Bool.and_assoc]
  | blockExpr block => exact (traced_stmts c looped false block).map fun codes => ⟨by simp, by simp⟩
  | matchExpr scrutinee arms merge =>
    refine (traced_expr c looped scrutinee).bind fun code => ?_
    refine (traced_joined (traced_arms c looped arms) (emits_arms c looped arms).closed merge
      fun body last => ⟨?_, ?_⟩).congr (own_arms c.deferred looped arms) rfl
    · simp
    · simp
  | fallibleOp op success args =>
    have hcall := traced_emitCall success (traced_operands c looped args)
    have hpass : (Trail.call success (trailOperands c.deferred args)).seq Trail.pass =
        Trail.call success (trailOperands c.deferred args) := Trail.seq_pass _
    cases op with
    | propagate =>
      refine (hcall.bind fun code => traced_jump (t := Trail.pass) ⟨?_, ?_⟩ rfl).congr rfl hpass
      · exact steps_bind (emits_append _).toSteps fun _ =>
          steps_bind (steps_left (emits_emitErrorReturn c).toSteps) fun _ =>
            (emits_map (emits_append _) _).toSteps
      · intro b hb hlooped _
        have herror := (traced_emitErrorReturn c).path (hb.append [.plain]) hlooped rfl
        have hbranch : Path c.deferred looped nothing
            (.sequence [.run [.plain], (emitErrorReturn c (append [.plain] b).2).1]) b
            (leaving (emitErrorReturn c) (append [.plain] b).2).2 Trail.leave :=
          (herror.last ⟨by simp, by simp⟩).shift rfl rfl
        exact (path_forked success hbranch.inside).shift rfl rfl
    | unwrap =>
      refine (hcall.bind fun code => traced_jump (t := Trail.pass) ⟨?_, ?_⟩ rfl).congr rfl hpass
      · exact steps_bind (emits_append _).toSteps fun _ => steps_bind steps_jump fun _ =>
          (emits_map (emits_append _) _).toSteps
      · intro b _ _ _
        have hbranch : Path c.deferred true nothing
            (.sequence [.run (.plain :: appendFrame ++ printError ++ [.plain]), .leave]) b b
            Trail.leave := path_stops _ rfl
        exact (path_forked success hbranch).shift rfl rfl
  | errorHandler success args handler merge =>
    have hcall := traced_emitCall success (traced_operands c looped args)
    have hblock := traced_stmts c looped false handler
    refine hcall.bind fun code => traced_jump ⟨?_, ?_⟩ (recovered_continues _ merge)
    · refine steps_bind (emits_append _).toSteps fun _ =>
        steps_then (flagged_arm hblock.emits.toSteps).steps fun _ => ?_
      exact steps_bind (emits_append _).toSteps fun _ => steps_bind steps_jump fun _ =>
        (emits_map (emits_append _) _).toSteps
    · intro b hb hlooped hs
      have hhandler := hblock.followed.path_arm (hb.append (.plain :: appendFrame ++ bindError))
        hlooped hs
      exact (path_recovered success merge (hhandler.bound rfl).inside).shift rfl rfl
  | errorMatch success args arms merge =>
    have hcall := traced_emitCall success (traced_operands c looped args)
    have harms := traced_arms c looped arms
    refine hcall.bind fun code => traced_jump ⟨?_, ?_⟩ (recovered_continues _ merge)
    · refine steps_bind (emits_append _).toSteps fun _ =>
        steps_then harms.flagged.steps fun _ => ?_
      exact steps_bind (emits_append _).toSteps fun _ => steps_bind steps_jump fun _ =>
        (emits_map (emits_append _) _).toSteps
    · intro b hb hlooped hs
      have hbody := harms.path (hb.append (.plain :: appendFrame ++ bindError ++ [.plain]))
        hlooped hs
      exact (path_recovered success merge (hbody.bound rfl).inside).shift rfl rfl
  | exit kind value convert =>
    cases kind with
    | ret =>
      have hexit : Traced c.deferred looped nothing id (emitExit c.deferred [.plain]) Fate.leaves
          Trail.leave := traced_emitExit (by simp)
      refine (traced_expr c looped value).bind fun code => (traced_append convert).bind
        fun converted => hexit.map fun exit => ⟨?_, ?_⟩
      · simp [Flow.seq_assoc]
      · simp [Bool.and_assoc]
    | err =>
      refine (traced_expr c looped value).bind fun code => (traced_append convert).bind
        fun converted => (traced_emitErrorReturn c).map fun exit => ⟨?_, ?_⟩
      · simp [Flow.seq_assoc]
      · simp [Bool.and_assoc]

theorem traced_operands (c : Context) (looped : Bool) (operands : Operands) :
    Traced c.deferred looped nothing id (emitOperands c operands)
      (fateOperands c.deferred looped operands) (trailOperands c.deferred operands) := by
  cases operands with
  | nil => exact traced_pure ⟨by simp, by simp⟩
  | cons operand after rest =>
    refine (traced_expr c looped operand).bind fun code => (traced_append after).bind fun last =>
      (traced_operands c looped rest).map fun codes => ⟨?_, ?_⟩
    · simp [Flow.seq_assoc]
    · simp [Bool.and_assoc]

theorem traced_arms (c : Context) (looped : Bool) (arms : Arms) :
    Branched c.deferred looped nothing id (emitArms c arms)
      (fateArms c.deferred looped arms).sound (fateArms c.deferred looped arms).falls
      (trailArms c.deferred arms) := by
  cases arms with
  | last pattern body =>
    have hbody := traced_expr c looped body
    have harm := branched_arm hbody.followed hbody.continues
    have hlast : ∀ test, Branched c.deferred looped (.sequence [nothing, test]) id
        (arm (emitExpr c body) >>= fun code => leaving closeBlock >>= fun _ =>
          pure (.sequence [test, .oneOf [code.1, .leave]], code.2)) _ _ _ :=
      fun test => branched_leaving harm
        (fun code => ControlTrees.Code.sequence [test, .oneOf [code, .leave]])
        fun code => ⟨by simp, by simp⟩
    exact branched_bind (traced_append pattern).followed rfl fun test => (hlast test).jump
  | cons pattern body rest =>
    have hbody := traced_expr c looped body
    have harm := branched_arm hbody.followed hbody.continues
    have hrest : ∀ test, Branched c.deferred looped (.sequence [nothing, test]) id
        (arm (emitExpr c body) >>= fun code => emitArms c rest >>= fun codes =>
          pure (.sequence [test, .oneOf [code.1, codes.1]], code.2 || codes.2)) _ _ _ :=
      fun test => branched_or harm (traced_arms c looped rest)
        (fun code codes => ControlTrees.Code.sequence [test, .oneOf [code, codes]])
        fun code codes => ⟨by simp, by simp⟩
    have htest : Branched c.deferred looped nothing id (emitArms c (.cons pattern body rest))
        (true && ((fateExpr c.deferred looped body).sound &&
          (fateArms c.deferred looped rest).sound))
        ((fateExpr c.deferred looped body).falls || (fateArms c.deferred looped rest).falls)
        (trailArms c.deferred (.cons pattern body rest)) :=
      branched_bind (traced_append pattern).followed rfl fun test => (hrest test).jump
    exact htest

theorem traced_stmt (c : Context) (looped : Bool) (stmt : Stmt) :
    Traced c.deferred looped nothing id (emitStmt c stmt) (fateStmt c.deferred looped stmt)
      (trailStmt c.deferred stmt) := by
  cases stmt with
  | variableDecl roots initializer convert =>
    refine (traced_append (rootedSlot roots)).bind fun slot =>
      (traced_expr c looped initializer).bind fun code =>
        (traced_store convert).map fun store => ⟨?_, ?_⟩
    · simp [Flow.seq_assoc]
    · simp [Bool.and_assoc]
  | expression expr => exact traced_expr c looped expr
  | forCondition condition test body =>
    have hbody := traced_stmts c true true body
    have hcondition : Traced c.deferred looped nothing id
        (emitExpr c condition >>= fun code => append test >>= fun tested =>
          pure (.sequence [code, tested])) _ _ :=
      (traced_expr c looped condition).bind fun code => (traced_append test).map fun tested =>
        ⟨by simp, by simp⟩
    have hcontinues := hcondition.continues
    refine traced_jump ⟨?_, ?_⟩ ?_
    · refine (emits_bind (emits_expr c looped condition) fun _ =>
        emits_bind (emits_append test) fun _ => emits_jump fun _ => ?_).toSteps
      exact steps_leaving (settles_inLoop hbody.emits.toSteps) closes_closeBlock _
    · intro b hb hlooped hsound
      have hparts : (fateExpr c.deferred looped condition).sound = true ∧
          (fateExpr c.deferred looped condition).falls = true ∧
          (fateStmts c.deferred true true body).sound = true := by
        cases hfalls : (fateExpr c.deferred looped condition).falls with
        | true => simpa [Fate.seq, Fate.aside, Fate.run, hfalls] using hsound
        | false => simp [Fate.seq, Fate.aside, Fate.run, hfalls] at hsound
      obtain ⟨hs, hfalls, hs'⟩ := hparts
      have hall : ((fateExpr c.deferred looped condition).seq (Fate.run test)).sound = true := by
        simp [Fate.seq, Fate.run, hs, hfalls]
      have hend := hcondition.path hb hlooped hall
      have hready := hcondition.emits.ready hb hlooped hall
      have hcontinue :
          ((fateExpr c.deferred looped condition).seq (Fate.run test)).falls = true := by
        simp [Fate.seq, Fate.run, hfalls]
      rw [hcontinue] at hready
      have hturn := path_inLoop hbody.followed (Ready.terminate hready).position hs'
      have hloop := hend.loop (hturn.shift rfl rfl) (hcontinues.trans hcontinue)
      exact hloop.shift rfl (sites_closeBlock _)
    · refine hcontinues.trans ?_
      simp [Fate.seq, Fate.run, Fate.aside]
  | forIn iteration operands body =>
    have hslots : Fate.run iteration.slots = Fate.run [.slot] := by cases iteration <;> rfl
    have helement : Flow.steps takesSlot iteration.element = Flow.pass := by cases iteration <;> rfl
    have hbody := traced_stmts c true true body
    have hturns : Trail.pass.loop (trailStmts c.deferred body) =
        (Trail.run [.plain]).seq (Trail.pass.loop (trailStmts c.deferred body)) :=
      (Trail.pass_seq _).symm
    rw [trailStmt, hturns]
    refine ((traced_append iteration.slots).congr hslots rfl).bind fun slots =>
      (traced_operands c looped operands).bind fun code =>
        Traced.bind (g := (fateStmts c.deferred true true body).aside) (traced_append [.plain])
          fun first => traced_jump ⟨?_, ?_⟩ rfl
    · refine steps_bind (emits_append _).toSteps fun _ => steps_bind steps_jump fun _ =>
        steps_bind (emits_append _).toSteps fun _ => ?_
      exact steps_leaving (settles_inLoop hbody.emits.toSteps) closes_advance _
    · intro b hb hlooped hsound
      have hhead : Path c.deferred looped nothing (.run [.plain]) b b Trail.pass :=
        Path.unchanged ⟨rfl, rfl⟩ rfl
      have hstart : Ready (append iteration.element (jump (append [.plain] b).2).2).2 :=
        (hb.append [.plain]).terminate.position.append iteration.element
      have hturn := path_inLoop hbody.followed hstart hsound
      have hloop := hhead.loop ((hturn.advanced helement).shift rfl rfl) rfl
      exact hloop.after.shift rfl rfl
  | tryCall success args successBlock handled errorBlock =>
    have hcall := traced_emitCall success (traced_operands c looped args)
    have herror := traced_stmts c looped true errorBlock
    have hsuccess := traced_stmts c looped true successBlock
    have hhandler := steps_emitHandler handled herror.emits.toSteps
    refine hcall.bind fun code => traced_jump ⟨?_, ?_⟩ rfl
    · refine steps_bind hhandler fun _ => steps_bind (emits_append _).toSteps fun _ => ?_
      exact steps_then (flagged_arm hsuccess.emits.toSteps).steps fun _ => (emits_pure _).toSteps
    · intro b hb hlooped hsound
      obtain ⟨hs, hs'⟩ := Bool.and_eq_true_iff.mp hsound
      have hfirst : handled = true →
          (fateStmts c.deferred looped true errorBlock).sound = true := by
        intro hhandled
        rwa [hhandled] at hs
      have hbranch := path_emitHandler handled herror.followed hb hlooped hfirst
      have hstart := hhandler.ready hb hlooped hs
      have hloops : decide (0 < (emitHandler handled (emitStmts c true errorBlock) b).2.loops) =
          looped := by
        rw [hhandler.loops]
        exact hlooped
      exact (path_tried hbranch hstart hloops hsuccess.followed hs' (steps_bound success)).shift
        rfl rfl
  | defer body =>
    obtain ⟨deferred, fallible⟩ := c
    cases deferred with
    | true =>
      exact (traced_stmts ⟨true, fallible⟩ looped true body).map fun codes => ⟨by simp, by simp⟩
    | false => exact traced_emitDefer (traced_stmts ⟨true, fallible⟩ false true body)
  | breakStmt => exact traced_emitBreak

theorem traced_stmts (c : Context) (looped checked : Bool) (stmts : List Stmt) :
    Traced c.deferred looped nothing Code.sequence (emitStmts c checked stmts)
      (fateStmts c.deferred looped checked stmts) (trailStmts c.deferred stmts) := by
  cases stmts with
  | nil => exact traced_pure ⟨by simp, by simp⟩
  | cons stmt stmts =>
    refine traced_unlessTerminated checked ((traced_stmt c looped stmt).bind fun code =>
      (traced_stmts c looped checked stmts).map fun codes => ⟨?_, ?_⟩) ⟨?_, ?_⟩
    · simp
    · simp
    · simp
    · simp

end

end Induction

section Callables
variable {looped : Bool}

theorem traced_fallThrough (isMain : Bool) :
    Traced false looped nothing id (fallThrough isMain) Fate.leaves Trail.leave := by
  have hexit : Traced false looped nothing id (emitExit false [.plain]) Fate.leaves Trail.leave :=
    traced_emitExit (by simp)
  cases isMain with
  | true => exact hexit
  | false =>
    refine ⟨emits_fallThrough false, rfl, ?_, fun _ hsilent => by cases hsilent⟩
    intro b hb hlooped hsound
    have hdrain : Ready (emitDeferred false b).2 := hb.emitDeferred
    have hloops : decide (0 < (emitDeferred false b).2.loops) = looped := by
      rw [(grows_emitDeferred false).loops]
      exact hlooped
    have hsites : (emitDeferred false b).2.sites = b.sites := sites_emitDeferred false b
    have hlast := (hexit.path hdrain hloops hsound).shift hsites.symm rfl
    have hoff := offCycles_drain false b
    rw [Bool.false_or] at hoff
    have hcode : (fallThrough false b).1 = .sequence [(emitDeferred false b).1,
        (emitExit false [.plain] (emitDeferred false b).2).1] := rfl
    have hall : offCycles takesSlot (fallThrough false b).1 = (calm b.sites &&
        offCycles takesSlot (emitExit false [.plain] (emitDeferred false b).2).1) := by
      rw [hcode, offCycles_cons, offCycles_cons, offCycles_nil, Bool.and_true, hoff]
    have hstill := hlast.still
    rw [id, offCycles_run, Bool.true_and, Trail.leave, Bool.and_true] at hstill
    refine ⟨?_, ?_, hlast.kept, fun hdeferred hl hstops h => ?_⟩
    · have hflow := hlast.flow
      rw [id, flow_run, Flow.steps_nil, Flow.pass_seq] at hflow
      rw [id, hcode, flow_cons, flow_cons, flow_nil, Flow.seq_pass, hflow]
      exact flow_drain false b
    · have hend : (fallThrough false b).2 = (emitExit false [.plain] (emitDeferred false b).2).2 :=
        rfl
      rw [id, hall, hend, offCycles_run, Bool.true_and, Bool.and_assoc, hstill, Bool.and_self,
        Trail.leave, Bool.and_true]
    · rw [id, hall, Bool.and_eq_true] at h
      exact hlast.exits hdeferred hl hstops h.2

/-- What a body passes. -/
def bodyTrail (body : List Stmt) : Option (Expr × List Instruction) → Trail
  | none => (trailStmts false body).seq Trail.leave
  | some (tail, convert) =>
    (trailStmts false body).seq ((trailExpr false tail).seq ((Trail.run convert).seq Trail.leave))

theorem traced_body (fallible isMain : Bool) (body : List Stmt)
    (tail : Option (Expr × List Instruction)) :
    Traced false false nothing id (emitBody ⟨false, fallible⟩ isMain body tail)
      (bodyFate body tail) (bodyTrail body tail) := by
  cases tail with
  | none =>
    refine (traced_stmts ⟨false, fallible⟩ false true body).bind fun codes =>
      (traced_unlessTerminated true (traced_fallThrough isMain) ⟨rfl, rfl⟩).map fun last => ⟨?_, ?_⟩
    · simp
    · simp
  | some pair =>
    obtain ⟨tail, convert⟩ := pair
    have hexit : Traced false false nothing id (emitExit false [.plain]) Fate.leaves Trail.leave :=
      traced_emitExit (by simp)
    have hvalue : Traced false false nothing id
        (emitExpr ⟨false, fallible⟩ tail >>= fun code => append (convert ++ [.plain]) >>=
          fun store => emitExit false [.plain] >>= fun exit =>
            pure (.sequence [code, store, exit])) _ _ :=
      (traced_expr ⟨false, fallible⟩ false tail).bind fun code => (traced_store convert).bind
        fun store => hexit.map fun exit => ⟨by simp [Flow.seq_assoc], by simp [Bool.and_assoc]⟩
    refine ((traced_stmts ⟨false, fallible⟩ false false body).bind fun codes =>
      (traced_unlessTerminated true hvalue ⟨rfl, rfl⟩).map fun last => ⟨?_, ?_⟩).congr ?_ rfl
    · simp
    · simp
    · rfl

theorem bodyTrail_still (f : Callable) : (bodyTrail f.body f.tail).still = stillCallable f := by
  unfold bodyTrail stillCallable
  cases f.tail with
  | none => cases h : (trailStmts false f.body).continues <;> simp [Trail.seq, Trail.leave, h]
  | some pair =>
    obtain ⟨tail, convert⟩ := pair
    cases h : (trailStmts false f.body).continues <;>
      cases h' : (trailExpr false tail).continues <;>
        simp [Trail.seq, Trail.leave, Trail.run, h, h']

theorem bodyTrail_continues (body : List Stmt) (tail : Option (Expr × List Instruction)) :
    (bodyTrail body tail).continues = false := by
  rw [(traced_body false false body tail).continues, bodyFate_falls]

theorem offCycles_emitCallable (f : Callable) (h : WellFormed (emitCallable f).2) :
    offCycles takesSlot (emitCallable f).1 = stillCallable f := by
  have hsound : (bodyFate f.body f.tail).sound = true := by
    rw [bodyFate_sound]
    exact (wellFormed_iff f).mp h
  have hentry := ready_fresh.append ([.slot, .slot, .plain] ++ f.parameters ++ [.plain])
  have hpath := (traced_body f.fallible f.isMain f.body f.tail).path hentry rfl hsound
  have hcode : (emitCallable f).1 = .sequence
      [.run ([.slot, .slot, .plain] ++ f.parameters ++ [.plain]), (emitBody
        ⟨false, f.fallible⟩ f.isMain f.body f.tail
          (append ([.slot, .slot, .plain] ++ f.parameters ++ [.plain]) fresh).2).1] := rfl
  have hstill := hpath.still
  rw [offCycles_run, Bool.true_and, bodyTrail_still, id] at hstill
  rw [hcode, offCycles_cons, offCycles_cons, offCycles_nil, offCycles_run, Bool.true_and,
    Bool.and_true]
  change _ = (true && stillCallable f) at hstill
  -- the last exit has shown what the deferred blocks are
  cases hoff : offCycles takesSlot (emitBody ⟨false, f.fallible⟩ f.isMain f.body f.tail
      (append ([.slot, .slot, .plain] ++ f.parameters ++ [.plain]) fresh).2).1 with
  | true =>
    have hcalm := hpath.exits rfl rfl (bodyTrail_continues f.body f.tail) hoff
    rw [hoff, hcalm] at hstill
    exact hstill
  | false =>
    rw [hoff] at hstill
    exact hstill

/-- No cycle of the control flow graph of a function passes an `alloca` or registers a root if and
only if the constructs of its body have none in a loop. Then a run of the function takes each of its
slots once, and so no more than it has. -/
theorem slots_once (f : Callable) (h : WellFormed (emitCallable f).2) :
    (OffCycles takesSlot (emitCallable f).1 ↔ stillCallable f = true) ∧
      (stillCallable f = true → ∀ slots outcome, Runs takesSlot (emitCallable f).1 slots outcome →
        slots.Nodup ∧ slots.length ≤ (marked takesSlot (emitCallable f).1).length) := by
  have hiff : OffCycles takesSlot (emitCallable f).1 ↔ stillCallable f = true := by
    rw [← offCycles_iff, offCycles_emitCallable f h]
  refine ⟨hiff, fun hstill slots outcome hruns => ?_⟩
  have hoff := hiff.mpr hstill
  exact ⟨nodup_of_runs hruns hoff, length_le_of_runs hruns hoff⟩

/-- `for x < 3 { let y := x }`, after `defer { let z := 1 }`. -/
def slotInLoop : Callable where
  isMain := false
  fallible := false
  parameters := []
  body := [
    .defer [.variableDecl 0 (.operation [.plain] .nil) []],
    .forCondition (.operation [.plain] .nil) [.plain]
      [.variableDecl 0 (.operation [.plain] .nil) []]]
  tail := none

theorem slotInLoop_on_cycle : ¬ OffCycles takesSlot (emitCallable slotInLoop).1 := by
  have hformed : WellFormed (emitCallable slotInLoop).2 :=
    (wellFormed_iff slotInLoop).mpr (by decide)
  have hslots := slots_once slotInLoop hformed
  intro hoff
  exact absurd (hslots.1.mp hoff) (by decide)

end Callables

end NewClLang.SlotPlacement
