import NewClLang.BlockConditions

set_option autoImplicit false

/-!
# Well-formed blocks

Every block of a function ends in its only terminator, if and only if nothing is emitted after one.
A block that goes on after its terminator stays, and so does a deferred block that will become one:
the last exit of a function dispatches on all of them.
-/
namespace NewClLang.BlockFormation
open BlockEmission BlockConditions

section Blocks

/-- One terminator, at the end. -/
def Formed (block : Block) : Prop :=
  ∃ is : Block, block = is ++ [.terminator] ∧ .terminator ∉ is

/-- Something comes after a terminator. -/
def Broken (block : Block) : Prop :=
  ∃ is js : Block, block = is ++ .terminator :: js ∧ js ≠ []

variable {block : Block}

theorem formed_append {is : Block} (h : .terminator ∉ is) : Formed (is ++ [.terminator]) :=
  ⟨is, rfl, h⟩

theorem not_broken (h : Formed block) : ¬ Broken block := by
  rintro ⟨is, js, heq, hne⟩
  obtain ⟨ks, rfl, hks⟩ := h
  obtain ⟨front, i, rfl⟩ := js.eq_nil_or_concat.resolve_left hne
  have hinit : ks = is ++ .terminator :: front := by
    rw [List.concat_eq_append, ← List.cons_append, ← List.append_assoc] at heq
    exact (List.append_inj' heq rfl).1
  apply hks
  rw [hinit]
  simp

theorem broken_append (h : Broken block) (is : Block) : Broken (block ++ is) := by
  obtain ⟨js, ks, rfl, hne⟩ := h
  exact ⟨js, ks ++ is, by simp, by simp [hne]⟩

theorem broken_of_formed (h : Formed block) {is : Block} (hne : is ≠ []) :
    Broken (block ++ is) := by
  obtain ⟨js, rfl, -⟩ := h
  exact ⟨js, is, by simp, hne⟩

theorem terminator_of_formed (h : Formed block) : Item.terminator ∈ block := by
  obtain ⟨is, rfl, -⟩ := h
  simp

theorem terminator_of_broken (h : Broken block) : Item.terminator ∈ block := by
  obtain ⟨is, js, rfl, -⟩ := h
  simp

theorem open_append {is : Block} (h : Item.terminator ∉ is) (instructions : List Instruction) :
    Item.terminator ∉ is ++ instructions.map .instruction := by
  simp [h]

end Blocks

section States

/-- No error has been raised, and every block is well formed. -/
structure WellFormed (b : Builder) : Prop where
  raised : b.raised = false
  current : Formed b.current
  left : ∀ block ∈ b.left, Formed block

structure Good (site : Site) : Prop where
  raised : site.raised = false
  current : .terminator ∉ site.current ∨ Formed site.current
  left : ∀ block ∈ site.left, Formed block

def Bad (site : Site) : Prop :=
  site.raised = true ∨ ∃ block ∈ site.current :: site.left, Broken block

/-- All is well, and the current block is open. -/
structure Ready (b : Builder) : Prop where
  raised : b.raised = false
  current : .terminator ∉ b.current
  left : ∀ block ∈ b.left, Formed block
  sites : ∀ site ∈ b.sites, Good site

/-- All is well, and the current block has ended. -/
structure Closed (b : Builder) : Prop where
  raised : b.raised = false
  current : Formed b.current
  left : ∀ block ∈ b.left, Formed block
  sites : ∀ site ∈ b.sites, Good site

/-- Nothing makes the function well formed. -/
def Faulty (b : Builder) : Prop := b.raised = true ∨ ∃ block ∈ b.current :: b.left, Broken block

/-- A deferred block that the next exit outside of all loops emits is not well formed. -/
structure Doomed (deferred : Bool) (b : Builder) : Prop where
  outside : deferred = false
  site : ∃ site ∈ b.sites, Bad site
  current : .terminator ∉ b.current ∨ 0 < b.loops

def Lost (deferred : Bool) (b : Builder) : Prop := Faulty b ∨ Doomed deferred b

def Reaches (falls : Bool) (b : Builder) : Prop := if falls then Ready b else Closed b

variable {b : Builder} {deferred : Bool}

theorem not_wellFormed (h : Faulty b) : ¬ WellFormed b := by
  intro hformed
  rcases h with hraised | ⟨block, hblock, hbroken⟩
  · rw [hformed.raised] at hraised
    cases hraised
  · rcases List.mem_cons.mp hblock with rfl | hleft
    · exact not_broken hformed.current hbroken
    · exact not_broken (hformed.left block hleft) hbroken

theorem Closed.wellFormed (h : Closed b) : WellFormed b := ⟨h.raised, h.current, h.left⟩

theorem isTerminated_iff : b.isTerminated = true ↔ .terminator ∈ b.current := by
  simp [Builder.isTerminated]

theorem Ready.not_isTerminated (h : Ready b) : b.isTerminated = false := by
  simpa [Builder.isTerminated] using h.current

theorem Closed.isTerminated (h : Closed b) : b.isTerminated = true :=
  isTerminated_iff.mpr (terminator_of_formed h.current)

end States

/-- What every emission keeps. -/
structure Grows {α : Type} (x : Emit α) : Prop where
  loops : ∀ b, (x b).2.loops = b.loops
  sites : ∀ b, ∀ site ∈ b.sites, site ∈ (x b).2.sites
  faulty : ∀ {b}, Faulty b → Faulty (x b).2

/-- What an emission makes of a state whose block is open. -/
structure Steps {α : Type} (deferred looped : Bool) (x : Emit α) (sound falls : Bool) : Prop
    extends Grows x where
  ready : ∀ {b}, Ready b → decide (0 < b.loops) = looped → sound = true → Reaches falls (x b).2
  unsound : ∀ {b}, Ready b → decide (0 < b.loops) = looped → sound = false →
    Lost deferred (x b).2
  doomed : ∀ {b}, Doomed deferred b → Lost deferred (x b).2

/-- What an emission makes of each state. -/
structure Emits {α : Type} (deferred looped : Bool) (x : Emit α) (f : Fate) : Prop
    extends Steps deferred looped x f.sound f.falls where
  closed : ∀ {b}, Closed b → if f.silent then (x b).2 = b else Faulty (x b).2

section Combinators
variable {α β : Type} {deferred looped : Bool} {x : Emit α} {k : α → Emit β} {f g : Fate}
  {s s' l l' : Bool}

theorem bind_apply (x : Emit α) (k : α → Emit β) (b : Builder) :
    (x >>= k) b = k (x b).1 (x b).2 := rfl

theorem grows_pure (a : α) : Grows (pure a : Emit α) where
  loops := fun _ => rfl
  sites := fun _ _ h => h
  faulty := fun h => h

theorem grows_bind (hx : Grows x) (hk : ∀ a, Grows (k a)) : Grows (x >>= k) where
  loops := by
    intro b
    exact ((hk _).loops _).trans (hx.loops b)
  sites := by
    intro b site h
    exact (hk _).sites _ site (hx.sites b site h)
  faulty := fun h => (hk _).faulty (hx.faulty h)

/-- In a loop, what waits for the last exit goes on waiting. -/
theorem Grows.doomed_loops (hx : Grows x) {b : Builder} (h : Doomed deferred b)
    (hloops : 0 < b.loops) : Doomed deferred (x b).2 := by
  obtain ⟨site, hsite, hbad⟩ := h.site
  refine ⟨h.outside, ⟨site, hx.sites b site hsite, hbad⟩, Or.inr ?_⟩
  rw [hx.loops]
  exact hloops

theorem lost_of_grows (hk : ∀ a, Steps deferred looped (k a) s l) {a : α} {b : Builder}
    (h : Lost deferred b) : Lost deferred (k a b).2 := by
  rcases h with hfaulty | hdoomed
  · exact Or.inl ((hk a).faulty hfaulty)
  · exact (hk a).doomed hdoomed

theorem steps_bind (hx : Steps deferred looped x s true)
    (hk : ∀ a, Steps deferred looped (k a) s' l) :
    Steps deferred looped (x >>= k) (s && s') l where
  toGrows := grows_bind hx.toGrows fun a => (hk a).toGrows
  ready := by
    intro b hready hlooped hsound
    obtain ⟨hs, hs'⟩ := Bool.and_eq_true_iff.mp hsound
    have hnext : Ready (x b).2 := hx.ready hready hlooped hs
    exact (hk _).ready hnext (by rw [hx.loops]; exact hlooped) hs'
  unsound := by
    intro b hready hlooped hsound
    cases hs : s with
    | false => exact lost_of_grows hk (hx.unsound hready hlooped hs)
    | true =>
      have hnext : Ready (x b).2 := hx.ready hready hlooped hs
      rw [hs, Bool.true_and] at hsound
      exact (hk _).unsound hnext (by rw [hx.loops]; exact hlooped) hsound
  doomed := fun h => lost_of_grows hk (hx.doomed h)

theorem emits_bind (hx : Emits deferred looped x f) (hk : ∀ a, Emits deferred looped (k a) g) :
    Emits deferred looped (x >>= k) (f.seq g) where
  toGrows := grows_bind hx.toGrows fun a => (hk a).toGrows
  ready := by
    intro b hready hlooped hsound
    obtain ⟨hs, hs'⟩ := Bool.and_eq_true_iff.mp hsound
    have hnext := hx.ready hready hlooped hs
    have hloops : decide (0 < (x b).2.loops) = looped := by
      rw [hx.loops]
      exact hlooped
    cases hfalls : f.falls with
    | true =>
      rw [hfalls] at hnext hs'
      have hlast := (hk (x b).1).ready hnext hloops hs'
      simpa [Fate.seq, hfalls, bind_apply] using hlast
    | false =>
      rw [hfalls] at hnext hs'
      have hlast := (hk (x b).1).closed hnext
      have hsilent : g.silent = true := hs'
      rw [if_pos hsilent] at hlast
      have hclosed : Closed (k (x b).1 (x b).2).2 := by
        rw [hlast]
        exact hnext
      simpa [Reaches, Fate.seq, hfalls, bind_apply] using hclosed
  unsound := by
    intro b hready hlooped hsound
    have hloops : decide (0 < (x b).2.loops) = looped := by
      rw [hx.loops]
      exact hlooped
    cases hs : f.sound with
    | false =>
      exact lost_of_grows (fun a => (hk a).toSteps) (hx.unsound hready hlooped hs)
    | true =>
      have hnext := hx.ready hready hlooped hs
      simp only [Fate.seq, hs, Bool.true_and] at hsound
      cases hfalls : f.falls with
      | true =>
        rw [hfalls] at hnext hsound
        exact (hk _).unsound hnext hloops hsound
      | false =>
        rw [hfalls] at hnext hsound
        have hlast := (hk (x b).1).closed hnext
        have hsilent : g.silent = false := hsound
        rw [if_neg (by simp [hsilent])] at hlast
        exact Or.inl hlast
  doomed := fun h => lost_of_grows (fun a => (hk a).toSteps) (hx.doomed h)
  closed := by
    intro b hclosed
    have hfirst := hx.closed hclosed
    cases hsilent : f.silent with
    | false =>
      rw [if_neg (by simp [hsilent])] at hfirst
      rw [if_neg (by simp [Fate.seq, hsilent])]
      exact (hk _).faulty hfirst
    | true =>
      rw [if_pos hsilent] at hfirst
      have hsecond := (hk (x b).1).closed hclosed
      rw [bind_apply, hfirst]
      simpa [Fate.seq, hsilent] using hsecond

end Combinators

section Instructions
variable {α β : Type} {deferred looped : Bool} {b b' : Builder} {s s' l l' : Bool}

theorem faulty_mono (h : Faulty b) (hraised : b.raised = true → b'.raised = true)
    (hcurrent : Broken b.current → ∃ block ∈ b'.current :: b'.left, Broken block)
    (hleft : ∀ block ∈ b.left, block ∈ b'.left) : Faulty b' := by
  rcases h with h | ⟨block, hblock, hbroken⟩
  · exact Or.inl (hraised h)
  · rcases List.mem_cons.mp hblock with rfl | hmem
    · exact Or.inr (hcurrent hbroken)
    · exact Or.inr ⟨block, List.mem_cons_of_mem _ (hleft block hmem), hbroken⟩

theorem faulty_of_current (h : Broken b.current) : Faulty b := Or.inr ⟨b.current, by simp, h⟩

theorem grows_append (instructions : List Instruction) : Grows (append instructions) where
  loops := fun _ => rfl
  sites := fun _ _ h => h
  faulty := fun h => faulty_mono h id (fun h => ⟨_, List.mem_cons_self, broken_append h _⟩)
    fun _ h => h

theorem grows_terminate : Grows terminate where
  loops := fun _ => rfl
  sites := fun _ _ h => h
  faulty := fun h => faulty_mono h id (fun h => ⟨_, List.mem_cons_self, broken_append h _⟩)
    fun _ h => h

theorem grows_position : Grows position where
  loops := fun _ => rfl
  sites := fun _ _ h => h
  faulty := fun h => faulty_mono h id (fun h => ⟨_, by simp [position], h⟩)
    fun _ h => List.mem_cons_of_mem _ h

theorem grows_jump : Grows jump := grows_bind grows_terminate fun _ => grows_position

theorem grows_unlessTerminated {x : Emit α} (checked : Bool) (skipped : α) (hx : Grows x) :
    Grows (unlessTerminated checked skipped x) where
  loops := by
    intro b
    unfold unlessTerminated
    split
    · rfl
    · exact hx.loops b
  sites := by
    intro b site h
    unfold unlessTerminated
    split
    · exact h
    · exact hx.sites b site h
  faulty := by
    intro b h
    unfold unlessTerminated
    split
    · exact h
    · exact hx.faulty h

theorem grows_closeBlock : Grows closeBlock where
  loops := by
    intro b
    unfold closeBlock
    split <;> rfl
  sites := by
    intro b site h
    unfold closeBlock
    split <;> exact h
  faulty := by
    intro b h
    unfold closeBlock
    split
    · exact h
    · exact grows_terminate.faulty h

theorem Ready.terminate (h : Ready b) : Closed (terminate b).2 :=
  ⟨h.raised, formed_append h.current, h.left, h.sites⟩

theorem Closed.position (h : Closed b) : Ready (position b).2 where
  raised := h.raised
  current := by simp [BlockEmission.position]
  left := by
    intro block hblock
    rcases List.mem_cons.mp hblock with rfl | hmem
    · exact h.current
    · exact h.left block hmem
  sites := h.sites

theorem Ready.append (h : Ready b) (instructions : List Instruction) :
    Ready (append instructions b).2 :=
  ⟨h.raised, open_append h.current instructions, h.left, h.sites⟩

theorem Closed.append (h : Closed b) {instructions : List Instruction} (hne : instructions ≠ []) :
    Faulty (append instructions b).2 :=
  faulty_of_current (broken_of_formed h.current (by simpa using hne))

theorem Closed.terminate (h : Closed b) : Faulty (terminate b).2 :=
  faulty_of_current (broken_of_formed h.current (by simp))

/-- A deferred block waits for an exit. -/
structure Pending (deferred : Bool) (b : Builder) : Prop where
  outside : deferred = false
  site : ∃ site ∈ b.sites, Bad site

theorem Doomed.pending (h : Doomed deferred b) : Pending deferred b := ⟨h.outside, h.site⟩

theorem Grows.pending {x : Emit α} (hx : Grows x) (h : Pending deferred b) :
    Pending deferred (x b).2 := by
  obtain ⟨site, hsite, hbad⟩ := h.site
  exact ⟨h.outside, site, hx.sites b site hsite, hbad⟩

theorem Pending.position (h : Pending deferred b) : Doomed deferred (position b).2 :=
  ⟨h.outside, h.site, Or.inl (by simp [BlockEmission.position])⟩

/-- What is emitted at the end of a block that another one follows. -/
structure Closes (y : Emit β) : Prop extends Grows y where
  opened : ∀ {b}, Ready b → Closed (y b).2
  ended : ∀ {b}, Closed b → (y b).2 = b

theorem closes_closeBlock : Closes closeBlock where
  toGrows := grows_closeBlock
  opened := by
    intro b h
    rw [closeBlock, h.not_isTerminated]
    exact h.terminate
  ended := by
    intro b h
    rw [closeBlock, h.isTerminated]
    rfl

theorem closes_advance : Closes advance where
  loops := by
    intro b
    unfold advance
    split <;> rfl
  sites := by
    intro b site h
    unfold advance
    split <;> exact h
  faulty := by
    intro b h
    unfold advance
    split
    · exact h
    · exact grows_terminate.faulty ((grows_append _).faulty h)
  opened := by
    intro b h
    rw [advance, h.not_isTerminated]
    exact (h.append _).terminate
  ended := by
    intro b h
    rw [advance, h.isTerminated]
    rfl

theorem emits_pure (a : α) : Emits deferred looped (pure a : Emit α) Fate.pass where
  toGrows := grows_pure a
  ready := fun h _ _ => h
  unsound := fun _ _ h => nomatch h
  doomed := fun h => Or.inr h
  closed := fun _ => rfl

theorem emits_append (instructions : List Instruction) :
    Emits deferred looped (append instructions) (Fate.run instructions) where
  toGrows := grows_append instructions
  ready := fun h _ _ => h.append instructions
  unsound := fun _ _ h => nomatch h
  doomed := by
    rintro b ⟨houtside, hsite, hcurrent⟩
    refine Or.inr ⟨houtside, hsite, ?_⟩
    rcases hcurrent with hopen | hloops
    · exact Or.inl (open_append hopen instructions)
    · exact Or.inr hloops
  closed := by
    intro b h
    cases instructions with
    | nil => simp [Fate.run, append]
    | cons i is =>
      have hfaulty : Faulty (append (i :: is) b).2 := h.append (by simp)
      simpa [Fate.run] using hfaulty

theorem steps_jump : Steps deferred looped jump true true where
  toGrows := grows_jump
  ready := fun h _ _ => h.terminate.position
  unsound := fun _ _ h => nomatch h
  doomed := fun h => Or.inr (grows_terminate.pending h.pending).position

theorem emits_jump {k : Unit → Emit β} (hk : ∀ a, Steps deferred looped (k a) s l) :
    Emits deferred looped (jump >>= k) ⟨false, s, l⟩ where
  toSteps := steps_bind steps_jump hk
  closed := fun h => (hk ()).faulty (grows_position.faulty h.terminate)

end Instructions

section Branches
variable {α β γ : Type} {deferred looped : Bool} {x : Emit α} {y : Emit β} {f g : Fate}
  {s s' l l' : Bool}

/-- An emission after which another block begins. -/
structure Settles (deferred looped : Bool) (x : Emit α) (sound : Bool) : Prop
    extends Grows x where
  ready : ∀ {b}, Ready b → decide (0 < b.loops) = looped → sound = true →
    Ready (x b).2 ∨ Closed (x b).2
  unsound : ∀ {b}, Ready b → decide (0 < b.loops) = looped → sound = false →
    Faulty (x b).2 ∨ Pending deferred (x b).2
  doomed : ∀ {b}, Doomed deferred b → Faulty (x b).2 ∨ Pending deferred (x b).2

theorem pending_of_lost {b : Builder} (h : Lost deferred b) : Faulty b ∨ Pending deferred b :=
  h.imp_right Doomed.pending

theorem ready_or_closed {b : Builder} (h : Reaches l b) : Ready b ∨ Closed b := by
  cases l with
  | true => exact Or.inl h
  | false => exact Or.inr h

theorem Steps.settles (hx : Steps deferred looped x s l) : Settles deferred looped x s where
  toGrows := hx.toGrows
  ready := fun h hlooped hs => ready_or_closed (hx.ready h hlooped hs)
  unsound := fun h hlooped hs => pending_of_lost (hx.unsound h hlooped hs)
  doomed := fun h => pending_of_lost (hx.doomed h)

theorem settles_inLoop (hx : Steps deferred true x s l) :
    Settles deferred looped (inLoop x) s where
  loops := fun _ => rfl
  sites := fun b site h => hx.sites { b with loops := b.loops + 1 } site h
  faulty := by
    intro b h
    exact hx.faulty (b := { b with loops := b.loops + 1 }) h
  ready := by
    intro b h _ hs
    have hentered : Ready { b with loops := b.loops + 1 } :=
      ⟨h.raised, h.current, h.left, h.sites⟩
    rcases ready_or_closed (hx.ready hentered (by simp) hs) with hready | hclosed
    · exact Or.inl ⟨hready.raised, hready.current, hready.left, hready.sites⟩
    · exact Or.inr ⟨hclosed.raised, hclosed.current, hclosed.left, hclosed.sites⟩
  unsound := by
    intro b h _ hs
    have hentered : Ready { b with loops := b.loops + 1 } :=
      ⟨h.raised, h.current, h.left, h.sites⟩
    rcases hx.unsound hentered (by simp) hs with hfaulty | hdoomed
    · exact Or.inl hfaulty
    · exact Or.inr ⟨hdoomed.outside, hdoomed.site⟩
  doomed := by
    intro b h
    have hentered : Doomed deferred { b with loops := b.loops + 1 } :=
      ⟨h.outside, h.site, Or.inr (Nat.succ_pos _)⟩
    rcases hx.doomed hentered with hfaulty | hdoomed
    · exact Or.inl hfaulty
    · exact Or.inr ⟨hdoomed.outside, hdoomed.site⟩

theorem grows_leaving (hy : Grows y) : Grows (leaving y) :=
  grows_bind hy fun _ => grows_bind grows_position fun _ => grows_pure _

theorem leaving_ready (hy : Closes y) {b : Builder} (h : Ready b ∨ Closed b) :
    Ready (leaving y b).2 := by
  rcases h with hready | hclosed
  · exact (hy.opened hready).position
  · have hsame : (leaving y b).2 = (position b).2 := by
      change (position (y b).2).2 = (position b).2
      rw [hy.ended hclosed]
    rw [hsame]
    exact hclosed.position

theorem leaving_lost (hy : Grows y) {b : Builder} (h : Faulty b ∨ Pending deferred b) :
    Lost deferred (leaving y b).2 := by
  rcases h with hfaulty | hpending
  · exact Or.inl ((grows_leaving hy).faulty hfaulty)
  · exact Or.inr (hy.pending hpending).position

theorem steps_leaving (hx : Settles deferred looped x s) (hy : Closes y) (k : α → β → γ) :
    Steps deferred looped (x >>= fun a => leaving y >>= fun c => pure (k a c)) s true where
  toGrows := grows_bind hx.toGrows fun _ => grows_bind (grows_leaving hy.toGrows) fun _ =>
    grows_pure _
  ready := fun h hlooped hs => leaving_ready hy (hx.ready h hlooped hs)
  unsound := fun h hlooped hs => leaving_lost hy.toGrows (hx.unsound h hlooped hs)
  doomed := fun h => leaving_lost hy.toGrows (hx.doomed h)

/-- A branch that has left the function. -/
theorem steps_left (hx : Steps deferred looped x s false) :
    Steps deferred looped (leaving x) s true where
  toGrows := grows_bind hx.toGrows fun _ => grows_bind grows_position fun _ => grows_pure _
  ready := fun h hlooped hs => (hx.ready h hlooped hs).position
  unsound := by
    intro b h hlooped hs
    rcases hx.unsound h hlooped hs with hfaulty | hdoomed
    · exact Or.inl (grows_position.faulty hfaulty)
    · exact Or.inr hdoomed.pending.position
  doomed := by
    intro b h
    rcases hx.doomed h with hfaulty | hdoomed
    · exact Or.inl (grows_position.faulty hfaulty)
    · exact Or.inr hdoomed.pending.position

/-- A branch that does not continue has not passed an exit that would have emitted what waits. -/
def Waits (deferred : Bool) (r : (α × Bool) × Builder) : Prop :=
  Faulty r.2 ∨ (Doomed deferred r.2 ∧ (r.1.2 = false → 0 < r.2.loops))

/-- Branches after which a new block begins, and whether one of them continues. -/
structure Flagged (deferred looped : Bool) (x : Emit (α × Bool)) (sound flag : Bool) : Prop
    extends Grows x where
  ready : ∀ {b}, Ready b → decide (0 < b.loops) = looped → sound = true →
    Ready (x b).2 ∧ (x b).1.2 = flag
  unsound : ∀ {b}, Ready b → decide (0 < b.loops) = looped → sound = false →
    Waits deferred (x b)
  doomed : ∀ {b}, Doomed deferred b → Waits deferred (x b)

theorem Flagged.steps {x : Emit (α × Bool)} (hx : Flagged deferred looped x s l) :
    Steps deferred looped x s true where
  toGrows := hx.toGrows
  ready := fun h hlooped hs => (hx.ready h hlooped hs).1
  unsound := fun h hlooped hs => (hx.unsound h hlooped hs).imp_right And.left
  doomed := fun h => (hx.doomed h).imp_right And.left

theorem grows_arm (hx : Grows x) : Grows (arm x) :=
  grows_bind hx fun _ => grows_bind ⟨fun _ => rfl, fun _ _ h => h, fun h => h⟩ fun _ =>
    grows_bind (grows_leaving grows_closeBlock) fun _ => grows_pure _

theorem arm_state (x : Emit α) (b : Builder) : (arm x b).2 = (leaving closeBlock (x b).2).2 := rfl

theorem arm_flag (x : Emit α) (b : Builder) : (arm x b).1.2 = !(x b).2.isTerminated := rfl

theorem waits_arm (hx : Grows x) {b : Builder} (h : Lost deferred (x b).2) :
    Waits deferred (arm x b) := by
  rcases h with hfaulty | hdoomed
  · exact Or.inl (by
      rw [arm_state]
      exact (grows_leaving grows_closeBlock).faulty hfaulty)
  · refine Or.inr ⟨?_, fun hflag => ?_⟩
    · rw [arm_state]
      exact (grows_closeBlock.pending hdoomed.pending).position
    · rw [arm_flag, Bool.not_eq_false'] at hflag
      rw [(grows_arm hx).loops, ← hx.loops]
      rcases hdoomed.current with hopen | hloops
      · exact absurd (isTerminated_iff.mp hflag) hopen
      · exact hloops

theorem flagged_arm (hx : Steps deferred looped x s l) : Flagged deferred looped (arm x) s l where
  toGrows := grows_arm hx.toGrows
  ready := by
    intro b h hlooped hs
    have hnext := hx.ready h hlooped hs
    rw [arm_state, arm_flag]
    refine ⟨leaving_ready closes_closeBlock (ready_or_closed hnext), ?_⟩
    cases l with
    | true => rw [Ready.not_isTerminated hnext, Bool.not_false]
    | false => rw [Closed.isTerminated hnext, Bool.not_true]
  unsound := fun h hlooped hs => waits_arm hx.toGrows (hx.unsound h hlooped hs)
  doomed := fun h => waits_arm hx.toGrows (hx.doomed h)

theorem flagged_bind {k : α → Emit (β × Bool)} (hx : Steps deferred looped x s true)
    (hk : ∀ a, Flagged deferred looped (k a) s' l) :
    Flagged deferred looped (x >>= k) (s && s') l where
  toGrows := grows_bind hx.toGrows fun a => (hk a).toGrows
  ready := by
    intro b h hlooped hsound
    obtain ⟨hs, hs'⟩ := Bool.and_eq_true_iff.mp hsound
    exact (hk _).ready (hx.ready h hlooped hs) (by rw [hx.loops]; exact hlooped) hs'
  unsound := by
    intro b h hlooped hsound
    cases hs : s with
    | false =>
      rcases hx.unsound h hlooped hs with hfaulty | hdoomed
      · exact Or.inl ((hk _).faulty hfaulty)
      · exact (hk _).doomed hdoomed
    | true =>
      rw [hs, Bool.true_and] at hsound
      exact (hk _).unsound (hx.ready h hlooped hs) (by rw [hx.loops]; exact hlooped) hsound
  doomed := by
    intro b h
    rcases hx.doomed h with hfaulty | hdoomed
    · exact Or.inl ((hk _).faulty hfaulty)
    · exact (hk _).doomed hdoomed

theorem waits_leaving {x : Emit (α × Bool)} (hy : Grows y) {b : Builder} (k : α → γ)
    (h : Waits deferred (x b)) :
    Waits deferred ((x >>= fun a => leaving y >>= fun _ => pure (k a.1, a.2)) b) := by
  rcases h with hfaulty | ⟨hdoomed, hflag⟩
  · exact Or.inl ((grows_leaving hy).faulty hfaulty)
  · refine Or.inr ⟨(hy.pending hdoomed.pending).position, fun hlast => ?_⟩
    change 0 < (leaving y (x b).2).2.loops
    rw [(grows_leaving hy).loops]
    exact hflag hlast

/-- The later branch is the one that tells whether something waits. -/
theorem flagged_or {x : Emit (α × Bool)} {y : Emit (β × Bool)}
    (hx : Flagged deferred looped x s l) (hy : Flagged deferred looped y s' l') (k : α → β → γ) :
    Flagged deferred looped (x >>= fun a => y >>= fun c => pure (k a.1 c.1, a.2 || c.2))
      (s && s') (l || l') where
  toGrows := grows_bind hx.toGrows fun _ => grows_bind hy.toGrows fun _ => grows_pure _
  ready := by
    intro b h hlooped hsound
    obtain ⟨hs, hs'⟩ := Bool.and_eq_true_iff.mp hsound
    obtain ⟨hnext, hflag⟩ := hx.ready h hlooped hs
    obtain ⟨hlast, hflag'⟩ := hy.ready hnext (by rw [hx.loops]; exact hlooped) hs'
    refine ⟨hlast, ?_⟩
    change ((x b).1.2 || (y (x b).2).1.2) = (l || l')
    rw [hflag, hflag']
  unsound := by
    intro b h hlooped hsound
    have hwaits : Waits deferred (y (x b).2) := by
      cases hs : s with
      | false =>
        rcases hx.unsound h hlooped hs with hfaulty | ⟨hdoomed, -⟩
        · exact Or.inl (hy.faulty hfaulty)
        · exact hy.doomed hdoomed
      | true =>
        rw [hs, Bool.true_and] at hsound
        exact hy.unsound (hx.ready h hlooped hs).1 (by rw [hx.loops]; exact hlooped) hsound
    refine hwaits.imp_right fun hdoomed => ⟨hdoomed.1, fun hflag => hdoomed.2 ?_⟩
    exact (Bool.or_eq_false_iff.mp hflag).2
  doomed := by
    intro b h
    have hwaits : Waits deferred (y (x b).2) := by
      rcases hx.doomed h with hfaulty | ⟨hdoomed, -⟩
      · exact Or.inl (hy.faulty hfaulty)
      · exact hy.doomed hdoomed
    refine hwaits.imp_right fun hdoomed => ⟨hdoomed.1, fun hflag => hdoomed.2 ?_⟩
    exact (Bool.or_eq_false_iff.mp hflag).2

theorem flagged_leaving {x : Emit (α × Bool)} (hx : Flagged deferred looped x s l)
    (hy : Closes y) (k : α → γ) :
    Flagged deferred looped (x >>= fun a => leaving y >>= fun _ => pure (k a.1, a.2)) s l where
  toGrows := grows_bind hx.toGrows fun _ => grows_bind (grows_leaving hy.toGrows) fun _ =>
    grows_pure _
  ready := by
    intro b h hlooped hs
    obtain ⟨hnext, hflag⟩ := hx.ready h hlooped hs
    exact ⟨leaving_ready hy (Or.inl hnext), hflag⟩
  unsound := fun h hlooped hs => waits_leaving hy.toGrows k (hx.unsound h hlooped hs)
  doomed := fun h => waits_leaving hy.toGrows k (hx.doomed h)

theorem flagged_fork (hx : Steps deferred looped x s l) (hy : Steps deferred looped y s' l') :
    Flagged deferred looped (fork x y) (s && s') (l || l') :=
  flagged_or (flagged_arm hx) (flagged_arm hy) Prod.mk

theorem grows_joined (continues : Bool) (merge : List Instruction) :
    Grows (joined continues merge) := by
  cases continues with
  | true => exact grows_append merge
  | false => exact grows_bind grows_terminate fun _ => grows_pure _

theorem lost_joined {x : Emit (α × Bool)} {b : Builder} (merge : List Instruction)
    (h : Waits deferred (x b)) : Lost deferred (joined (x b).1.2 merge (x b).2).2 := by
  rcases h with hfaulty | ⟨hdoomed, hflag⟩
  · exact Or.inl ((grows_joined _ merge).faulty hfaulty)
  · cases hcontinues : (x b).1.2 with
    | true =>
      have happend : Emits deferred false (append merge) (Fate.run merge) := emits_append merge
      exact happend.doomed hdoomed
    | false => exact Or.inr ((grows_joined false merge).doomed_loops hdoomed (hflag hcontinues))

theorem steps_joined {x : Emit (α × Bool)} (hx : Flagged deferred looped x s l)
    (merge : List Instruction) (k : α × Bool → Code → γ) :
    Steps deferred looped (x >>= fun a => joined a.2 merge >>= fun c => pure (k a c)) s l where
  toGrows := grows_bind hx.toGrows fun _ => grows_bind (grows_joined _ merge) fun _ =>
    grows_pure _
  ready := by
    intro b h hlooped hs
    obtain ⟨hnext, hflag⟩ := hx.ready h hlooped hs
    change Reaches l (joined (x b).1.2 merge (x b).2).2
    rw [hflag]
    cases l with
    | true => exact hnext.append merge
    | false => exact hnext.terminate
  unsound := fun h hlooped hs => lost_joined merge (hx.unsound h hlooped hs)
  doomed := fun h => lost_joined merge (hx.doomed h)

end Branches

section Deferred
variable {deferred looped : Bool} {b : Builder} {site : Site} {sites : List Site}

theorem grows_enterSite (site : Site) : Grows (enterSite site) where
  loops := fun _ => rfl
  sites := fun _ _ h => h
  faulty := by
    intro b h
    refine faulty_mono h (fun hraised => ?_) (fun hbroken => ⟨b.current, ?_, hbroken⟩)
      fun block hblock => ?_
    · simp [enterSite, hraised]
    · simp [enterSite]
    · simp [enterSite, hblock]

theorem grows_emitSite (site : Site) : Grows (emitSite site) :=
  grows_bind grows_terminate fun _ => grows_bind (grows_enterSite site) fun _ =>
    grows_leaving grows_closeBlock

theorem grows_emitSites (sites : List Site) : Grows (emitSites sites) := by
  induction sites with
  | nil => exact grows_pure ()
  | cons site sites ih => exact grows_bind (grows_emitSite site) fun _ => ih

theorem Closed.enterSite (h : Closed b) (hsite : Good site) :
    Ready (enterSite site b).2 ∨ Closed (enterSite site b).2 := by
  have hraised : (BlockEmission.enterSite site b).2.raised = false := by
    simp [BlockEmission.enterSite, h.raised, hsite.raised]
  have hleft : ∀ block ∈ (BlockEmission.enterSite site b).2.left, Formed block := by
    intro block hblock
    rcases List.mem_append.mp hblock with hinner | houter
    · exact hsite.left block hinner
    · rcases List.mem_cons.mp houter with rfl | hmem
      · exact h.current
      · exact h.left block hmem
  exact hsite.current.imp (fun hopen => ⟨hraised, hopen, hleft, h.sites⟩)
    fun hformed => ⟨hraised, hformed, hleft, h.sites⟩

theorem Ready.emitSite (h : Ready b) (hsite : Good site) : Ready (emitSite site b).2 :=
  leaving_ready closes_closeBlock (h.terminate.enterSite hsite)

theorem Ready.emitSites (h : Ready b) (hsites : ∀ site ∈ sites, Good site) :
    Ready (emitSites sites b).2 := by
  induction sites generalizing b with
  | nil => exact h
  | cons site sites ih =>
    have hnext := h.emitSite (hsites site List.mem_cons_self)
    exact ih hnext fun site' hmem => hsites site' (List.mem_cons_of_mem _ hmem)

/-- Outside of all loops, a bad deferred block shows. -/
theorem emitSite_bad (hloops : b.loops = 0) (hsite : Bad site) : Faulty (emitSite site b).2 := by
  apply (grows_leaving grows_closeBlock).faulty
  rcases hsite with hraised | ⟨block, hblock, hbroken⟩
  · refine Or.inl ?_
    change (b.raised || (site.raised && b.loops == 0)) = true
    simp [hraised, hloops]
  · refine Or.inr ⟨block, ?_, hbroken⟩
    rcases List.mem_cons.mp hblock with rfl | hmem
    · exact List.mem_cons_self
    · exact List.mem_cons_of_mem _ (List.mem_append_left _ hmem)

theorem emitSites_bad (hloops : b.loops = 0) (h : ∃ site ∈ sites, Bad site) :
    Faulty (emitSites sites b).2 := by
  induction sites generalizing b with
  | nil => simp at h
  | cons site sites ih =>
    obtain ⟨site', hmem, hbad⟩ := h
    rcases List.mem_cons.mp hmem with rfl | hrest
    · exact (grows_emitSites sites).faulty (emitSite_bad hloops hbad)
    · have hzero : (emitSite site b).2.loops = 0 := ((grows_emitSite site).loops b).trans hloops
      exact ih hzero ⟨site', hrest, hbad⟩

theorem grows_dispatch (sites : List Site) : Grows (dispatch sites) :=
  grows_bind grows_jump fun _ => grows_bind (grows_append _) fun _ => grows_bind grows_jump fun _ =>
    grows_bind (grows_append _) fun _ => grows_bind (grows_emitSites sites) fun _ =>
      grows_bind (grows_leaving grows_closeBlock) fun _ => grows_bind grows_jump fun _ =>
        grows_pure _

theorem grows_emitDeferred (deferred : Bool) : Grows (emitDeferred deferred) := by
  cases deferred with
  | true => exact ⟨fun _ => rfl, fun _ _ h => h, fun h => h⟩
  | false =>
    refine ⟨fun b => ?_, fun b => ?_, fun {b} => ?_⟩
    · exact (grows_dispatch b.sites).loops b
    · exact (grows_dispatch b.sites).sites b
    · exact (grows_dispatch b.sites).faulty

theorem Ready.emitDeferred (h : Ready b) : Ready (emitDeferred deferred b).2 := by
  cases deferred with
  | true => exact h
  | false =>
    have hbody := (h.terminate.position.append [.plain]).terminate.position.append [.plain]
    have hsites := hbody.emitSites h.sites
    exact (leaving_ready closes_closeBlock (Or.inl hsites)).terminate.position

theorem Doomed.emitDeferred (h : Doomed deferred b) (hloops : b.loops = 0) :
    Faulty (emitDeferred deferred b).2 := by
  obtain rfl := h.outside
  have hsites : Faulty (emitSites b.sites
      (append [.plain] (jump (append [.plain] (jump b).2).2).2).2).2 :=
    emitSites_bad hloops h.site
  exact grows_jump.faulty ((grows_leaving grows_closeBlock).faulty hsites)

theorem grows_emitExit (deferred : Bool) (last : List Instruction) :
    Grows (emitExit deferred last) :=
  grows_bind (grows_emitDeferred deferred) fun _ => grows_bind (grows_append last) fun _ =>
    grows_bind grows_terminate fun _ => grows_pure _

/-- An exit ends the block, and shows what has waited for it. -/
theorem emits_emitExit {last : List Instruction} (hlast : last ≠ []) :
    Emits deferred looped (emitExit deferred last) Fate.leaves where
  toGrows := grows_emitExit deferred last
  ready := by
    intro b h _ _
    have hdrain : Ready (BlockEmission.emitDeferred deferred b).2 := h.emitDeferred
    exact (hdrain.append last).terminate
  unsound := fun _ _ h => nomatch h
  doomed := by
    intro b h
    rcases Nat.eq_zero_or_pos b.loops with hzero | hpos
    · refine Or.inl (grows_terminate.faulty ((grows_append last).faulty ?_))
      exact h.emitDeferred hzero
    · exact Or.inr ((grows_emitExit deferred last).doomed_loops h hpos)
  closed := by
    intro b h
    have hfaulty : Faulty
        (BlockEmission.append last (BlockEmission.emitDeferred deferred b).2).2 := by
      cases deferred with
      | true => exact h.append hlast
      | false =>
        refine (grows_append last).faulty ?_
        refine (grows_bind grows_position fun _ => grows_bind (grows_append _) fun _ =>
          grows_bind grows_jump fun _ => grows_bind (grows_append _) fun _ =>
            grows_bind (grows_emitSites b.sites) fun _ =>
              grows_bind (grows_leaving grows_closeBlock) fun _ => grows_jump).faulty ?_
        exact h.terminate
    have hexit : Faulty (emitExit deferred last b).2 := grows_terminate.faulty hfaulty
    simpa [Fate.leaves] using hexit

end Deferred

section Constructs
variable {α β : Type} {deferred looped : Bool} {x : Emit α} {f g : Fate} {s l : Bool}

theorem Emits.congr (hx : Emits deferred looped x f) (heq : f = g) : Emits deferred looped x g :=
  heq ▸ hx

theorem steps_then {k : α → Emit β} (hx : Steps deferred looped x s true)
    (hk : ∀ a, Steps deferred looped (k a) true l) : Steps deferred looped (x >>= k) s l := by
  have hbind := steps_bind hx hk
  rw [Bool.and_true] at hbind
  exact hbind

theorem emits_map (hx : Emits deferred looped x f) (k : α → β) :
    Emits deferred looped (x >>= fun a => pure (k a)) f := by
  have hpure : ∀ a, Emits deferred looped (pure (k a)) Fate.pass := fun a => emits_pure (k a)
  refine (emits_bind hx hpure).congr ?_
  cases f with
  | mk silent sound falls => cases silent <;> cases sound <;> cases falls <;> rfl

theorem emits_joined {x : Emit (α × Bool)} (hx : Flagged deferred looped x s l)
    (hclosed : ∀ b, Closed b → Faulty (x b).2) (merge : List Instruction)
    (k : α × Bool → Code → β) :
    Emits deferred looped (x >>= fun a => joined a.2 merge >>= fun c => pure (k a c))
      ⟨false, s, l⟩ where
  toSteps := steps_joined hx merge k
  closed := fun h => (grows_joined _ merge).faulty (hclosed _ h)

theorem emits_unlessTerminated (checked : Bool) (skipped : α) (hx : Emits deferred looped x f) :
    Emits deferred looped (unlessTerminated checked skipped x)
      { f with silent := checked || f.silent } where
  toGrows := grows_unlessTerminated checked skipped hx.toGrows
  ready := by
    intro b h hlooped hsound
    rw [unlessTerminated, h.not_isTerminated, Bool.and_false]
    exact hx.ready h hlooped hsound
  unsound := by
    intro b h hlooped hsound
    rw [unlessTerminated, h.not_isTerminated, Bool.and_false]
    exact hx.unsound h hlooped hsound
  doomed := by
    intro b h
    unfold unlessTerminated
    split
    · exact Or.inr h
    · exact hx.doomed h
  closed := by
    intro b h
    rw [unlessTerminated, h.isTerminated, Bool.and_true]
    cases checked with
    | true => rfl
    | false => exact hx.closed h

theorem run_append (instructions : List Instruction) :
    Fate.run (instructions ++ [.plain]) = Fate.run [.plain] := by
  cases instructions <;> rfl

theorem run_fallibleOutSlots (success : Option ℕ) :
    Fate.run (fallibleOutSlots success) = Fate.run [.slot] := by
  cases success <;> rfl

theorem emits_emitErrorReturn (c : Context) :
    Emits c.deferred looped (emitErrorReturn c) Fate.leaves := by
  have hlast : errorEnd c.fallible ≠ [] := by
    unfold errorEnd
    split <;> simp
  have hframe : Emits c.deferred looped (append (appendFrame ++ [.plain])) (Fate.run [.plain]) :=
    (emits_append _).congr (run_append appendFrame)
  exact emits_bind hframe fun _ => emits_map (emits_emitExit hlast) _

theorem emits_emitBreak : Emits deferred looped emitBreak ⟨false, looped, false⟩ where
  loops := fun _ => rfl
  sites := fun _ _ h => h
  faulty := by
    intro b h
    exact faulty_mono h (fun hraised => by simp [emitBreak, hraised])
      (fun h => ⟨_, List.mem_cons_self, broken_append h _⟩) fun _ h => h
  ready := by
    intro b h hlooped hsound
    have hinside : looped = true := hsound
    have hloops : b.loops ≠ 0 := by
      rw [hinside, decide_eq_true_eq] at hlooped
      omega
    exact ⟨by simp [emitBreak, h.raised, hloops], formed_append h.current, h.left, h.sites⟩
  unsound := by
    intro b h hlooped hsound
    have houtside : looped = false := hsound
    have hloops : b.loops = 0 := by
      rw [houtside, decide_eq_false_iff_not] at hlooped
      omega
    exact Or.inl (Or.inl (by simp [emitBreak, hloops]))
  doomed := by
    intro b h
    rcases Nat.eq_zero_or_pos b.loops with hzero | hpos
    · exact Or.inl (Or.inl (by simp [emitBreak, hzero]))
    · exact Or.inr ⟨h.outside, h.site, Or.inr hpos⟩
  closed := fun h => faulty_of_current (broken_of_formed h.current (by simp))

theorem emits_emitCall {args : Emit Code} (success : Option ℕ)
    (hargs : Emits deferred looped args f) :
    Emits deferred looped (emitCall success args) (Fate.call f) := by
  have hslots : Emits deferred looped (append (fallibleOutSlots success)) (Fate.run [.slot]) :=
    (emits_append _).congr (run_fallibleOutSlots success)
  exact emits_bind hslots fun _ => emits_bind hargs fun _ => emits_map (emits_append [.plain]) _

theorem steps_emitHandler {errorBlock : Emit (List Code)} (handled : Bool)
    (h : Steps deferred looped errorBlock f.sound f.falls) :
    Steps deferred looped (emitHandler handled errorBlock)
      (if handled then f else Fate.pass).sound true := by
  unfold emitHandler
  cases handled with
  | true =>
    exact steps_bind (emits_append _).toSteps fun _ => steps_bind (emits_append _).toSteps fun _ =>
      steps_then (flagged_arm h).steps fun _ => (emits_pure _).toSteps
  | false =>
    exact steps_bind (emits_append _).toSteps fun _ => steps_bind (emits_append _).toSteps fun _ =>
      steps_then steps_jump fun _ => (emits_pure _).toSteps

/-- The builder at the beginning of a function, and of a deferred block. -/
def fresh : Builder := ⟨[], [], [], 0, false⟩

theorem ready_fresh : Ready fresh := ⟨rfl, by simp [fresh], by simp [fresh], by simp [fresh]⟩

theorem good_of_reaches {b : Builder} (h : Reaches l b) (code : Code) :
    Good ⟨b.current, b.left, b.raised, code⟩ := by
  rcases ready_or_closed h with hready | hclosed
  · exact ⟨hready.raised, Or.inl hready.current, hready.left⟩
  · exact ⟨hclosed.raised, Or.inr hclosed.current, hclosed.left⟩

theorem emits_emitDefer {body : Emit (List Code)} (h : Emits true false body f) :
    Emits false looped (emitDefer false body) f.aside where
  loops := fun _ => rfl
  sites := fun _ _ h => List.mem_append_left _ h
  faulty := fun h => faulty_mono h id (fun h => ⟨_, List.mem_cons_self, broken_append h _⟩)
    fun _ h => h
  ready := by
    intro b hb _ hsound
    have hsite := good_of_reaches (h.ready ready_fresh rfl hsound)
      (.sequence (body fresh).1)
    refine ⟨hb.raised, open_append hb.current [.plain], hb.left, fun site hmem => ?_⟩
    rcases List.mem_append.mp hmem with hold | hnew
    · exact hb.sites site hold
    · rw [List.mem_singleton.mp hnew]
      exact hsite
  unsound := by
    intro b hb _ hsound
    refine Or.inr ⟨rfl, ⟨_, List.mem_append_right _ (List.mem_singleton.mpr rfl), ?_⟩,
      Or.inl (open_append hb.current [.plain])⟩
    rcases h.unsound ready_fresh rfl hsound with hfaulty | hdoomed
    · exact hfaulty
    · exact nomatch hdoomed.outside
  doomed := by
    intro b hb
    obtain ⟨site, hsite, hbad⟩ := hb.site
    refine Or.inr ⟨rfl, ⟨site, List.mem_append_left _ hsite, hbad⟩, ?_⟩
    exact hb.current.imp_left fun hopen => open_append hopen [.plain]
  closed := fun h => faulty_of_current (broken_of_formed h.current (by simp))

theorem emits_emitDefer_inside {body : Emit (List Code)} (h : Emits true looped body f) :
    Emits true looped (emitDefer true body) f :=
  emits_map h ControlTrees.Code.sequence

end Constructs

section Induction

/-- The arms of a `match`, with their tests. -/
structure EmitsArms (deferred looped : Bool) (x : Emit (Code × Bool)) (f : Fate) : Prop where
  flagged : Flagged deferred looped x f.sound f.falls
  closed : ∀ b, Closed b → Faulty (x b).2

theorem own_arms (deferred looped : Bool) (arms : Arms) :
    (⟨false, (fateArms deferred looped arms).sound, (fateArms deferred looped arms).falls⟩ : Fate) =
      fateArms deferred looped arms := by
  cases arms <;> simp [fateArms, Fate.seq, Fate.own, Fate.fork, Fate.run]

theorem closed_test {α : Type} {pattern : List Instruction} {k : Code → Emit α}
    (hk : ∀ test, Grows (k test)) (b : Builder) (h : Closed b) :
    Faulty ((append pattern >>= fun test => jump >>= fun _ => k test) b).2 := by
  have hjump : Faulty (jump (append pattern b).2).2 := by
    cases pattern with
    | nil =>
      have hsame : (append [] b).2 = b := by simp [append]
      rw [hsame]
      exact grows_position.faulty h.terminate
    | cons i is => exact grows_jump.faulty (h.append (by simp))
  exact (hk _).faulty hjump

mutual

theorem emits_expr (c : Context) (looped : Bool) (e : Expr) :
    Emits c.deferred looped (emitExpr c e) (fateExpr c.deferred looped e) := by
  cases e with
  | operation before operands =>
    exact emits_bind (emits_append before) fun _ => emits_map (emits_operands c looped operands) _
  | ifExpr condition test thenBlock elseBlock merge =>
    refine emits_bind (emits_expr c looped condition) fun _ =>
      emits_bind (emits_append test) fun _ => emits_jump fun _ => ?_
    exact steps_joined (flagged_fork (emits_stmts c looped false thenBlock).toSteps
      (emits_stmts c looped false elseBlock).toSteps) merge _
  | blockExpr block => exact emits_map (emits_stmts c looped false block) _
  | matchExpr scrutinee arms merge =>
    have harms := emits_arms c looped arms
    refine emits_bind (emits_expr c looped scrutinee) fun _ => ?_
    exact (emits_joined harms.flagged harms.closed merge _).congr (own_arms c.deferred looped arms)
  | fallibleOp op success args =>
    have hcall := emits_emitCall success (emits_operands c looped args)
    cases op with
    | propagate =>
      refine emits_bind hcall fun _ => emits_jump fun _ => ?_
      exact steps_bind (emits_append _).toSteps fun _ =>
        steps_bind (steps_left (emits_emitErrorReturn c).toSteps) fun _ =>
          (emits_map (emits_append _) _).toSteps
    | unwrap =>
      refine emits_bind hcall fun _ => emits_jump fun _ => ?_
      exact steps_bind (emits_append _).toSteps fun _ => steps_bind steps_jump fun _ =>
        (emits_map (emits_append _) _).toSteps
  | errorHandler success args handler merge =>
    have hcall := emits_emitCall success (emits_operands c looped args)
    refine emits_bind hcall fun _ => emits_jump fun _ => ?_
    refine steps_bind (emits_append _).toSteps fun _ =>
      steps_then (flagged_arm (emits_stmts c looped false handler).toSteps).steps fun _ => ?_
    exact steps_bind (emits_append _).toSteps fun _ => steps_bind steps_jump fun _ =>
      (emits_map (emits_append _) _).toSteps
  | errorMatch success args arms merge =>
    have hcall := emits_emitCall success (emits_operands c looped args)
    refine emits_bind hcall fun _ => emits_jump fun _ => ?_
    refine steps_bind (emits_append _).toSteps fun _ =>
      steps_then (emits_arms c looped arms).flagged.steps fun _ => ?_
    exact steps_bind (emits_append _).toSteps fun _ => steps_bind steps_jump fun _ =>
      (emits_map (emits_append _) _).toSteps
  | exit kind value convert =>
    cases kind with
    | ret =>
      exact emits_bind (emits_expr c looped value) fun _ =>
        emits_bind (emits_append convert) fun _ => emits_map (emits_emitExit (by simp)) _
    | err =>
      exact emits_bind (emits_expr c looped value) fun _ =>
        emits_bind (emits_append convert) fun _ => emits_map (emits_emitErrorReturn c) _

theorem emits_operands (c : Context) (looped : Bool) (operands : Operands) :
    Emits c.deferred looped (emitOperands c operands)
      (fateOperands c.deferred looped operands) := by
  cases operands with
  | nil => exact emits_pure _
  | cons operand after rest =>
    exact emits_bind (emits_expr c looped operand) fun _ => emits_bind (emits_append after) fun _ =>
      emits_map (emits_operands c looped rest) _

theorem emits_arms (c : Context) (looped : Bool) (arms : Arms) :
    EmitsArms c.deferred looped (emitArms c arms) (fateArms c.deferred looped arms) := by
  cases arms with
  | last pattern body =>
    have hbody := fun test => flagged_leaving (flagged_arm (emits_expr c looped body).toSteps)
      closes_closeBlock fun code => ControlTrees.Code.sequence [test, .oneOf [code, .leave]]
    have hjump := fun test => flagged_bind steps_jump fun _ => hbody test
    have htest := flagged_bind (emits_append pattern).toSteps hjump
    exact ⟨htest, closed_test fun test => (hbody test).toGrows⟩
  | cons pattern body rest =>
    have hbody := fun test => flagged_or (flagged_arm (emits_expr c looped body).toSteps)
      (emits_arms c looped rest).flagged fun code codes =>
        ControlTrees.Code.sequence [test, .oneOf [code, codes]]
    have hjump := fun test => flagged_bind steps_jump fun _ => hbody test
    have htest := flagged_bind (emits_append pattern).toSteps hjump
    exact ⟨htest, closed_test fun test => (hbody test).toGrows⟩

theorem emits_stmt (c : Context) (looped : Bool) (stmt : Stmt) :
    Emits c.deferred looped (emitStmt c stmt) (fateStmt c.deferred looped stmt) := by
  cases stmt with
  | variableDecl roots initializer convert =>
    refine emits_bind (emits_append (rootedSlot roots)) fun _ =>
      emits_bind (emits_expr c looped initializer) fun _ => ?_
    exact emits_map ((emits_append (convert ++ [.plain])).congr (run_append convert)) _
  | expression expr => exact emits_expr c looped expr
  | forCondition condition test body =>
    refine emits_jump fun _ => (emits_bind (emits_expr c looped condition) fun _ =>
      emits_bind (emits_append test) fun _ => emits_jump fun _ => ?_).toSteps
    exact steps_leaving (settles_inLoop (emits_stmts c true true body).toSteps) closes_closeBlock _
  | forIn iteration operands body =>
    have hslots : Fate.run iteration.slots = Fate.run [.slot] := by cases iteration <;> rfl
    refine emits_bind ((emits_append iteration.slots).congr hslots) fun _ =>
      emits_bind (emits_operands c looped operands) fun _ =>
        emits_bind (emits_append [.plain]) fun _ => emits_jump fun _ => ?_
    refine steps_bind (emits_append _).toSteps fun _ => steps_bind steps_jump fun _ =>
      steps_bind (emits_append _).toSteps fun _ => ?_
    exact steps_leaving (settles_inLoop (emits_stmts c true true body).toSteps) closes_advance _
  | tryCall success args successBlock handled errorBlock =>
    have hcall := emits_emitCall success (emits_operands c looped args)
    refine emits_bind hcall fun _ => emits_jump fun _ => ?_
    have herror := steps_emitHandler handled (emits_stmts c looped true errorBlock).toSteps
    refine steps_bind herror fun _ => steps_bind (emits_append _).toSteps fun _ => ?_
    exact steps_then (flagged_arm (emits_stmts c looped true successBlock).toSteps).steps fun _ =>
      (emits_pure _).toSteps
  | defer body =>
    obtain ⟨deferred, fallible⟩ := c
    cases deferred with
    | true => exact emits_emitDefer_inside (emits_stmts ⟨true, fallible⟩ looped true body)
    | false => exact emits_emitDefer (emits_stmts ⟨true, fallible⟩ false true body)
  | breakStmt => exact emits_emitBreak

theorem emits_stmts (c : Context) (looped checked : Bool) (stmts : List Stmt) :
    Emits c.deferred looped (emitStmts c checked stmts)
      (fateStmts c.deferred looped checked stmts) := by
  cases stmts with
  | nil => exact emits_pure _
  | cons stmt stmts =>
    exact emits_unlessTerminated checked _ (emits_bind (emits_stmt c looped stmt) fun _ =>
      emits_map (emits_stmts c looped checked stmts) _)

end

end Induction

section Callables
variable {looped : Bool} {b : Builder}

theorem emits_emitDeferred : Emits false looped (emitDeferred false) Fate.pass.aside where
  toGrows := grows_emitDeferred false
  ready := fun h _ _ => h.emitDeferred
  unsound := fun _ _ h => nomatch h
  doomed := by
    intro b h
    rcases Nat.eq_zero_or_pos b.loops with hzero | hpos
    · exact Or.inl (h.emitDeferred hzero)
    · exact Or.inr ((grows_emitDeferred false).doomed_loops h hpos)
  closed := by
    intro b h
    have hfaulty : Faulty (emitDeferred false b).2 :=
      (grows_bind grows_position fun _ => grows_bind (grows_append _) fun _ =>
        grows_bind grows_jump fun _ => grows_bind (grows_append _) fun _ =>
          grows_bind (grows_emitSites b.sites) fun _ =>
            grows_bind (grows_leaving grows_closeBlock) fun _ => grows_jump).faulty h.terminate
    simpa [Fate.aside] using hfaulty

theorem emits_fallThrough (isMain : Bool) :
    Emits false looped (fallThrough isMain) Fate.leaves := by
  cases isMain with
  | true => exact emits_emitExit (by simp)
  | false => exact emits_bind emits_emitDeferred fun _ => emits_map (emits_emitExit (by simp)) _

/-- What becomes of a body. -/
def bodyFate (body : List Stmt) : Option (Expr × List Instruction) → Fate
  | none => (fateStmts false false true body).seq { Fate.leaves with silent := true }
  | some (tail, _) =>
    (fateStmts false false false body).seq
      { (fateExpr false false tail).seq Fate.leaves with silent := true }

theorem emits_body (fallible isMain : Bool) (body : List Stmt)
    (tail : Option (Expr × List Instruction)) :
    Emits false false (emitBody ⟨false, fallible⟩ isMain body tail) (bodyFate body tail) := by
  cases tail with
  | none =>
    refine emits_bind (emits_stmts ⟨false, fallible⟩ false true body) fun _ => ?_
    exact emits_map (emits_unlessTerminated true _ (emits_fallThrough isMain)) _
  | some pair =>
    obtain ⟨tail, convert⟩ := pair
    refine emits_bind (emits_stmts ⟨false, fallible⟩ false false body) fun _ => ?_
    have hexit : Emits false false (emitExit false [.plain]) Fate.leaves := emits_emitExit (by simp)
    have hvalue := emits_bind (emits_expr ⟨false, fallible⟩ false tail) fun code =>
      emits_bind ((emits_append (convert ++ [.plain])).congr (run_append convert)) fun store =>
        emits_map hexit fun exit => ControlTrees.Code.sequence [code, store, exit]
    exact emits_map (emits_unlessTerminated true _ hvalue) _

theorem bodyFate_falls (body : List Stmt) (tail : Option (Expr × List Instruction)) :
    (bodyFate body tail).falls = false := by
  cases tail <;> simp [bodyFate, Fate.seq, Fate.leaves]

theorem bodyFate_sound (f : Callable) : (bodyFate f.body f.tail).sound = soundCallable f := by
  unfold bodyFate soundCallable
  cases f.tail with
  | none => simp [Fate.seq, Fate.leaves]
  | some pair =>
    obtain ⟨tail, convert⟩ := pair
    dsimp only [Fate.seq, Fate.leaves]
    cases (fateStmts false false false f.body).falls <;> cases (fateExpr false false tail).falls <;>
      simp

/-- Outside of all loops, a deferred block waits in an open block only. -/
theorem not_wellFormed_of_lost (hloops : b.loops = 0) (h : Lost false b) : ¬ WellFormed b := by
  rcases h with hfaulty | hdoomed
  · exact not_wellFormed hfaulty
  · intro hformed
    rcases hdoomed.current with hopen | hpos
    · exact hopen (terminator_of_formed hformed.current)
    · omega

/-- Every block of a function is well formed, and no `break` is without a loop, if and only if
nothing is emitted after a terminator. -/
theorem wellFormed_iff (f : Callable) : WellFormed (emitCallable f).2 ↔ soundCallable f = true := by
  have hentry := ready_fresh.append ([.slot, .slot, .plain] ++ f.parameters ++ [.plain])
  have hbody := emits_body f.fallible f.isMain f.body f.tail
  rw [← bodyFate_sound f]
  cases hsound : (bodyFate f.body f.tail).sound with
  | true =>
    have hreaches := hbody.ready hentry rfl hsound
    rw [bodyFate_falls f.body f.tail] at hreaches
    exact iff_of_true (Closed.wellFormed hreaches) rfl
  | false =>
    have hlost := hbody.unsound hentry rfl hsound
    exact iff_of_false (not_wellFormed_of_lost (hbody.loops _) hlost) (by simp)

/-- `io.println("x")` after `ret 1`, in the body of a function whose value is 2. -/
def codeAfterReturn : Callable where
  isMain := false
  fallible := false
  parameters := []
  body := [.expression (.exit .ret (.operation [] .nil) [.plain]),
    .expression (.operation [] (.cons (.operation [] .nil) [.slot, .plain] .nil))]
  tail := some (.operation [] .nil, [])

theorem codeAfterReturn_current : (emitCallable codeAfterReturn).2.current =
    [.instruction .plain] ++ .terminator :: [.instruction .slot, .instruction .plain] := by
  decide +kernel

theorem codeAfterReturn_malformed : ¬ WellFormed (emitCallable codeAfterReturn).2 :=
  not_wellFormed (faulty_of_current
    ⟨[.instruction .plain], [.instruction .slot, .instruction .plain], codeAfterReturn_current,
      by simp⟩)

end Callables

end NewClLang.BlockFormation
