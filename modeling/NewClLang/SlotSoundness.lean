import NewClLang.StaleNames
import Mathlib.Data.List.Forall2

set_option autoImplicit false

/-!
# Stale names and slots

The walk over names agrees with the code generator: a name is stale exactly where its slot in the
map is not that of its declaration.
-/
namespace NewClLang.SlotSoundness
open Syntax SlotEmission StaleNames

def Resolved (resolution reads : List Read) : Prop := ∀ r ∈ reads, r ∈ resolution

structure Fresh (m : Bool) (ids : List ℕ) (scope : Vars) : Prop where
  unbound : ∀ name, ∀ d ∈ ids, scope name ≠ some (ownSlot m d)
  noLeftover : ∀ name d, scope name ≠ some (.leftover d)
  noReplayed : m = false → ∀ name d, scope name ≠ some (.replayed d)

/-- The slots that a construct binds: its own, and those that replays leave behind. -/
def Own (m : Bool) (ids : List ℕ) (slot : Slot) : Prop :=
  (∃ d ∈ ids, slot = ownSlot m d) ∨ (m = false ∧ ∃ d, slot = .leftover d)

/-- `stale` is where the map and the scope differ. -/
def Tracks (stale : Names) (vars scope : Vars) : Prop := ∀ name, name ∈ stale ↔ vars name ≠ scope name

def Replays (resolution : List Read) (scope : Vars) (site : Site)
    (replay : Names → Names × Bool) : Prop :=
  ∀ out stale, (∀ name d, out.vars name ≠ some (.replayed d)) → Tracks stale out.vars scope →
    (∀ name, name ∉ (replay stale).1 → (site out).vars name = out.vars name) ∧
    (∀ name, name ∈ (replay stale).1 → ∃ d, (site out).vars name = some (.leftover d)) ∧
    (Resolved resolution (site out).reads ↔
      Resolved resolution out.reads ∧ (replay stale).2 = true)

/-- A deferred block known before a construct. -/
def Knows (resolution : List Read) (ids : List ℕ) (vars : Vars) (site : Site)
    (info : StaleSite) : Prop :=
  ∃ scope, Fresh false ids scope ∧ Tracks info.stale vars scope ∧
    Replays resolution scope site info.replay

/-- A deferred block that a construct in `scope` registers. -/
def Registers (resolution : List Read) (scope : Vars) (ids : List ℕ) (vars : Vars) (site : Site)
    (info : StaleSite) : Prop :=
  ∃ own, Tracks info.stale vars own ∧ Replays resolution own site info.replay ∧
    (∀ name, name ∉ info.inner → own name = scope name) ∧
    (∀ name, name ∈ info.inner → ∃ d ∈ ids, own name = some (ownSlot false d))

structure Matches (resolution : List Read) (m : Bool) (scope : Vars) (ids : List ℕ) (st : Emitter)
    (sc : Scope) : Prop where
  visible : ∀ name, name ∈ sc.visible ↔ scope name ≠ none
  stale : Tracks sc.stale st.vars scope
  unused : ∀ name, ∀ d ∈ ids, st.vars name ≠ some (ownSlot m d)
  noReplayed : m = false → ∀ name d, st.vars name ≠ some (.replayed d)
  sites : List.Forall₂ (Knows resolution ids st.vars) st.sites sc.sites
  noSites : m = true → sc.sites = []
  terminated : st.terminated = sc.terminated

structure Result (resolution : List Read) (m : Bool) (scope scope' : Vars) (ids : List ℕ)
    (st st' : Emitter) (eff : Effect) : Prop where
  frame : ∀ name, name ∉ eff.touched → st'.vars name = st.vars name
  touched : ∀ name, name ∈ eff.touched → ∃ slot, st'.vars name = some slot ∧ Own m ids slot
  stale : Tracks eff.stale st'.vars scope'
  outer : ∀ name, name ∉ eff.declared → scope' name = scope name
  inner : ∀ name, name ∈ eff.declared → ∃ d ∈ ids, scope' name = some (ownSlot m d)
  sites : ∃ new, st'.sites = st.sites ++ new ∧
    List.Forall₂ (Registers resolution scope ids st'.vars) new eff.sites
  noSites : m = true → eff.sites = []
  terminated : st'.terminated = eff.terminated
  reads : Resolved resolution st'.reads ↔ Resolved resolution st.reads ∧ eff.clean = true

/-- A construct that leads from one scope to the next, and its walk. -/
def Sound (resolution : List Read) (m : Bool) (scope scope' : Vars) (ids : List ℕ) (e : Emit)
    (w : Walk) : Prop :=
  ∀ st sc, Matches resolution m scope ids st sc →
    Result resolution m scope scope' ids st (e st) (w sc)

section Slots
variable {m : Bool} {ids ids₁ ids₂ : List ℕ} {scope : Vars}

theorem ownSlot_inj {d d' : ℕ} (h : ownSlot m d = ownSlot m d') : d = d' := by
  cases m with
  | false => exact Slot.inPlace.inj h
  | true => exact Slot.replayed.inj h

theorem ownSlot_ne_leftover (d d' : ℕ) : ownSlot m d ≠ .leftover d' := by
  cases m with
  | false => exact Slot.noConfusion
  | true => exact Slot.noConfusion

theorem Fresh.mono (h : Fresh m ids scope) (hsub : ∀ d ∈ ids₁, d ∈ ids) : Fresh m ids₁ scope where
  unbound := fun name d hd => h.unbound name d (hsub d hd)
  noLeftover := h.noLeftover
  noReplayed := h.noReplayed

theorem Fresh.none (h : Fresh m ids scope) : Fresh m [] scope :=
  h.mono (fun _ hd => absurd hd List.not_mem_nil)

theorem Own.mono {slot : Slot} (h : Own m ids slot) (hsub : ∀ d ∈ ids, d ∈ ids₁) :
    Own m ids₁ slot := by
  rcases h with ⟨d, hd, hslot⟩ | hleft
  · exact Or.inl ⟨d, hsub d hd, hslot⟩
  · exact Or.inr hleft

theorem Fresh.ne_own (h : Fresh m ids scope) {slot : Slot} (hown : Own m ids slot)
    (name : String) : scope name ≠ some slot := by
  rcases hown with ⟨d, hd, hslot⟩ | ⟨_, d, hslot⟩
  · rw [hslot]
    exact h.unbound name d hd
  · rw [hslot]
    exact h.noLeftover name d

theorem Own.ne_ownSlot {slot : Slot} (h : Own m ids₁ slot) (hnodup : (ids₁ ++ ids₂).Nodup) {d : ℕ}
    (hd : d ∈ ids₂) : slot ≠ ownSlot m d := by
  rcases h with ⟨d', hd', hslot⟩ | ⟨_, d', hslot⟩
  · intro heq
    rw [hslot] at heq
    have hdd := ownSlot_inj heq
    rw [hdd] at hd'
    exact (List.disjoint_of_nodup_append hnodup) hd' hd
  · intro heq
    rw [hslot] at heq
    exact ownSlot_ne_leftover d d' heq.symm

theorem Own.not_replayed {slot : Slot} (h : Own false ids slot) (d : ℕ) : slot ≠ .replayed d := by
  rcases h with ⟨d', _, hslot⟩ | ⟨_, d', hslot⟩
  · rw [hslot]
    exact Slot.noConfusion
  · rw [hslot]
    exact Slot.noConfusion

theorem Fresh.later (h : Fresh m (ids₁ ++ ids₂) scope) (hnodup : (ids₁ ++ ids₂).Nodup)
    {own : Vars} (inner : Names) (houter : ∀ name, name ∉ inner → own name = scope name)
    (hinner : ∀ name, name ∈ inner → ∃ d ∈ ids₁, own name = some (ownSlot m d)) :
    Fresh m ids₂ own where
  unbound := by
    intro name d hd
    by_cases hmem : name ∈ inner
    · obtain ⟨d', hd', heq⟩ := hinner name hmem
      rw [heq]
      intro hsame
      have hdd := ownSlot_inj (Option.some.inj hsame)
      rw [hdd] at hd'
      exact List.disjoint_of_nodup_append hnodup hd' hd
    · rw [houter name hmem]
      exact h.unbound name d (List.mem_append_right ids₁ hd)
  noLeftover := by
    intro name d
    by_cases hmem : name ∈ inner
    · obtain ⟨d', _, heq⟩ := hinner name hmem
      rw [heq]
      intro hsame
      exact ownSlot_ne_leftover d' d (Option.some.inj hsame)
    · rw [houter name hmem]
      exact h.noLeftover name d
  noReplayed := by
    intro hm name d
    by_cases hmem : name ∈ inner
    · obtain ⟨d', _, heq⟩ := hinner name hmem
      rw [heq, hm]
      exact fun hsame => Slot.noConfusion (Option.some.inj hsame)
    · rw [houter name hmem]
      exact h.noReplayed hm name d

theorem tracks_touch {stale touched : Names} {vars vars' : Vars} (htracks : Tracks stale vars scope)
    (hfresh : Fresh m ids scope)
    (hframe : ∀ name, name ∉ touched → vars' name = vars name)
    (htouched : ∀ name, name ∈ touched → ∃ slot, vars' name = some slot ∧ Own m ids slot) :
    Tracks (stale ∪ touched) vars' scope := by
  intro name
  rw [Finset.mem_union]
  by_cases hmem : name ∈ touched
  · obtain ⟨slot, hslot, hown⟩ := htouched name hmem
    have hne : vars' name ≠ scope name := by
      rw [hslot]
      exact (hfresh.ne_own hown name).symm
    exact iff_of_true (Or.inr hmem) hne
  · rw [hframe name hmem]
    constructor
    · intro h
      exact (htracks name).mp (h.resolve_right hmem)
    · intro h
      exact Or.inl ((htracks name).mpr h)

end Slots

section Declarations
variable {m : Bool}

theorem mem_binderNames {bs : List Binder} {name : String} :
    name ∈ binderNames bs ↔ ∃ b ∈ bs, b.name = name := by
  rw [binderNames, List.mem_toFinset, List.mem_map]

theorem declareAll_other {bs : List Binder} {name : String} (h : name ∉ binderNames bs)
    (vars : Vars) : declareAll m bs vars name = vars name := by
  induction bs generalizing vars with
  | nil => rfl
  | cons b bs ih =>
    have hrest : name ∉ binderNames bs := by
      intro hmem
      obtain ⟨b', hb', heq⟩ := mem_binderNames.mp hmem
      exact h (mem_binderNames.mpr ⟨b', List.mem_cons_of_mem b hb', heq⟩)
    have hne : name ≠ b.name := by
      intro heq
      exact h (mem_binderNames.mpr ⟨b, List.mem_cons_self, heq.symm⟩)
    rw [declareAll, ih hrest, Function.update_of_ne hne]

theorem declareAll_name {bs : List Binder} {name : String} (h : name ∈ binderNames bs) :
    ∃ d ∈ bs.map Binder.decl, ∀ vars, declareAll m bs vars name = some (ownSlot m d) := by
  induction bs with
  | nil => exact absurd h (Finset.notMem_empty name)
  | cons b bs ih =>
    by_cases hrest : name ∈ binderNames bs
    · obtain ⟨d, hd, heq⟩ := ih hrest
      exact ⟨d, List.mem_cons_of_mem _ hd, fun vars => heq _⟩
    · obtain ⟨b', hb', hname⟩ := mem_binderNames.mp h
      rcases List.mem_cons.mp hb' with heq | hmem
      · refine ⟨b.decl, List.mem_cons_self, ?_⟩
        intro vars
        rw [declareAll, declareAll_other hrest, ← hname, heq, Function.update_self]
      · exact absurd (mem_binderNames.mpr ⟨b', hmem, hname⟩) hrest

end Declarations

section Sites
variable {resolution : List Read} {m : Bool} {ids ids₁ ids₂ : List ℕ} {scope scope₁ : Vars}
variable {vars vars' : Vars} {sites : List Site} {infos : List StaleSite} {touched : Names}

theorem Knows.touch {site : Site} {info : StaleSite}
    (h : Knows resolution (ids₁ ++ ids₂) vars site info)
    (hframe : ∀ name, name ∉ touched → vars' name = vars name)
    (htouched : ∀ name, name ∈ touched → ∃ slot, vars' name = some slot ∧ Own false ids₁ slot) :
    Knows resolution ids₂ vars' site (info.touch touched) := by
  obtain ⟨own, hfresh, htracks, hreplays⟩ := h
  have hfresh₁ : Fresh false ids₁ own :=
    hfresh.mono (fun d hd => List.mem_append_left ids₂ hd)
  have hfresh₂ : Fresh false ids₂ own :=
    hfresh.mono (fun d hd => List.mem_append_right ids₁ hd)
  exact ⟨own, hfresh₂, tracks_touch htracks hfresh₁ hframe htouched, hreplays⟩

theorem knows_touch (h : List.Forall₂ (Knows resolution (ids₁ ++ ids₂) vars) sites infos)
    (hnone : m = true → infos = [])
    (hframe : ∀ name, name ∉ touched → vars' name = vars name)
    (htouched : ∀ name, name ∈ touched → ∃ slot, vars' name = some slot ∧ Own m ids₁ slot) :
    List.Forall₂ (Knows resolution ids₂ vars') sites (infos.map (StaleSite.touch touched)) := by
  cases m with
  | true =>
    rw [hnone rfl] at h ⊢
    cases h
    exact List.Forall₂.nil
  | false =>
    rw [List.forall₂_map_right_iff]
    exact h.imp (fun site info hknows => hknows.touch hframe htouched)

theorem Registers.knows {site : Site} {info : StaleSite}
    (h : Registers resolution scope ids₁ vars site info) (hfresh : Fresh false (ids₁ ++ ids₂) scope)
    (hnodup : (ids₁ ++ ids₂).Nodup) : Knows resolution ids₂ vars site info := by
  obtain ⟨own, htracks, hreplays, houter, hinner⟩ := h
  exact ⟨own, hfresh.later hnodup info.inner houter hinner, htracks, hreplays⟩

theorem Registers.touch {site : Site} {info : StaleSite}
    (h : Registers resolution scope ids₁ vars site info) (hfresh : Fresh false (ids₁ ++ ids₂) scope)
    (hnodup : (ids₁ ++ ids₂).Nodup)
    (hframe : ∀ name, name ∉ touched → vars' name = vars name)
    (htouched : ∀ name, name ∈ touched → ∃ slot, vars' name = some slot ∧ Own false ids₂ slot) :
    Registers resolution scope (ids₁ ++ ids₂) vars' site (info.touch touched) := by
  obtain ⟨own, htracks, hreplays, houter, hinner⟩ := h
  have hown := hfresh.later hnodup info.inner houter hinner
  refine ⟨own, tracks_touch htracks hown hframe htouched, hreplays, houter, ?_⟩
  intro name hmem
  obtain ⟨d, hd, heq⟩ := hinner name hmem
  exact ⟨d, List.mem_append_left ids₂ hd, heq⟩

theorem Registers.enclose {site : Site} {info : StaleSite} {declared : Names}
    (h : Registers resolution scope₁ ids₂ vars site info)
    (houter : ∀ name, name ∉ declared → scope₁ name = scope name)
    (hinner : ∀ name, name ∈ declared → ∃ d ∈ ids₁, scope₁ name = some (ownSlot false d)) :
    Registers resolution scope (ids₁ ++ ids₂) vars site (info.enclose declared) := by
  obtain ⟨own, htracks, hreplays, hout, hin⟩ := h
  refine ⟨own, htracks, hreplays, ?_, ?_⟩
  · intro name hmem
    change name ∉ _ ∪ _ at hmem
    rw [Finset.mem_union, not_or] at hmem
    exact (hout name hmem.1).trans (houter name hmem.2)
  · intro name hmem
    change name ∈ _ ∪ _ at hmem
    rw [Finset.mem_union] at hmem
    by_cases hown : name ∈ info.inner
    · obtain ⟨d, hd, heq⟩ := hin name hown
      exact ⟨d, List.mem_append_right ids₁ hd, heq⟩
    · obtain ⟨d, hd, heq⟩ := hinner name (hmem.resolve_left hown)
      exact ⟨d, List.mem_append_left ids₂ hd, (hout name hown).trans heq⟩

theorem Registers.mono {site : Site} {info : StaleSite}
    (h : Registers resolution scope ids₁ vars site info) (hsub : ∀ d ∈ ids₁, d ∈ ids) :
    Registers resolution scope ids vars site info := by
  obtain ⟨own, htracks, hreplays, hout, hin⟩ := h
  refine ⟨own, htracks, hreplays, hout, ?_⟩
  intro name hmem
  obtain ⟨d, hd, heq⟩ := hin name hmem
  exact ⟨d, hsub d hd, heq⟩

/-- After a restore the names declared around a site are stale in it, for their slots are newer
    than the map put back. -/
theorem Registers.restore {site : Site} {info : StaleSite} {stale : Names}
    (h : Registers resolution scope ids vars' site info) (hstale : Tracks stale vars scope)
    (hunused : ∀ name, ∀ d ∈ ids, vars name ≠ some (ownSlot false d)) :
    Registers resolution scope ids vars site (info.restore stale) := by
  obtain ⟨own, _, hreplays, hout, hin⟩ := h
  refine ⟨own, ?_, hreplays, hout, hin⟩
  intro name
  change name ∈ _ ∪ _ ↔ _
  rw [Finset.mem_union]
  by_cases hmem : name ∈ info.inner
  · obtain ⟨d, hd, heq⟩ := hin name hmem
    rw [heq]
    exact iff_of_true (Or.inl hmem) (hunused name d hd)
  · rw [hout name hmem, ← hstale name]
    exact ⟨fun hor => hor.resolve_left hmem, Or.inr⟩

end Sites

section Constructs
variable {resolution : List Read} {m : Bool} {scope scope₁ scope₂ : Vars}
variable {ids ids₁ ids₂ : List ℕ} {e e₁ e₂ : Emit} {w w₁ w₂ : Walk}

theorem Matches.mono {st : Emitter} {sc : Scope}
    (h : Matches resolution m scope ids st sc) (hsub : ∀ d ∈ ids₁, d ∈ ids) :
    Matches resolution m scope ids₁ st sc where
  visible := h.visible
  stale := h.stale
  unused := fun name d hd => h.unused name d (hsub d hd)
  noReplayed := h.noReplayed
  sites := h.sites.imp (fun _ _ hk => hk.elim (fun own ho => ⟨own, ho.1.mono hsub, ho.2⟩))
  noSites := h.noSites
  terminated := h.terminated

theorem Matches.after {st st' : Emitter} {sc : Scope} {eff : Effect}
    (h : Matches resolution m scope (ids₁ ++ ids₂) st sc)
    (hfirst : Result resolution m scope scope₁ ids₁ st st' eff)
    (hfresh : Fresh m (ids₁ ++ ids₂) scope) (hnodup : (ids₁ ++ ids₂).Nodup) :
    Matches resolution m scope₁ ids₂ st' (sc.after eff) where
  visible := by
    intro name
    change name ∈ sc.visible ∪ eff.declared ↔ _
    rw [Finset.mem_union]
    by_cases hmem : name ∈ eff.declared
    · obtain ⟨d, _, heq⟩ := hfirst.inner name hmem
      rw [heq]
      exact iff_of_true (Or.inr hmem) (Option.some_ne_none _)
    · rw [hfirst.outer name hmem, ← h.visible name]
      exact ⟨fun hor => hor.resolve_right hmem, Or.inl⟩
  stale := hfirst.stale
  unused := by
    intro name d hd
    by_cases hmem : name ∈ eff.touched
    · obtain ⟨slot, hslot, hown⟩ := hfirst.touched name hmem
      rw [hslot]
      intro heq
      exact hown.ne_ownSlot hnodup hd (Option.some.inj heq)
    · rw [hfirst.frame name hmem]
      exact h.unused name d (List.mem_append_right ids₁ hd)
  noReplayed := by
    intro hm name d
    by_cases hmem : name ∈ eff.touched
    · obtain ⟨slot, hslot, hown⟩ := hfirst.touched name hmem
      rw [hm] at hown
      rw [hslot]
      intro heq
      exact hown.not_replayed d (Option.some.inj heq)
    · rw [hfirst.frame name hmem]
      exact h.noReplayed hm name d
  sites := by
    obtain ⟨new, hsites, hnew⟩ := hfirst.sites
    rw [hsites]
    apply List.rel_append
    · exact knows_touch h.sites h.noSites hfirst.frame hfirst.touched
    · cases m with
      | true =>
        rw [hfirst.noSites rfl] at hnew ⊢
        cases hnew
        exact List.Forall₂.nil
      | false => exact hnew.imp (fun _ _ hreg => hreg.knows hfresh hnodup)
  noSites := by
    intro hm
    change sc.sites.map _ ++ eff.sites = []
    rw [h.noSites hm, hfirst.noSites hm]
    rfl
  terminated := hfirst.terminated

theorem sound_pass : Sound resolution m scope scope [] pass walkPass := by
  intro st sc h
  exact {
    frame := fun _ _ => rfl
    touched := fun _ hmem => absurd hmem (Finset.notMem_empty _)
    stale := h.stale
    outer := fun _ _ => rfl
    inner := fun _ hmem => absurd hmem (Finset.notMem_empty _)
    sites := ⟨[], (List.append_nil _).symm, List.Forall₂.nil⟩
    noSites := fun _ => rfl
    terminated := h.terminated
    reads := ⟨fun hr => ⟨hr, rfl⟩, fun hr => hr.1⟩ }

theorem Sound.seq (hfirst : Sound resolution m scope scope₁ ids₁ e₁ w₁)
    (hsecond : Sound resolution m scope₁ scope₂ ids₂ e₂ w₂)
    (hfresh : Fresh m (ids₁ ++ ids₂) scope) (hnodup : (ids₁ ++ ids₂).Nodup) :
    Sound resolution m scope scope₂ (ids₁ ++ ids₂) (e₁.seq e₂) (w₁.seq w₂) := by
  intro st sc h
  have h₁ := hfirst st sc (h.mono (fun d hd => List.mem_append_left ids₂ hd))
  have h₂ := hsecond (e₁ st) (sc.after (w₁ sc)) (h.after h₁ hfresh hnodup)
  obtain ⟨new₁, hsites₁, hnew₁⟩ := h₁.sites
  obtain ⟨new₂, hsites₂, hnew₂⟩ := h₂.sites
  constructor
  case frame =>
    intro name hmem
    change name ∉ _ ∪ _ at hmem
    rw [Finset.mem_union, not_or] at hmem
    exact (h₂.frame name hmem.2).trans (h₁.frame name hmem.1)
  case touched =>
    intro name hmem
    change name ∈ _ ∪ _ at hmem
    rw [Finset.mem_union] at hmem
    by_cases hlater : name ∈ (w₂ (sc.after (w₁ sc))).touched
    · obtain ⟨slot, hslot, hown⟩ := h₂.touched name hlater
      exact ⟨slot, hslot, hown.mono (fun d hd => List.mem_append_right ids₁ hd)⟩
    · obtain ⟨slot, hslot, hown⟩ := h₁.touched name (hmem.resolve_right hlater)
      exact ⟨slot, (h₂.frame name hlater).trans hslot,
        hown.mono (fun d hd => List.mem_append_left ids₂ hd)⟩
  case stale => exact h₂.stale
  case outer =>
    intro name hmem
    change name ∉ _ ∪ _ at hmem
    rw [Finset.mem_union, not_or] at hmem
    exact (h₂.outer name hmem.2).trans (h₁.outer name hmem.1)
  case inner =>
    intro name hmem
    change name ∈ _ ∪ _ at hmem
    rw [Finset.mem_union] at hmem
    by_cases hlater : name ∈ (w₂ (sc.after (w₁ sc))).declared
    · obtain ⟨d, hd, heq⟩ := h₂.inner name hlater
      exact ⟨d, List.mem_append_right ids₁ hd, heq⟩
    · obtain ⟨d, hd, heq⟩ := h₁.inner name (hmem.resolve_right hlater)
      exact ⟨d, List.mem_append_left ids₂ hd, (h₂.outer name hlater).trans heq⟩
  case sites =>
    refine ⟨new₁ ++ new₂, ?_, ?_⟩
    · change (e₂ (e₁ st)).sites = _
      rw [hsites₂, hsites₁, List.append_assoc]
    · apply List.rel_append
      · cases m with
        | true =>
          rw [h₁.noSites rfl] at hnew₁ ⊢
          cases hnew₁
          exact List.Forall₂.nil
        | false =>
          rw [List.forall₂_map_right_iff]
          exact hnew₁.imp
            (fun _ _ hreg => hreg.touch hfresh hnodup h₂.frame h₂.touched)
      · cases m with
        | true =>
          rw [h₂.noSites rfl] at hnew₂ ⊢
          cases hnew₂
          exact List.Forall₂.nil
        | false =>
          rw [List.forall₂_map_right_iff]
          exact hnew₂.imp (fun _ _ hreg => hreg.enclose h₁.outer h₁.inner)
  case noSites =>
    intro hm
    change (w₁ sc).sites.map _ ++ List.map _ (w₂ (sc.after (w₁ sc))).sites = []
    rw [h₁.noSites hm, h₂.noSites hm]
    rfl
  case terminated => exact h₂.terminated
  case reads =>
    rw [Emit.seq, h₂.reads, h₁.reads, and_assoc]
    change _ ↔ _ ∧ ((w₁ sc).clean && (w₂ (sc.after (w₁ sc))).clean) = true
    rw [Bool.and_eq_true]

theorem Sound.mono (h : Sound resolution m scope scope₁ ids₁ e w) (hsub : ∀ d ∈ ids₁, d ∈ ids) :
    Sound resolution m scope scope₁ ids e w := by
  intro st sc hm
  have hr := h st sc (hm.mono hsub)
  obtain ⟨new, hsites, hnew⟩ := hr.sites
  constructor
  case frame => exact hr.frame
  case touched =>
    intro name hmem
    obtain ⟨slot, hslot, hown⟩ := hr.touched name hmem
    exact ⟨slot, hslot, hown.mono hsub⟩
  case stale => exact hr.stale
  case outer => exact hr.outer
  case inner =>
    intro name hmem
    obtain ⟨d, hd, heq⟩ := hr.inner name hmem
    exact ⟨d, hsub d hd, heq⟩
  case sites => exact ⟨new, hsites, hnew.imp (fun _ _ hreg => hreg.mono hsub)⟩
  case noSites => exact hr.noSites
  case terminated => exact hr.terminated
  case reads => exact hr.reads

end Constructs

end NewClLang.SlotSoundness
