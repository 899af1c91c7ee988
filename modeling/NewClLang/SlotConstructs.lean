import NewClLang.SlotSoundness

set_option autoImplicit false

/-!
# Constructs of the code generator and their walks

One lemma for each way in which constructs are put together, for deferred blocks and their replays,
and for closures.
-/
namespace NewClLang.SlotSoundness
open Syntax SlotEmission StaleNames

section Constructs
variable {resolution : List Read} {m : Bool} {scope scope₁ scope₂ : Vars}
variable {ids ids₁ ids₂ : List ℕ} {e e₁ e₂ : Emit} {w w₁ w₂ : Walk}

theorem distinct_slot (hdistinct : (resolution.map Prod.fst).Nodup) {occ : ℕ}
    {slot slot' : Option Slot} (h : (occ, slot) ∈ resolution) (h' : (occ, slot') ∈ resolution) :
    slot = slot' := by
  have heq := List.inj_on_of_nodup_map hdistinct h h' rfl
  exact (Prod.mk.inj heq).2

theorem sound_read (hdistinct : (resolution.map Prod.fst).Nodup) {occ : ℕ} {name : String}
    (hres : (occ, scope name) ∈ resolution) :
    Sound resolution m scope scope [] (emitRead occ name) (walkRead name) := by
  intro st sc h
  have hpass : Result resolution m scope scope [] st (pass st) (walkPass sc) := sound_pass st sc h
  exact {
    frame := hpass.frame
    touched := hpass.touched
    stale := hpass.stale
    outer := hpass.outer
    inner := hpass.inner
    sites := hpass.sites
    noSites := hpass.noSites
    terminated := hpass.terminated
    reads := by
      have hclean : (walkRead name sc).clean = true ↔ (occ, st.vars name) ∈ resolution := by
        change decide (name ∉ sc.stale) = true ↔ _
        rw [decide_eq_true_iff, h.stale name, not_not]
        constructor
        · intro heq
          rw [heq]
          exact hres
        · intro hmem
          exact distinct_slot hdistinct hmem hres
      rw [hclean]
      constructor
      · intro hr
        exact ⟨fun r hmem => hr r (List.mem_append_left _ hmem),
          hr _ (List.mem_append_right _ List.mem_cons_self)⟩
      · intro hr r hmem
        rcases List.mem_append.mp hmem with hold | hnew
        · exact hr.1 r hold
        · rw [List.mem_singleton.mp hnew]
          exact hr.2 }

theorem Sound.closing (h : Sound resolution m scope scope₁ ids e w) (hfresh : Fresh m ids scope) :
    Sound resolution m scope scope ids e (closing w) := by
  intro st sc hm
  have hr := h st sc hm
  exact {
    frame := hr.frame
    touched := hr.touched
    stale := tracks_touch hm.stale hfresh hr.frame hr.touched
    outer := fun _ _ => rfl
    inner := fun _ hmem => absurd hmem (Finset.notMem_empty _)
    sites := hr.sites
    noSites := hr.noSites
    terminated := hr.terminated
    reads := hr.reads }

theorem Sound.restoring (h : Sound resolution m scope scope₁ ids e w) :
    Sound resolution m scope scope ids (restoring e) (walkRestoring w) := by
  intro st sc hm
  have hr := h st sc hm
  obtain ⟨new, hsites, hnew⟩ := hr.sites
  exact {
    frame := fun _ _ => rfl
    touched := fun _ hmem => absurd hmem (Finset.notMem_empty _)
    stale := hm.stale
    outer := fun _ _ => rfl
    inner := fun _ hmem => absurd hmem (Finset.notMem_empty _)
    sites := by
      refine ⟨new, hsites, ?_⟩
      cases m with
      | true =>
        rw [hr.noSites rfl] at hnew
        change List.Forall₂ _ _ ((w sc).sites.map _)
        rw [hr.noSites rfl]
        cases hnew
        exact List.Forall₂.nil
      | false =>
        change List.Forall₂ _ _ ((w sc).sites.map _)
        rw [List.forall₂_map_right_iff]
        exact hnew.imp (fun _ _ hreg => hreg.restore hm.stale hm.unused)
    noSites := by
      intro hmode
      change (w sc).sites.map _ = []
      rw [hr.noSites hmode]
      rfl
    terminated := hr.terminated
    reads := hr.reads }

theorem Matches.bind {st : Emitter} {sc : Scope} {bs : List Binder}
    (h : Matches resolution m scope (bs.map Binder.decl ++ ids) st sc)
    (hfresh : Fresh m (bs.map Binder.decl ++ ids) scope)
    (hnodup : (bs.map Binder.decl ++ ids).Nodup) :
    Matches resolution m scope ids (bindAll m bs st)
      { sc with
        stale := sc.stale ∪ binderNames bs
        sites := sc.sites.map (StaleSite.touch (binderNames bs)) } := by
  have hframe : ∀ name, name ∉ binderNames bs → (bindAll m bs st).vars name = st.vars name :=
    fun name hmem => declareAll_other hmem st.vars
  have htouched : ∀ name, name ∈ binderNames bs →
      ∃ slot, (bindAll m bs st).vars name = some slot ∧ Own m (bs.map Binder.decl) slot := by
    intro name hmem
    obtain ⟨d, hd, heq⟩ := declareAll_name (m := m) hmem
    exact ⟨ownSlot m d, heq st.vars, Or.inl ⟨d, hd, rfl⟩⟩
  have hown : Fresh m (bs.map Binder.decl) scope :=
    hfresh.mono (fun d hd => List.mem_append_left ids hd)
  constructor
  case visible => exact h.visible
  case stale => exact tracks_touch h.stale hown hframe htouched
  case unused =>
    intro name d hd
    by_cases hmem : name ∈ binderNames bs
    · obtain ⟨slot, hslot, howned⟩ := htouched name hmem
      rw [hslot]
      intro heq
      exact howned.ne_ownSlot hnodup hd (Option.some.inj heq)
    · rw [hframe name hmem]
      exact h.unused name d (List.mem_append_right _ hd)
  case noReplayed =>
    intro hm name d
    by_cases hmem : name ∈ binderNames bs
    · obtain ⟨slot, hslot, howned⟩ := htouched name hmem
      rw [hm] at howned
      rw [hslot]
      intro heq
      exact howned.not_replayed d (Option.some.inj heq)
    · rw [hframe name hmem]
      exact h.noReplayed hm name d
  case sites => exact knows_touch h.sites h.noSites hframe htouched
  case noSites =>
    intro hm
    change sc.sites.map _ = []
    rw [h.noSites hm]
    rfl
  case terminated => exact h.terminated

theorem Fresh.declared (bs : List Binder) (h : Fresh m (ids₁ ++ ids₂) scope)
    (hnodup : (ids₁ ++ ids₂).Nodup) (hsub : bs.map Binder.decl ⊆ ids₁) :
    Fresh m ids₂ (declareAll m bs scope) := by
  apply h.later hnodup (binderNames bs)
  · intro name hmem
    exact declareAll_other hmem scope
  · intro name hmem
    obtain ⟨d, hd, heq⟩ := declareAll_name (m := m) hmem
    exact ⟨d, hsub hd, heq scope⟩

/-- A declaration: its names are bound before the initializer, and a name is stale afterwards when
    the initializer has bound it again. -/
theorem Sound.binding (bs : List Binder) (h : Sound resolution m scope scope ids e w)
    (hfresh : Fresh m (bs.map Binder.decl ++ ids) scope)
    (hnodup : (bs.map Binder.decl ++ ids).Nodup) :
    Sound resolution m scope (declareAll m bs scope) (bs.map Binder.decl ++ ids)
      ((bindAll m bs).seq e) (binding (binderNames bs) w) := by
  intro st sc hm
  have hr := h _ _ (hm.bind hfresh hnodup)
  have hlater := Fresh.declared bs hfresh hnodup (List.Subset.refl _)
  obtain ⟨new, hsites, hnew⟩ := hr.sites
  constructor
  case frame =>
    intro name hmem
    change name ∉ _ ∪ _ at hmem
    rw [Finset.mem_union, not_or] at hmem
    exact (hr.frame name hmem.2).trans (declareAll_other hmem.1 st.vars)
  case touched =>
    intro name hmem
    change name ∈ _ ∪ _ at hmem
    rw [Finset.mem_union] at hmem
    by_cases hafter : name ∈ (w { sc with
        stale := sc.stale ∪ binderNames bs
        sites := sc.sites.map (StaleSite.touch (binderNames bs)) }).touched
    · obtain ⟨slot, hslot, hown⟩ := hr.touched name hafter
      exact ⟨slot, hslot, hown.mono (fun d hd => List.mem_append_right _ hd)⟩
    · obtain ⟨d, hd, heq⟩ := declareAll_name (m := m) (hmem.resolve_right hafter)
      exact ⟨ownSlot m d, (hr.frame name hafter).trans (heq st.vars),
        Or.inl ⟨d, List.mem_append_left ids hd, rfl⟩⟩
  case stale =>
    intro name
    change name ∈ (sc.stale \ binderNames bs) ∪ _ ↔ _
    rw [Finset.mem_union, Finset.mem_sdiff]
    by_cases hafter : name ∈ (w { sc with
        stale := sc.stale ∪ binderNames bs
        sites := sc.sites.map (StaleSite.touch (binderNames bs)) }).touched
    · obtain ⟨slot, hslot, hown⟩ := hr.touched name hafter
      have hne : (e (bindAll m bs st)).vars name ≠ declareAll m bs scope name := by
        rw [hslot]
        exact (hlater.ne_own hown name).symm
      exact iff_of_true (Or.inr hafter) hne
    · have hsame := hr.frame name hafter
      by_cases hmem : name ∈ binderNames bs
      · obtain ⟨d, _, heq⟩ := declareAll_name (m := m) hmem
        have hclean : (e (bindAll m bs st)).vars name = declareAll m bs scope name :=
          hsame.trans ((heq st.vars).trans (heq scope).symm)
        apply iff_of_false
        · rintro (hstale | htouched)
          · exact hstale.2 hmem
          · exact hafter htouched
        · exact fun hne => hne hclean
      · have hvars : (e (bindAll m bs st)).vars name = st.vars name :=
          hsame.trans (declareAll_other hmem st.vars)
        change _ ↔ (e (bindAll m bs st)).vars name ≠ declareAll m bs scope name
        rw [hvars, declareAll_other hmem scope, ← hm.stale name]
        constructor
        · rintro (hstale | htouched)
          · exact hstale.1
          · exact absurd htouched hafter
        · exact fun hstale => Or.inl ⟨hstale, hmem⟩
  case outer =>
    intro name hmem
    exact declareAll_other hmem scope
  case inner =>
    intro name hmem
    obtain ⟨d, hd, heq⟩ := declareAll_name (m := m) hmem
    exact ⟨d, List.mem_append_left ids hd, heq scope⟩
  case sites =>
    exact ⟨new, hsites, hnew.imp
      (fun _ _ hreg => hreg.mono (fun d hd => List.mem_append_right _ hd))⟩
  case noSites => exact hr.noSites
  case terminated => exact hr.terminated
  case reads => exact hr.reads

theorem sound_missing {bs : List Binder} (hsub : ∀ d ∈ bs.map Binder.decl, d ∈ ids) :
    Sound resolution m scope (declareAll m bs scope) ids pass (missing (binderNames bs)) := by
  intro st sc h
  have hpass := sound_pass st sc (h.mono (fun d hd => absurd hd List.not_mem_nil))
  constructor
  case frame => exact hpass.frame
  case touched => exact fun _ hmem => absurd hmem (Finset.notMem_empty _)
  case stale =>
    intro name
    change name ∈ _ ∪ _ ↔ _
    rw [Finset.mem_union]
    by_cases hmem : name ∈ binderNames bs
    · obtain ⟨d, hd, heq⟩ := declareAll_name (m := m) hmem
      rw [heq scope]
      exact iff_of_true (Or.inr hmem) (h.unused name d (hsub d hd))
    · rw [declareAll_other hmem scope]
      exact ⟨fun hor => (h.stale name).mp (hor.resolve_right hmem),
        fun hne => Or.inl ((h.stale name).mpr hne)⟩
  case outer =>
    intro name hmem
    exact declareAll_other hmem scope
  case inner =>
    intro name hmem
    obtain ⟨d, hd, heq⟩ := declareAll_name (m := m) hmem
    exact ⟨d, hsub d hd, heq scope⟩
  case sites => exact ⟨[], (List.append_nil _).symm, List.Forall₂.nil⟩
  case noSites => exact fun _ => rfl
  case terminated => exact h.terminated
  case reads => exact hpass.reads

theorem Result.withTerminated {st st' : Emitter} {eff : Effect}
    (h : Result resolution m scope scope₁ ids st st' eff) (t : Bool) :
    Result resolution m scope scope₁ ids st { st' with terminated := t }
      { eff with terminated := t } :=
  ⟨h.frame, h.touched, h.stale, h.outer, h.inner, h.sites, h.noSites, rfl, h.reads⟩

theorem sound_newBlock : Sound resolution m scope scope [] newBlock walkNewBlock :=
  fun st sc h => (sound_pass st sc h).withTerminated false

theorem sound_stop : Sound resolution m scope scope [] stop walkStop :=
  fun st sc h => (sound_pass st sc h).withTerminated true

theorem Sound.branches (h₁ : Sound resolution m scope scope ids₁ e₁ w₁)
    (h₂ : Sound resolution m scope scope ids₂ e₂ w₂) (hfresh : Fresh m (ids₁ ++ ids₂) scope)
    (hnodup : (ids₁ ++ ids₂).Nodup) :
    Sound resolution m scope scope (ids₁ ++ ids₂) (branches e₁ e₂) (walkBranches w₁ w₂) := by
  have hfresh₁ : Fresh m ([] ++ ids₁) scope :=
    hfresh.mono (fun d hd => List.mem_append_left ids₂ hd)
  have hfresh₂ : Fresh m ([] ++ ids₂) scope :=
    hfresh.mono (fun d hd => List.mem_append_right ids₁ hd)
  have hfirst := Sound.seq sound_newBlock h₁ hfresh₁ (List.nodup_append.mp hnodup).1
  have hsecond := Sound.seq sound_newBlock h₂ hfresh₂ (List.nodup_append.mp hnodup).2.1
  intro st sc h
  have hboth := (hfirst.seq hsecond hfresh hnodup) st sc h
  have hr₁ := hfirst st sc (h.mono (fun d hd => List.mem_append_left ids₂ hd))
  have hr₂ := hsecond _ _ (h.after hr₁ hfresh hnodup)
  have hterm := congrArg₂ and hr₁.terminated hr₂.terminated
  have hout := hboth.withTerminated
    ((((newBlock.seq e₁) st).terminated) && (((newBlock.seq e₂) ((newBlock.seq e₁) st)).terminated))
  exact {
    frame := hout.frame
    touched := hout.touched
    stale := hout.stale
    outer := hout.outer
    inner := hout.inner
    sites := hout.sites
    noSites := hout.noSites
    terminated := hterm
    reads := hout.reads }

theorem Sound.unlessTerminated (bs : List Binder) (skipped : Bool)
    (h : Sound resolution m scope (declareAll m bs scope) ids e w)
    (hsub : ∀ d ∈ bs.map Binder.decl, d ∈ ids) :
    Sound resolution m scope (declareAll m bs scope) ids (unlessTerminated skipped e)
      (walkUnlessTerminated skipped (binderNames bs) w) := by
  intro st sc hm
  rw [SlotEmission.unlessTerminated, walkUnlessTerminated, hm.terminated]
  cases hskip : skipped && sc.terminated with
  | true => exact sound_missing hsub st sc hm
  | false => exact h st sc hm

end Constructs

section Deferred
variable {resolution : List Read} {m : Bool} {scope scope₁ : Vars} {ids : List ℕ} {e : Emit}
variable {w : Walk}

theorem age_of_not_replayed {slot : Option Slot} (h : ∀ d, slot ≠ some (.replayed d)) :
    slot.map Slot.age = slot := by
  cases slot with
  | none => rfl
  | some s =>
    cases s with
    | inPlace d => rfl
    | replayed d => exact absurd rfl (h d)
    | leftover d => rfl
    | capture name => rfl

theorem Sound.replays (h : Sound resolution true scope scope₁ ids e w) {visible : Names}
    (hvisible : ∀ name, name ∈ visible ↔ scope name ≠ none) :
    Replays resolution scope (replay e) (walkReplay visible w) := by
  intro out stale hplain htracks
  have hstart : Matches resolution true scope ids
      { toOutput := out, sites := [], terminated := false }
      { visible := visible, stale := stale, sites := [], terminated := false } := by
    constructor
    case visible => exact hvisible
    case stale => exact htracks
    case unused => exact fun name d _ => hplain name d
    case noReplayed => exact fun hm => absurd hm.symm Bool.false_ne_true
    case sites => exact List.Forall₂.nil
    case noSites => exact fun _ => rfl
    case terminated => rfl
  have hr := h _ _ hstart
  refine ⟨?_, ?_, hr.reads⟩
  · intro name hmem
    have hsame := hr.frame name hmem
    change ((e _).vars name).map Slot.age = _
    rw [hsame]
    exact age_of_not_replayed (hplain name)
  · intro name hmem
    obtain ⟨slot, hslot, hown⟩ := hr.touched name hmem
    change ∃ d, ((e _).vars name).map Slot.age = _
    rw [hslot]
    rcases hown with ⟨d, _, heq⟩ | ⟨hm, _⟩
    · rw [heq]
      exact ⟨d, rfl⟩
    · cases hm

theorem sound_register {bs : List Binder} (h : Sound resolution true scope scope₁ ids e w)
    (hsub : ∀ d ∈ bs.map Binder.decl, d ∈ ids) :
    Sound resolution false scope (declareAll false bs scope) ids (register e)
      (walkRegister (binderNames bs) w) := by
  intro st sc hm
  have hr := sound_missing hsub st sc hm
  constructor
  case frame => exact hr.frame
  case touched => exact hr.touched
  case stale => exact hr.stale
  case outer => exact hr.outer
  case inner => exact hr.inner
  case sites =>
    refine ⟨[replay e], rfl, List.Forall₂.cons ?_ List.Forall₂.nil⟩
    exact ⟨scope, hm.stale, h.replays hm.visible, fun _ _ => rfl,
      fun _ hmem => absurd hmem (Finset.notMem_empty _)⟩
  case noSites => exact fun hmode => absurd hmode Bool.false_ne_true
  case terminated => exact hr.terminated
  case reads => exact hr.reads

/-- The replays of an exit, by induction over the sites known there: so far `touched` holds what
    they have left behind. -/
theorem replayAll_sound {vars : Vars} {sites : List Site} {infos : List StaleSite}
    (hsites : List.Forall₂ (Knows resolution ids vars) sites infos)
    (hplain : ∀ name d, vars name ≠ some (.replayed d)) :
    ∀ (out : Output) (touched : Names),
      (∀ name, name ∉ touched → out.vars name = vars name) →
      (∀ name, name ∈ touched → ∃ d, out.vars name = some (.leftover d)) →
      (∀ name, name ∉ (replayAll infos touched).1 →
        (sites.foldl (fun out s => s out) out).vars name = vars name) ∧
      (∀ name, name ∈ (replayAll infos touched).1 →
        ∃ d, (sites.foldl (fun out s => s out) out).vars name = some (.leftover d)) ∧
      (Resolved resolution (sites.foldl (fun out s => s out) out).reads ↔
        Resolved resolution out.reads ∧ (replayAll infos touched).2 = true) := by
  induction hsites with
  | nil =>
    intro out touched hframe htouched
    exact ⟨hframe, htouched, fun hr => ⟨hr, rfl⟩, fun hr => hr.1⟩
  | @cons site info sites infos hknows _ ih =>
    intro out touched hframe htouched
    obtain ⟨own, hfresh, htracks, hreplays⟩ := hknows
    have hnone := hfresh.none
    have howned : ∀ name, name ∈ touched →
        ∃ slot, out.vars name = some slot ∧ Own false [] slot := by
      intro name hmem
      obtain ⟨d, heq⟩ := htouched name hmem
      exact ⟨_, heq, Or.inr ⟨rfl, d, rfl⟩⟩
    have houtplain : ∀ name d, out.vars name ≠ some (.replayed d) := by
      intro name d
      by_cases hmem : name ∈ touched
      · obtain ⟨d', heq⟩ := htouched name hmem
        rw [heq]
        exact fun hsame => Slot.noConfusion (Option.some.inj hsame)
      · rw [hframe name hmem]
        exact hplain name d
    obtain ⟨hkeep, hleft, hreads⟩ :=
      hreplays out _ houtplain (tracks_touch htracks hnone hframe howned)
    have hnext := ih (site out) (touched ∪ (info.replay (info.stale ∪ touched)).1)
      (by
        intro name hmem
        rw [Finset.mem_union, not_or] at hmem
        exact (hkeep name hmem.2).trans (hframe name hmem.1))
      (by
        intro name hmem
        rw [Finset.mem_union] at hmem
        by_cases hnow : name ∈ (info.replay (info.stale ∪ touched)).1
        · exact hleft name hnow
        · obtain ⟨d, heq⟩ := htouched name (hmem.resolve_right hnow)
          exact ⟨d, (hkeep name hnow).trans heq⟩)
    refine ⟨hnext.1, hnext.2.1, ?_⟩
    rw [List.foldl_cons, hnext.2.2, hreads, and_assoc]
    change _ ↔ _ ∧ ((info.replay (info.stale ∪ touched)).2 && _) = true
    rw [Bool.and_eq_true]

theorem sound_deferred (hfresh : Fresh m [] scope) :
    Sound resolution m scope scope [] (emitDeferred m) (walkDeferred m) := by
  cases m with
  | true => exact sound_pass
  | false =>
    intro st sc h
    have hpass := sound_pass st sc h
    obtain ⟨hframe, hleft, hreads⟩ := replayAll_sound h.sites (h.noReplayed rfl) st.toOutput ∅
      (fun _ _ => rfl) (fun _ hmem => absurd hmem (Finset.notMem_empty _))
    have htouched : ∀ name, name ∈ (replayAll sc.sites ∅).1 → ∃ slot,
        (st.sites.foldl (fun out s => s out) st.toOutput).vars name = some slot ∧
          Own false [] slot := by
      intro name hmem
      obtain ⟨d, heq⟩ := hleft name hmem
      exact ⟨_, heq, Or.inr ⟨rfl, d, rfl⟩⟩
    exact {
      frame := hframe
      touched := htouched
      stale := tracks_touch h.stale hfresh hframe htouched
      outer := hpass.outer
      inner := hpass.inner
      sites := ⟨[], (List.append_nil _).symm, List.Forall₂.nil⟩
      noSites := hpass.noSites
      terminated := hpass.terminated
      reads := hreads }

theorem sound_fallThrough (isMain : Bool) (hfresh : Fresh false [] scope) :
    Sound resolution false scope scope [] (fallThrough isMain) (walkFallThrough isMain) := by
  have honce : Sound resolution false scope scope [] (emitDeferred false) (walkDeferred false) :=
    sound_deferred hfresh
  apply Sound.unlessTerminated [] true
  · cases isMain with
    | true => exact honce
    | false => exact honce.seq honce hfresh List.nodup_nil
  · exact fun d hd => absurd hd List.not_mem_nil

end Deferred

section Closures
variable {resolution : List Read} {m : Bool} {scope scope₁ : Vars} {ids : List ℕ}

theorem sound_captures (hdistinct : (resolution.map Prod.fst).Nodup) (hfresh : Fresh m [] scope)
    {captures : List (ℕ × String)} (hres : ∀ c ∈ captures, (c.1, scope c.2) ∈ resolution) :
    Sound resolution m scope scope [] (emitCaptures captures) (walkCaptures captures) := by
  induction captures with
  | nil => exact sound_pass
  | cons c cs ih =>
    have hfirst := sound_read (m := m) hdistinct (hres c List.mem_cons_self)
    have hrest := ih (fun c' hc' => hres c' (List.mem_cons_of_mem c hc'))
    exact hfirst.seq hrest hfresh List.nodup_nil

theorem closureScope_capture {name : String} {slot : Slot} (h : closureScope scope name = some slot) :
    slot = .capture name := by
  rw [closureScope, Option.map_eq_some_iff] at h
  obtain ⟨_, _, heq⟩ := h
  exact heq.symm

theorem closureScope_ne_none (scope : Vars) (name : String) :
    closureScope scope name ≠ none ↔ scope name ≠ none := by
  rw [closureScope, Ne, Option.map_eq_none_iff]

theorem captureVars_capture {captures : List (ℕ × String)} {name : String} {slot : Slot}
    (h : captureVars captures name = some slot) : slot = .capture name := by
  rw [captureVars] at h
  split at h
  · exact (Option.some.inj h).symm
  · cases h

section Parameters
variable {vars : Vars} {params : List Binder}

/-- Parameters declared over captures have their own slots, and all other names are captures. -/
theorem closed_slot (hvars : ∀ name slot, vars name = some slot → slot = .capture name)
    {name : String} {slot : Slot} (h : declareAll false params vars name = some slot) :
    (∃ d ∈ params.map Binder.decl, slot = ownSlot false d) ∨ slot = .capture name := by
  by_cases hmem : name ∈ binderNames params
  · obtain ⟨d, hd, heq⟩ := declareAll_name (m := false) hmem
    rw [heq] at h
    exact Or.inl ⟨d, hd, (Option.some.inj h).symm⟩
  · rw [declareAll_other hmem] at h
    exact Or.inr (hvars name slot h)

theorem closed_unused (hvars : ∀ name slot, vars name = some slot → slot = .capture name)
    (hsub : ∀ d ∈ params.map Binder.decl, d ∉ ids) (name : String) (d : ℕ) (hd : d ∈ ids) :
    declareAll false params vars name ≠ some (ownSlot false d) := by
  intro h
  rcases closed_slot hvars h with ⟨d', hd', heq⟩ | heq
  · rw [← ownSlot_inj heq] at hd'
    exact hsub d hd' hd
  · exact Slot.noConfusion heq

theorem closed_noReplayed (hvars : ∀ name slot, vars name = some slot → slot = .capture name)
    (name : String) (d : ℕ) : declareAll false params vars name ≠ some (.replayed d) := by
  intro h
  rcases closed_slot hvars h with ⟨d', _, heq⟩ | heq
  · exact Slot.noConfusion heq
  · exact Slot.noConfusion heq

theorem closed_noLeftover (hvars : ∀ name slot, vars name = some slot → slot = .capture name)
    (name : String) (d : ℕ) : declareAll false params vars name ≠ some (.leftover d) := by
  intro h
  rcases closed_slot hvars h with ⟨d', _, heq⟩ | heq
  · exact Slot.noConfusion heq
  · exact Slot.noConfusion heq

end Parameters

theorem Fresh.closure (ids : List ℕ) (params : List Binder)
    (hsub : ∀ d ∈ params.map Binder.decl, d ∉ ids) (scope : Vars) :
    Fresh false ids (declareAll false params (closureScope scope)) where
  unbound := closed_unused (fun _ _ => closureScope_capture) hsub
  noLeftover := closed_noLeftover (fun _ _ => closureScope_capture)
  noReplayed := fun _ => closed_noReplayed (fun _ _ => closureScope_capture)

/-- What a closure sees differs from what it captures where only one of the two has the name. -/
theorem captured_differs {visible : Names} (hvisible : ∀ name, name ∈ visible ↔ scope name ≠ none)
    (captures : List (ℕ × String)) (name : String) :
    name ∈ symmDiff visible (captures.map Prod.snd).toFinset ↔
      captureVars captures name ≠ closureScope scope name := by
  rw [Finset.mem_symmDiff, List.mem_toFinset, captureVars, hvisible name,
    ← closureScope_ne_none scope name]
  cases hscope : closureScope scope name with
  | none =>
    by_cases hcap : name ∈ captures.map Prod.snd
    · rw [if_pos hcap]
      exact iff_of_true (Or.inr ⟨hcap, fun hne => hne rfl⟩) (Option.some_ne_none _)
    · rw [if_neg hcap]
      apply iff_of_false
      · rintro (⟨hne, -⟩ | ⟨hmem, -⟩)
        · exact hne rfl
        · exact hcap hmem
      · exact fun hne => hne rfl
  | some slot =>
    have hcapture := closureScope_capture hscope
    by_cases hcap : name ∈ captures.map Prod.snd
    · rw [if_pos hcap, hcapture]
      apply iff_of_false
      · rintro (⟨-, hmem⟩ | ⟨-, hnone⟩)
        · exact hmem hcap
        · exact hnone (Option.some_ne_none _)
      · exact fun hne => hne rfl
    · rw [if_neg hcap]
      exact iff_of_true (Or.inl ⟨Option.some_ne_none _, hcap⟩) (Option.some_ne_none _).symm

theorem matches_closure {st : Emitter} {sc : Scope} (captures : List (ℕ × String))
    {params : List Binder} (h : Matches resolution m scope [] st sc)
    (hsub : ∀ d ∈ params.map Binder.decl, d ∉ ids) :
    Matches resolution false (declareAll false params (closureScope scope)) ids
      { vars := declareAll false params (captureVars captures), reads := st.reads, sites := [],
        terminated := false }
      { visible := sc.visible ∪ binderNames params
        stale := symmDiff sc.visible (captures.map Prod.snd).toFinset \ binderNames params
        sites := [], terminated := false } := by
  constructor
  case visible =>
    intro name
    change name ∈ _ ∪ _ ↔ _
    rw [Finset.mem_union]
    by_cases hmem : name ∈ binderNames params
    · obtain ⟨d, _, heq⟩ := declareAll_name (m := false) hmem
      rw [heq]
      exact iff_of_true (Or.inr hmem) (Option.some_ne_none _)
    · rw [declareAll_other hmem, closureScope_ne_none, ← h.visible name]
      exact ⟨fun hor => hor.resolve_right hmem, Or.inl⟩
  case stale =>
    intro name
    change _ ↔ declareAll false params (captureVars captures) name ≠ _
    rw [Finset.mem_sdiff]
    by_cases hmem : name ∈ binderNames params
    · obtain ⟨d, _, heq⟩ := declareAll_name (m := false) hmem
      rw [heq, heq]
      exact iff_of_false (fun hand => hand.2 hmem) (fun hne => hne rfl)
    · rw [declareAll_other hmem, declareAll_other hmem, and_iff_left hmem]
      exact captured_differs h.visible captures name
  case unused => exact closed_unused (fun _ _ => captureVars_capture) hsub
  case noReplayed => exact fun _ => closed_noReplayed (fun _ _ => captureVars_capture)
  case sites => exact List.Forall₂.nil
  case noSites => exact fun _ => rfl
  case terminated => rfl

theorem sound_separately (m : Bool) (captures : List (ℕ × String)) {params : List Binder} {e : Emit} {w : Walk}
    (h : Sound resolution false (declareAll false params (closureScope scope)) scope₁ ids e w)
    (hsub : ∀ d ∈ params.map Binder.decl, d ∉ ids) :
    Sound resolution m scope scope [] (separately (declareAll false params (captureVars captures)) e)
      (walkSeparately (captures.map Prod.snd).toFinset (binderNames params) w) := by
  intro st sc hm
  have hpass := sound_pass st sc hm
  have hr := h _ _ (matches_closure captures hm hsub)
  exact {
    frame := hpass.frame
    touched := hpass.touched
    stale := hpass.stale
    outer := hpass.outer
    inner := hpass.inner
    sites := hpass.sites
    noSites := hpass.noSites
    terminated := hpass.terminated
    reads := hr.reads }

end Closures

end NewClLang.SlotSoundness
