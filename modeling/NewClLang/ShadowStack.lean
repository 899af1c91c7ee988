import NewClLang.TransitionRuns
import Mathlib.Logic.Function.Basic

set_option autoImplicit false

/-!
# The shared shadow stack

All threads register root slots in the one array `__nc_gc_roots`. A frame remembers the count of
entries at its entry and rewinds to that count when it returns. The workers run in parallel, so
the steps of different threads interleave anywhere, at the inserted yield points in particular.
-/
namespace NewClLang.ShadowStack
open TransitionRuns

/-- An entry of `__nc_gc_roots`: slot `i` of a frame's stack memory, the `entry_arg` of a spawned
    thread, or the null left by `__nc_gc_drop_root`. -/
inductive Root where
  | slot (frame i : ℕ)
  | entryArg (g : ℕ)
  | dropped
  deriving DecidableEq, Repr

/-- A call that has not returned: its `__nc_gc_mark`, and how many slots it has pushed. -/
structure Frame where
  id : ℕ
  mark : ℕ
  pushed : ℕ
  deriving DecidableEq, Repr

structure Shadow where
  roots : List Root
  frames : ℕ → List Frame
  handles : ℕ → Option ℕ
  calls : ℕ

def initShadow : Shadow := ⟨[], fun _ => [], fun _ => none, 0⟩

inductive ShadowOp where
  | call (t : ℕ) (isMain : Bool)
  | push (t : ℕ)
  | ret (t : ℕ)
  | spawn (g : ℕ) (env : Bool)
  | finish (g : ℕ)

def pushRoot (roots : List Root) (r : Root) : List Root := roots ++ [r]

def rewind (roots : List Root) (mark : ℕ) : List Root :=
  if mark ≤ roots.length then roots.take mark else roots

def rewound (roots : List Root) (mark : ℕ) : List Root :=
  if mark ≤ roots.length then roots.drop mark else []

def dropRoot (roots : List Root) (handle : ℕ) : List Root := roots.set handle .dropped

/-- `init_gc_frame` at a function's entry, `__nc_gc_push_root_slot`, `emit_gc_rewind` at a return,
    and the slot that `__nc_spawn` registers and `g_finish_dead` drops. -/
def shadowStep (s : Shadow) : ShadowOp → Shadow
  | .call t isMain =>
    let roots := if isMain then [] else s.roots
    { s with
      roots := roots
      frames := Function.update s.frames t (⟨s.calls, roots.length, 0⟩ :: s.frames t)
      calls := s.calls + 1 }
  | .push t =>
    match s.frames t with
    | [] => s
    | f :: rest =>
      { s with
        roots := pushRoot s.roots (.slot f.id f.pushed)
        frames := Function.update s.frames t ({ f with pushed := f.pushed + 1 } :: rest) }
  | .ret t =>
    match s.frames t with
    | [] => s
    | f :: rest =>
      { s with
        roots := rewind s.roots f.mark
        frames := Function.update s.frames t rest }
  | .spawn g env =>
    if env then
      { s with
        roots := pushRoot s.roots (.entryArg g)
        handles := Function.update s.handles g (some s.roots.length) }
    else { s with handles := Function.update s.handles g none }
  | .finish g =>
    match s.handles g with
    | none => s
    | some h =>
      { s with
        roots := dropRoot s.roots h
        handles := Function.update s.handles g none }

def Live (s : Shadow) (t : ℕ) (f : Frame) : Prop := f ∈ s.frames t

/-- Every slot that a live frame pushed is registered, and only slots of live frames are. -/
structure Disciplined (s : Shadow) : Prop where
  registered : ∀ t f, Live s t f → ∀ i < f.pushed, Root.slot f.id i ∈ s.roots
  returned : ∀ id i, Root.slot id i ∈ s.roots → ∃ t f, Live s t f ∧ f.id = id

/-- A frame that returns removes its own slots and no other frame's, a dropped handle is no
    frame's slot, and `main` is entered with no slot registered. -/
def OwnEntries (s : Shadow) : ShadowOp → Prop
  | .call _ isMain => isMain = true → ∀ id i, Root.slot id i ∉ s.roots
  | .ret t =>
    match s.frames t with
    | [] => True
    | f :: _ =>
      (∀ id i, Root.slot id i ∈ rewound s.roots f.mark → id = f.id) ∧
      (∀ i, Root.slot f.id i ∉ rewind s.roots f.mark)
  | .finish g => ∀ h, s.handles g = some h → ∀ id i, s.roots[h]? ≠ some (Root.slot id i)
  | _ => True

/-- The invariant of the runs that meet the condition: frames and slots are told apart. -/
structure Tracked (s : Shadow) : Prop extends Disciplined s where
  fresh : ∀ t f, Live s t f → f.id < s.calls
  thread_unique : ∀ t t' f f', Live s t f → Live s t' f' → f.id = f'.id → t = t'
  ids_nodup : ∀ t, ((s.frames t).map Frame.id).Nodup
  slot_unique : ∀ (p q id i : ℕ), s.roots[p]? = some (Root.slot id i) → s.roots[q]? = some (Root.slot id i) →
    p = q
  pushed : ∀ t f i, Live s t f → Root.slot f.id i ∈ s.roots → i < f.pushed

section Roots

theorem mem_pushRoot {roots : List Root} {r r' : Root} :
    r' ∈ pushRoot roots r ↔ r' ∈ roots ∨ r' = r := by
  simp [pushRoot]

theorem pushRoot_getElem? {roots : List Root} {r r' : Root} {p : ℕ} :
    (pushRoot roots r)[p]? = some r' ↔ roots[p]? = some r' ∨ (p = roots.length ∧ r' = r) := by
  rw [pushRoot]
  rcases Nat.lt_trichotomy p roots.length with hlt | heq | hgt
  · rw [List.getElem?_append_left hlt]
    simp only [Nat.ne_of_lt hlt, false_and, or_false]
  · rw [heq, List.getElem?_concat_length, List.getElem?_eq_none (Nat.le_refl _)]
    simp [eq_comm]
  · have hlength : (roots ++ [r]).length ≤ p := by
      rw [List.length_append, List.length_singleton]
      omega
    rw [List.getElem?_eq_none hlength, List.getElem?_eq_none (Nat.le_of_lt hgt)]
    simp only [Nat.ne_of_gt hgt, false_and, or_false]

theorem mem_rewind {roots : List Root} {mark : ℕ} {r : Root} (h : r ∈ rewind roots mark) :
    r ∈ roots := by
  unfold rewind at h
  split_ifs at h
  · exact List.mem_of_mem_take h
  · exact h

theorem mem_of_rewound {roots : List Root} {mark : ℕ} {r : Root} (h : r ∈ rewound roots mark) :
    r ∈ roots := by
  unfold rewound at h
  split_ifs at h
  · exact List.mem_of_mem_drop h
  · cases h

theorem mem_rewind_or_rewound {roots : List Root} (mark : ℕ) {r : Root} (h : r ∈ roots) :
    r ∈ rewind roots mark ∨ r ∈ rewound roots mark := by
  unfold rewind rewound
  split_ifs
  · rw [← List.mem_append, List.take_append_drop]
    exact h
  · exact Or.inl h

theorem rewind_getElem? {roots : List Root} {mark p : ℕ} {r : Root}
    (h : (rewind roots mark)[p]? = some r) : roots[p]? = some r := by
  unfold rewind at h
  split_ifs at h
  · rw [List.getElem?_take] at h
    split_ifs at h
    exact h
  · exact h

theorem not_rewind_of_rewound {roots : List Root} {mark id i : ℕ}
    (hunique : ∀ p q : ℕ, roots[p]? = some (Root.slot id i) → roots[q]? = some (Root.slot id i) → p = q)
    (h : Root.slot id i ∈ rewound roots mark) : Root.slot id i ∉ rewind roots mark := by
  intro hkept
  unfold rewound at h
  unfold rewind at hkept
  split_ifs at h hkept with hmark
  · obtain ⟨p, hp⟩ := List.mem_iff_getElem?.mp h
    obtain ⟨q, hq⟩ := List.mem_iff_getElem?.mp hkept
    rw [List.getElem?_drop] at hp
    rw [List.getElem?_take] at hq
    split_ifs at hq with hlt
    have hpq := hunique _ _ hp hq
    omega
  · cases h

end Roots

section Frames
variable {s : Shadow}

theorem live_update {t t' : ℕ} {l : List Frame} {f : Frame} :
    f ∈ Function.update s.frames t l t' ↔ (t' = t ∧ f ∈ l) ∨ (t' ≠ t ∧ Live s t' f) := by
  by_cases h : t' = t
  · subst h
    simp
  · simp [h, Live]

theorem Tracked.head_ne (h : Tracked s) {t t' : ℕ} {f f' : Frame} {rest : List Frame}
    (hstack : s.frames t = f :: rest) (hf' : (t' = t ∧ f' ∈ rest) ∨ (t' ≠ t ∧ Live s t' f')) :
    f'.id ≠ f.id := by
  have hlive : Live s t f := by simp [Live, hstack]
  rcases hf' with ⟨rfl, hrest⟩ | ⟨hne, hother⟩
  · have hnodup := h.ids_nodup t'
    rw [hstack, List.map_cons, List.nodup_cons] at hnodup
    intro hid
    exact hnodup.1 (hid ▸ List.mem_map_of_mem hrest)
  · intro hid
    exact hne (h.thread_unique t' t f' f hother hlive hid)

theorem live_of_rest {t t' : ℕ} {f f' : Frame} {rest : List Frame}
    (hstack : s.frames t = f :: rest) (hf' : (t' = t ∧ f' ∈ rest) ∨ (t' ≠ t ∧ Live s t' f')) :
    Live s t' f' := by
  rcases hf' with ⟨rfl, hrest⟩ | ⟨-, hother⟩
  · simp [Live, hstack, hrest]
  · exact hother

theorem rest_of_live {t t' : ℕ} {f f' : Frame} {rest : List Frame}
    (hstack : s.frames t = f :: rest) (hf' : Live s t' f') (hne : f' ≠ f) :
    (t' = t ∧ f' ∈ rest) ∨ (t' ≠ t ∧ Live s t' f') := by
  by_cases ht : t' = t
  · subst ht
    rw [Live, hstack] at hf'
    exact Or.inl ⟨rfl, (List.mem_cons.mp hf').resolve_left hne⟩
  · exact Or.inr ⟨ht, hf'⟩

theorem live_call {t t' : ℕ} {isMain : Bool} {f : Frame} (hf : Live s t' f) :
    Live (shadowStep s (.call t isMain)) t' f := by
  apply live_update.mpr
  by_cases ht : t' = t
  · subst ht
    exact Or.inl ⟨rfl, List.mem_cons_of_mem _ hf⟩
  · exact Or.inr ⟨ht, hf⟩

theorem call_tracked (h : Tracked s) (t : ℕ) (isMain : Bool)
    (hop : OwnEntries s (.call t isMain)) : Tracked (shadowStep s (.call t isMain)) := by
  have hroots : ∀ r, r ∈ (shadowStep s (.call t isMain)).roots → r ∈ s.roots := by
    intro r hr
    simp only [shadowStep] at hr
    split_ifs at hr
    · cases hr
    · exact hr
  have hslots : ∀ id i, Root.slot id i ∈ s.roots →
      Root.slot id i ∈ (shadowStep s (.call t isMain)).roots := by
    intro id i hr
    simp only [shadowStep]
    split_ifs with hmain
    · exact absurd hr (hop hmain id i)
    · exact hr
  have hlive : ∀ t' f, Live (shadowStep s (.call t isMain)) t' f →
      f = ⟨s.calls, (shadowStep s (.call t isMain)).roots.length, 0⟩ ∧ t' = t ∨
        Live s t' f := by
    intro t' f hf
    rcases live_update.mp hf with ⟨rfl, hmem⟩ | ⟨-, hold⟩
    · rcases List.mem_cons.mp hmem with rfl | hold
      · exact Or.inl ⟨rfl, rfl⟩
      · exact Or.inr hold
    · exact Or.inr hold
  constructor
  case toDisciplined =>
    constructor
    case registered =>
      intro t' f hf i hi
      rcases hlive t' f hf with ⟨rfl, -⟩ | hold
      · exact absurd hi (Nat.not_lt_zero i)
      · exact hslots _ _ (h.registered t' f hold i hi)
    case returned =>
      intro id i hr
      obtain ⟨t', f, hf, hid⟩ := h.returned id i (hroots _ hr)
      exact ⟨t', f, live_call hf, hid⟩
  case fresh =>
    intro t' f hf
    rcases hlive t' f hf with ⟨rfl, -⟩ | hold
    · exact Nat.lt_succ_self _
    · exact Nat.lt_succ_of_lt (h.fresh t' f hold)
  case thread_unique =>
    intro t₁ t₂ f₁ f₂ hf₁ hf₂ hid
    rcases hlive t₁ f₁ hf₁ with ⟨rfl, ht₁⟩ | hold₁
    · rcases hlive t₂ f₂ hf₂ with ⟨-, ht₂⟩ | hold₂
      · rw [ht₁, ht₂]
      · exact absurd hid.symm (Nat.ne_of_lt (h.fresh t₂ f₂ hold₂))
    · rcases hlive t₂ f₂ hf₂ with ⟨rfl, -⟩ | hold₂
      · exact absurd hid (Nat.ne_of_lt (h.fresh t₁ f₁ hold₁))
      · exact h.thread_unique t₁ t₂ f₁ f₂ hold₁ hold₂ hid
  case ids_nodup =>
    intro t'
    by_cases ht : t' = t
    · subst ht
      simp only [shadowStep, Function.update_self, List.map_cons, List.nodup_cons]
      refine ⟨fun hmem => ?_, h.ids_nodup t'⟩
      obtain ⟨f, hf, hid⟩ := List.mem_map.mp hmem
      exact absurd hid (Nat.ne_of_lt (h.fresh t' f hf))
    · simp only [shadowStep, Function.update_of_ne ht]
      exact h.ids_nodup t'
  case slot_unique =>
    intro p q id i hp hq
    simp only [shadowStep] at hp hq
    split_ifs at hp hq
    · cases hp
    · exact h.slot_unique p q id i hp hq
  case pushed =>
    intro t' f i hf hr
    rcases hlive t' f hf with ⟨rfl, -⟩ | hold
    · obtain ⟨t'', f'', hf'', hid⟩ := h.returned _ i (hroots _ hr)
      exact absurd hid (Nat.ne_of_lt (h.fresh t'' f'' hf''))
    · exact h.pushed t' f i hold (hroots _ hr)

section Replaced
variable {t : ℕ} {f g : Frame} {rest : List Frame}

theorem replaced_live (h : Tracked s) (hstack : s.frames t = f :: rest) {t' : ℕ} {f' : Frame}
    (hf' : f' ∈ Function.update s.frames t (g :: rest) t') :
    (t' = t ∧ f' = g) ∨ (f'.id ≠ f.id ∧ Live s t' f') := by
  have hrest : (t' = t ∧ f' ∈ rest) ∨ (t' ≠ t ∧ Live s t' f') → f'.id ≠ f.id ∧ Live s t' f' :=
    fun hother => ⟨h.head_ne hstack hother, live_of_rest hstack hother⟩
  rcases live_update.mp hf' with ⟨ht, hmem⟩ | hother
  · rcases List.mem_cons.mp hmem with heq | hmem
    · exact Or.inl ⟨ht, heq⟩
    · exact Or.inr (hrest (Or.inl ⟨ht, hmem⟩))
  · exact Or.inr (hrest (Or.inr hother))

theorem replaced_ids (hstack : s.frames t = f :: rest) (hid : g.id = f.id) (t' : ℕ) :
    (Function.update s.frames t (g :: rest) t').map Frame.id = (s.frames t').map Frame.id := by
  by_cases ht : t' = t
  · subst ht
    rw [Function.update_self, hstack, List.map_cons, List.map_cons, hid]
  · rw [Function.update_of_ne ht]

/-- Every frame that was live is live with the same number. -/
theorem live_replaced (hstack : s.frames t = f :: rest) (hid : g.id = f.id) {t' : ℕ} {f' : Frame}
    (hf' : Live s t' f') :
    ∃ f'', f'' ∈ Function.update s.frames t (g :: rest) t' ∧ f''.id = f'.id := by
  have hmem : f'.id ∈ (s.frames t').map Frame.id := List.mem_map_of_mem hf'
  rw [← replaced_ids hstack hid t'] at hmem
  exact List.mem_map.mp hmem

end Replaced

theorem push_tracked (h : Tracked s) (t : ℕ) : Tracked (shadowStep s (.push t)) := by
  rw [shadowStep]
  cases hstack : s.frames t with
  | nil => exact h
  | cons f rest =>
    have hf : Live s t f := by simp [Live, hstack]
    have hnew : Root.slot f.id f.pushed ∉ s.roots := by
      intro hmem
      exact absurd (h.pushed t f f.pushed hf hmem) (Nat.lt_irrefl _)
    constructor
    case toDisciplined =>
      constructor
      case registered =>
        intro t' f' hf' i hi
        apply mem_pushRoot.mpr
        rcases replaced_live h hstack hf' with ⟨-, rfl⟩ | ⟨-, hold⟩
        · by_cases hlast : i = f.pushed
          · subst hlast
            exact Or.inr rfl
          · simp only at hi
            exact Or.inl (h.registered t f hf i (by omega))
        · exact Or.inl (h.registered t' f' hold i hi)
      case returned =>
        intro id i hmem
        have hold : ∃ t' f', Live s t' f' ∧ f'.id = id := by
          rcases mem_pushRoot.mp hmem with hmem | heq
          · exact h.returned id i hmem
          · cases heq
            exact ⟨t, f, hf, rfl⟩
        obtain ⟨t', f', hf', hid⟩ := hold
        obtain ⟨f'', hf'', hid'⟩ := live_replaced (g := { f with pushed := f.pushed + 1 }) hstack
          rfl hf'
        exact ⟨t', f'', hf'', hid'.trans hid⟩
    case fresh =>
      intro t' f' hf'
      rcases replaced_live h hstack hf' with ⟨-, rfl⟩ | ⟨-, hold⟩
      · exact h.fresh t f hf
      · exact h.fresh t' f' hold
    case thread_unique =>
      intro t₁ t₂ f₁ f₂ hf₁ hf₂ hid
      rcases replaced_live h hstack hf₁ with ⟨ht₁, rfl⟩ | ⟨hne₁, hold₁⟩
      · rcases replaced_live h hstack hf₂ with ⟨ht₂, -⟩ | ⟨hne₂, -⟩
        · rw [ht₁, ht₂]
        · exact absurd hid.symm hne₂
      · rcases replaced_live h hstack hf₂ with ⟨-, rfl⟩ | ⟨-, hold₂⟩
        · exact absurd hid hne₁
        · exact h.thread_unique t₁ t₂ f₁ f₂ hold₁ hold₂ hid
    case ids_nodup =>
      intro t'
      have hids := replaced_ids (g := { f with pushed := f.pushed + 1 }) hstack rfl t'
      exact hids ▸ h.ids_nodup t'
    case slot_unique =>
      intro p q id i hp hq
      rcases pushRoot_getElem?.mp hp with hp | ⟨hplast, heq⟩
      · rcases pushRoot_getElem?.mp hq with hq | ⟨-, heq⟩
        · exact h.slot_unique p q id i hp hq
        · rw [heq] at hp
          exact absurd (List.mem_of_getElem? hp) hnew
      · rcases pushRoot_getElem?.mp hq with hq | ⟨hqlast, -⟩
        · rw [heq] at hq
          exact absurd (List.mem_of_getElem? hq) hnew
        · exact hplast.trans hqlast.symm
    case pushed =>
      intro t' f' i hf' hmem
      rcases replaced_live h hstack hf' with ⟨-, rfl⟩ | ⟨hne, hold⟩
      · rcases mem_pushRoot.mp hmem with hmem | heq
        · exact Nat.lt_succ_of_lt (h.pushed t f i hf hmem)
        · cases heq
          exact Nat.lt_succ_self _
      · rcases mem_pushRoot.mp hmem with hmem | heq
        · exact h.pushed t' f' i hold hmem
        · rw [Root.slot.injEq] at heq
          exact absurd heq.1 hne

theorem ret_tracked (h : Tracked s) (t : ℕ) (hop : OwnEntries s (.ret t)) :
    Tracked (shadowStep s (.ret t)) := by
  rw [shadowStep]
  simp only [OwnEntries] at hop
  cases hstack : s.frames t with
  | nil => exact h
  | cons f rest =>
    rw [hstack] at hop
    obtain ⟨hremoved, hkept⟩ := hop
    have hlive : ∀ t' f', f' ∈ Function.update s.frames t rest t' →
        f'.id ≠ f.id ∧ Live s t' f' := by
      intro t' f' hf'
      have hcases := live_update.mp hf'
      exact ⟨h.head_ne hstack hcases, live_of_rest hstack hcases⟩
    constructor
    case toDisciplined =>
      constructor
      case registered =>
        intro t' f' hf' i hi
        obtain ⟨hne, hold⟩ := hlive t' f' hf'
        rcases mem_rewind_or_rewound f.mark (h.registered t' f' hold i hi) with hmem | hmem
        · exact hmem
        · exact absurd (hremoved _ i hmem) hne
      case returned =>
        intro id i hmem
        obtain ⟨t', f', hf', rfl⟩ := h.returned id i (mem_rewind hmem)
        have hne : f' ≠ f := by
          rintro rfl
          exact hkept i hmem
        exact ⟨t', f', live_update.mpr (rest_of_live hstack hf' hne), rfl⟩
    case fresh => exact fun t' f' hf' => h.fresh t' f' (hlive t' f' hf').2
    case thread_unique =>
      intro t₁ t₂ f₁ f₂ hf₁ hf₂ hid
      exact h.thread_unique t₁ t₂ f₁ f₂ (hlive t₁ f₁ hf₁).2 (hlive t₂ f₂ hf₂).2 hid
    case ids_nodup =>
      intro t'
      have hnodup := h.ids_nodup t'
      by_cases ht : t' = t
      · subst ht
        rw [hstack, List.map_cons, List.nodup_cons] at hnodup
        simp only [Function.update_self]
        exact hnodup.2
      · simp only [Function.update_of_ne ht]
        exact hnodup
    case slot_unique =>
      intro p q id i hp hq
      exact h.slot_unique p q id i (rewind_getElem? hp) (rewind_getElem? hq)
    case pushed =>
      exact fun t' f' i hf' hmem => h.pushed t' f' i (hlive t' f' hf').2 (mem_rewind hmem)

theorem Tracked.entries (h : Tracked s) {s' : Shadow} (hframes : s'.frames = s.frames)
    (hcalls : s'.calls = s.calls)
    (hslots : ∀ p id i : ℕ, s'.roots[p]? = some (Root.slot id i) ↔ s.roots[p]? = some (Root.slot id i)) :
    Tracked s' := by
  have hlive : ∀ t f, Live s' t f ↔ Live s t f := by
    intro t f
    rw [Live, Live, hframes]
  have hmem : ∀ id i, Root.slot id i ∈ s'.roots ↔ Root.slot id i ∈ s.roots := by
    intro id i
    rw [List.mem_iff_getElem?, List.mem_iff_getElem?]
    simp only [hslots]
  constructor
  case toDisciplined =>
    constructor
    case registered =>
      intro t f hf i hi
      rw [hmem]
      exact h.registered t f ((hlive t f).mp hf) i hi
    case returned =>
      intro id i hr
      obtain ⟨t, f, hf, hid⟩ := h.returned id i ((hmem id i).mp hr)
      exact ⟨t, f, (hlive t f).mpr hf, hid⟩
  case fresh =>
    intro t f hf
    rw [hcalls]
    exact h.fresh t f ((hlive t f).mp hf)
  case thread_unique =>
    intro t t' f f' hf hf' hid
    exact h.thread_unique t t' f f' ((hlive t f).mp hf) ((hlive t' f').mp hf') hid
  case ids_nodup =>
    intro t
    rw [hframes]
    exact h.ids_nodup t
  case slot_unique =>
    intro p q id i hp hq
    exact h.slot_unique p q id i ((hslots p id i).mp hp) ((hslots q id i).mp hq)
  case pushed =>
    exact fun t f i hf hr => h.pushed t f i ((hlive t f).mp hf) ((hmem _ i).mp hr)

theorem spawn_tracked (h : Tracked s) (g : ℕ) (env : Bool) :
    Tracked (shadowStep s (.spawn g env)) := by
  rw [shadowStep]
  cases env with
  | false => exact h.entries rfl rfl (fun _ _ _ => Iff.rfl)
  | true =>
    rw [if_pos rfl]
    apply h.entries
    case hframes => rfl
    case hcalls => rfl
    intro p id i
    constructor
    · intro hp
      exact (pushRoot_getElem?.mp hp).resolve_right (fun hlast => Root.noConfusion hlast.2)
    · exact fun hp => pushRoot_getElem?.mpr (Or.inl hp)

theorem finish_tracked (h : Tracked s) (g : ℕ) (hop : OwnEntries s (.finish g)) :
    Tracked (shadowStep s (.finish g)) := by
  rw [shadowStep]
  cases hg : s.handles g with
  | none => exact h
  | some handle =>
    refine h.entries rfl rfl (fun p id i => ?_)
    simp only [dropRoot]
    by_cases hp : p = handle
    · subst hp
      have hno := hop p hg id i
      rw [List.getElem?_set_self']
      cases hr : s.roots[p]? with
      | none => simp
      | some r => simpa [hr] using hno
    · rw [List.getElem?_set_ne (fun heq => hp heq.symm)]

theorem shadowStep_tracked (h : Tracked s) (op : ShadowOp) (hop : OwnEntries s op) :
    Tracked (shadowStep s op) := by
  cases op with
  | call t isMain => exact call_tracked h t isMain hop
  | push t => exact push_tracked h t
  | ret t => exact ret_tracked h t hop
  | spawn g env => exact spawn_tracked h g env
  | finish g => exact finish_tracked h g hop

theorem not_disciplined_of_lost (h : Tracked s) {op : ShadowOp} {id i : ℕ}
    (hslot : Root.slot id i ∈ s.roots) (hlost : Root.slot id i ∉ (shadowStep s op).roots)
    (hlive : ∀ t f, Live s t f → f.id = id → Live (shadowStep s op) t f) :
    ¬ Disciplined (shadowStep s op) := by
  intro hd
  obtain ⟨t, f, hf, hid⟩ := h.returned id i hslot
  have hi : i < f.pushed := h.pushed t f i hf (hid ▸ hslot)
  exact hlost (hid ▸ hd.registered t f (hlive t f hf hid) i hi)

theorem call_breaks (h : Tracked s) (t : ℕ) (isMain : Bool)
    (hop : ¬ OwnEntries s (.call t isMain)) : ¬ Disciplined (shadowStep s (.call t isMain)) := by
  simp only [OwnEntries] at hop
  push Not at hop
  obtain ⟨hmain, id, i, hslot⟩ := hop
  have hlost : Root.slot id i ∉ (shadowStep s (.call t isMain)).roots := by simp [shadowStep, hmain]
  exact not_disciplined_of_lost h hslot hlost (fun t' f hf _ => live_call hf)

theorem ret_breaks (h : Tracked s) (t : ℕ) (hop : ¬ OwnEntries s (.ret t)) :
    ¬ Disciplined (shadowStep s (.ret t)) := by
  simp only [OwnEntries] at hop
  cases hstack : s.frames t with
  | nil =>
    rw [hstack] at hop
    exact absurd trivial hop
  | cons f rest =>
    simp only [hstack] at hop
    have hroots : (shadowStep s (.ret t)).roots = rewind s.roots f.mark := by
      simp [shadowStep, hstack]
    have hframes : (shadowStep s (.ret t)).frames = Function.update s.frames t rest := by
      simp [shadowStep, hstack]
    by_cases hremoved : ∀ id i, Root.slot id i ∈ rewound s.roots f.mark → id = f.id
    · -- A slot of the returned frame is still there, and its frame is gone.
      have hkept : ¬ ∀ i, Root.slot f.id i ∉ rewind s.roots f.mark :=
        fun hall => hop ⟨hremoved, hall⟩
      push Not at hkept
      obtain ⟨i, hi⟩ := hkept
      intro hd
      obtain ⟨t', f', hf', hid⟩ := hd.returned f.id i (hroots ▸ hi)
      rw [Live, hframes] at hf'
      exact h.head_ne hstack (live_update.mp hf') hid
    · -- The slot of another frame was removed, and its frame is live.
      push Not at hremoved
      obtain ⟨id, i, hmem, hne⟩ := hremoved
      have hlost : Root.slot id i ∉ (shadowStep s (.ret t)).roots := by
        rw [hroots]
        exact not_rewind_of_rewound (fun p q => h.slot_unique p q id i) hmem
      apply not_disciplined_of_lost h (mem_of_rewound hmem) hlost
      intro t' f' hf' hid
      rw [Live, hframes]
      apply live_update.mpr
      apply rest_of_live hstack hf'
      rintro rfl
      exact hne hid.symm

theorem finish_breaks (h : Tracked s) (g : ℕ) (hop : ¬ OwnEntries s (.finish g)) :
    ¬ Disciplined (shadowStep s (.finish g)) := by
  simp only [OwnEntries] at hop
  push Not at hop
  obtain ⟨handle, hg, id, i, hp⟩ := hop
  have hlost : Root.slot id i ∉ (shadowStep s (.finish g)).roots := by
    intro hmem
    simp only [shadowStep, hg, dropRoot] at hmem
    obtain ⟨q, hq⟩ := List.mem_iff_getElem?.mp hmem
    by_cases hqp : q = handle
    · subst hqp
      rw [List.getElem?_set_self'] at hq
      simp [hp] at hq
    · rw [List.getElem?_set_ne (fun heq => hqp heq.symm)] at hq
      exact hqp (h.slot_unique q handle id i hq hp)
  apply not_disciplined_of_lost h (List.mem_of_getElem? hp) hlost
  intro t f hf _
  simpa [shadowStep, hg, Live] using hf

theorem shadowStep_breaks (h : Tracked s) (op : ShadowOp) (hop : ¬ OwnEntries s op) :
    ¬ Disciplined (shadowStep s op) := by
  cases op with
  | call t isMain => exact call_breaks h t isMain hop
  | push t => exact absurd trivial hop
  | ret t => exact ret_breaks h t hop
  | spawn g env => exact absurd trivial hop
  | finish g => exact finish_breaks h g hop

theorem initShadow_tracked : Tracked initShadow where
  registered := by
    intro t f hf
    cases hf
  returned := by
    intro id i hr
    cases hr
  fresh := by
    intro t f hf
    cases hf
  thread_unique := by
    intro t t' f f' hf
    cases hf
  ids_nodup := fun _ => List.nodup_nil
  slot_unique := by
    intro p q id i hp
    cases hp
  pushed := by
    intro t f i hf
    cases hf

end Frames

end NewClLang.ShadowStack
