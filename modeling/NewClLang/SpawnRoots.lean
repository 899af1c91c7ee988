import NewClLang.ShadowStack
import NewClLang.Reachability

set_option autoImplicit false

/-!
# The roots of spawned threads

`__nc_spawn` registers the environment of a thread in the array that the frames truncate when they
return, and keeps its index for the time when the thread has finished.
-/
namespace NewClLang.SpawnRoots
open Reachability ShadowStack TransitionRuns

/-- What the program holds in its slots and blocks. The slot of a spawned thread is its `entry_arg`,
    which holds the environment until the thread is freed. -/
structure Memory where
  env : ℕ → ℕ
  slot : ℕ → ℕ → Option ℕ
  pointsTo : ℕ → ℕ → Prop

def Memory.content (m : Memory) : Root → Option ℕ
  | .slot frame i => m.slot frame i
  | .entryArg g => some (m.env g)
  | .dropped => none

/-- The blocks in the registered slots. -/
def Memory.rooted (m : Memory) (roots : List Root) : Set ℕ := {b | ∃ r ∈ roots, m.content r = some b}

/-- `__nc_g_alloc` gives a thread that is not in use. -/
def spawnStep (s : Shadow) : ShadowOp → Shadow
  | .spawn g env => if (s.handles g).isSome then s else shadowStep s (.spawn g env)
  | .call t isMain => shadowStep s (.call t isMain)
  | .push t => shadowStep s (.push t)
  | .ret t => shadowStep s (.ret t)
  | .finish g => shadowStep s (.finish g)

/-- From its spawn until it has finished, the environment of a thread is reachable whatever else the
    program holds, and the handle is the index of the slot that was registered for it. -/
structure EnvironmentsRooted (s : Shadow) : Prop where
  reachable : ∀ g, (s.handles g).isSome = true → ∀ m : Memory,
    Reachable m.pointsTo (m.rooted s.roots) (m.env g)
  handle : ∀ g h, s.handles g = some h → s.roots[h]? = some (.entryArg g)

/-- A return rewinds to a count above the handle of every thread that has not finished, and `main` is
    entered while there is no such thread. -/
def KeepsHandles (s : Shadow) : ShadowOp → Prop
  | .call _ isMain => isMain = true → ∀ g, s.handles g = none
  | .ret t =>
    match s.frames t with
    | [] => True
    | f :: _ => f.mark ≤ s.roots.length → ∀ g h, s.handles g = some h → h < f.mark
  | _ => True

section Roots
variable {s : Shadow}

theorem reachable_of_handle {g h : ℕ} (hroot : s.roots[h]? = some (.entryArg g)) (m : Memory) :
    Reachable m.pointsTo (m.rooted s.roots) (m.env g) :=
  reachable_root ⟨.entryArg g, List.mem_of_getElem? hroot, rfl⟩

/-- The handles alone decide whether the environments are rooted. -/
theorem rooted_iff :
    EnvironmentsRooted s ↔ ∀ g h, s.handles g = some h → s.roots[h]? = some (.entryArg g) := by
  constructor
  · exact fun hrooted => hrooted.handle
  · intro hhandles
    refine ⟨fun g hg m => ?_, hhandles⟩
    obtain ⟨h, hh⟩ := Option.isSome_iff_exists.1 hg
    exact reachable_of_handle (hhandles g h hh) m

theorem handle_lt (hs : EnvironmentsRooted s) {g h : ℕ} (hg : s.handles g = some h) :
    h < s.roots.length := by
  obtain ⟨hlt, -⟩ := List.getElem?_eq_some_iff.1 (hs.handle g h hg)
  exact hlt

theorem call_rooted (hs : EnvironmentsRooted s) {t : ℕ} {isMain : Bool}
    (hop : KeepsHandles s (.call t isMain)) :
    EnvironmentsRooted (spawnStep s (.call t isMain)) := by
  rw [rooted_iff]
  intro g h hg
  cases isMain with
  | true =>
    have hnone := hop rfl g
    change s.handles g = some h at hg
    rw [hnone] at hg
    cases hg
  | false => exact hs.handle g h hg

theorem push_rooted (hs : EnvironmentsRooted s) (t : ℕ) :
    EnvironmentsRooted (spawnStep s (.push t)) := by
  rw [spawnStep, shadowStep]
  cases hframes : s.frames t with
  | nil => exact hs
  | cons f rest =>
    rw [rooted_iff]
    exact fun g h hg => pushRoot_getElem?.2 (Or.inl (hs.handle g h hg))

theorem ret_roots {t : ℕ} {f : Frame} {rest : List Frame} (hframes : s.frames t = f :: rest) :
    (spawnStep s (.ret t)).roots = rewind s.roots f.mark ∧
      (spawnStep s (.ret t)).handles = s.handles := by
  rw [spawnStep, shadowStep, hframes]
  exact ⟨rfl, rfl⟩

theorem ret_rooted (hs : EnvironmentsRooted s) {t : ℕ} (hop : KeepsHandles s (.ret t)) :
    EnvironmentsRooted (spawnStep s (.ret t)) := by
  rw [KeepsHandles] at hop
  cases hframes : s.frames t with
  | nil =>
    rw [spawnStep, shadowStep, hframes]
    exact hs
  | cons f rest =>
    rw [hframes] at hop
    obtain ⟨hroots, hhandles⟩ := ret_roots hframes
    rw [rooted_iff, hroots, hhandles]
    intro g h hg
    rw [rewind]
    split_ifs with hmark
    · rw [List.getElem?_take, if_pos (hop hmark g h hg)]
      exact hs.handle g h hg
    · exact hs.handle g h hg

theorem spawn_rooted (hs : EnvironmentsRooted s) (g : ℕ) (env : Bool) :
    EnvironmentsRooted (spawnStep s (.spawn g env)) := by
  rw [spawnStep]
  split_ifs with hused
  · exact hs
  rw [rooted_iff]
  intro g' h hg
  cases env with
  | false =>
    change Function.update s.handles g none g' = some h at hg
    by_cases heq : g' = g
    · rw [heq, Function.update_self] at hg
      cases hg
    · rw [Function.update_of_ne heq] at hg
      exact hs.handle g' h hg
  | true =>
    change Function.update s.handles g (some s.roots.length) g' = some h at hg
    by_cases heq : g' = g
    · rw [heq, Function.update_self] at hg
      cases hg
      exact pushRoot_getElem?.2 (Or.inr ⟨rfl, by rw [heq]⟩)
    · rw [Function.update_of_ne heq] at hg
      exact pushRoot_getElem?.2 (Or.inl (hs.handle g' h hg))

/-- Dropping a handle clears the slot of the thread and no other. -/
theorem finish_clears (hs : EnvironmentsRooted s) {g h : ℕ} (hg : s.handles g = some h) (p : ℕ) :
    (spawnStep s (.finish g)).roots[p]? =
      if s.roots[p]? = some (.entryArg g) ∧ p = h then some .dropped else s.roots[p]? := by
  rw [spawnStep, shadowStep, hg]
  change (s.roots.set h .dropped)[p]? = _
  by_cases hp : p = h
  · rw [hp, List.getElem?_set_self (handle_lt hs hg), if_pos ⟨hs.handle g h hg, rfl⟩]
  · rw [List.getElem?_set_ne (Ne.symm hp), if_neg (fun hand => hp hand.right)]

theorem finish_rooted (hs : EnvironmentsRooted s) (g : ℕ) :
    EnvironmentsRooted (spawnStep s (.finish g)) := by
  cases hg : s.handles g with
  | none =>
    rw [spawnStep, shadowStep, hg]
    exact hs
  | some h =>
    have hhandles : (spawnStep s (.finish g)).handles = Function.update s.handles g none := by
      rw [spawnStep, shadowStep, hg]
    rw [rooted_iff, hhandles]
    intro g' h' hg'
    by_cases heq : g' = g
    · rw [heq, Function.update_self] at hg'
      cases hg'
    · rw [Function.update_of_ne heq] at hg'
      have hroot := hs.handle g' h' hg'
      rw [finish_clears hs hg, if_neg, hroot]
      rintro ⟨hsame, -⟩
      rw [hroot] at hsame
      cases hsame
      exact heq rfl

theorem spawnStep_rooted (hs : EnvironmentsRooted s) (op : ShadowOp) (hop : KeepsHandles s op) :
    EnvironmentsRooted (spawnStep s op) := by
  cases op with
  | call t isMain => exact call_rooted hs hop
  | push t => exact push_rooted hs t
  | ret t => exact ret_rooted hs hop
  | spawn g env => exact spawn_rooted hs g env
  | finish g => exact finish_rooted hs g

theorem spawnStep_breaks (op : ShadowOp) (hop : ¬KeepsHandles s op) :
    ¬EnvironmentsRooted (spawnStep s op) := by
  cases op with
  | call t isMain =>
    simp only [KeepsHandles, Classical.not_imp, not_forall] at hop
    obtain ⟨rfl, g, hg⟩ := hop
    obtain ⟨h, hh⟩ := Option.ne_none_iff_exists'.1 hg
    intro hrooted
    have hroot := hrooted.handle g h hh
    cases hroot
  | ret t =>
    rw [KeepsHandles] at hop
    cases hframes : s.frames t with
    | nil =>
      rw [hframes] at hop
      exact absurd trivial hop
    | cons f rest =>
      rw [hframes] at hop
      simp only [Classical.not_imp, not_forall] at hop
      obtain ⟨hmark, g, h, hg, hhigh⟩ := hop
      obtain ⟨hroots, hhandles⟩ := ret_roots hframes
      intro hrooted
      have hroot := hrooted.handle g h (by rw [hhandles]; exact hg)
      rw [hroots, rewind, if_pos hmark, List.getElem?_take, if_neg hhigh] at hroot
      cases hroot
  | _ => exact absurd trivial hop

theorem initShadow_rooted : EnvironmentsRooted initShadow :=
  rooted_iff.2 (fun g h hg => by cases hg)

end Roots

/-- The environments of spawned threads stay rooted throughout a run, and every handle that is
    dropped is that of its own slot, exactly when no return rewinds below the handle of a thread that
    has not finished. -/
theorem spawn_roots_kept_iff (ops : List ShadowOp) :
    Always spawnStep EnvironmentsRooted initShadow ops ↔
      EachStep spawnStep KeepsHandles initShadow ops :=
  always_iff_eachStep (I := EnvironmentsRooted) (fun _ h => h)
    (fun _ op h => spawnStep_rooted h op) (fun _ op _ => spawnStep_breaks op) ops initShadow_rooted

/-- A function spawns a closure and returns: nothing keeps the environment reachable any more. A slot
    that another function pushes then is the one that the handle drops. -/
theorem spawning_frame_returns :
    ¬Always spawnStep EnvironmentsRooted initShadow [.call 1 false, .spawn 7 true, .ret 1] ∧
      ([.call 1 false, .spawn 7 true, .ret 1, .call 1 false, .push 1].foldl spawnStep
        initShadow).roots = [.slot 1 0] ∧
      ([.call 1 false, .spawn 7 true, .ret 1, .call 1 false, .push 1, .finish 7].foldl spawnStep
        initShadow).roots = [.dropped] := by
  refine ⟨?_, by decide, by decide⟩
  rintro ⟨-, -, -, hrooted⟩
  have hreach := hrooted.reachable 7 (by decide) ⟨fun _ => 5, fun _ _ => none, fun _ _ => False⟩
  have hnone : (spawnStep (spawnStep (spawnStep initShadow (.call 1 false)) (.spawn 7 true))
      (.ret 1)).roots = [] := by decide
  refine not_reachable_of_no_root ?_ hreach
  rintro b ⟨r, hr, -⟩
  rw [hnone] at hr
  cases hr

end NewClLang.SpawnRoots
