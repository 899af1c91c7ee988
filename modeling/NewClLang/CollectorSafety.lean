import NewClLang.CollectorMachine
import NewClLang.TransitionRuns

set_option autoImplicit false

/-!
# What a run can reach

Code gets at a block only through words that it holds and through the blocks they lead to, so what
a run accesses was within its reach at each earlier allocation, or has been allocated since.
-/
namespace NewClLang.CollectorSafety
open Reachability CollectorMachine TransitionRuns

def Inside (S : Set ℕ) (v : Value) : Prop := ∀ b, some b ∈ v → b ∈ S

structure FrameInside (S : Set ℕ) (f : Frame) : Prop where
  slots : ∀ slot ∈ f.slots, Inside S slot.rooted ∧ Inside S slot.unrooted
  temps : ∀ v ∈ f.temps, Inside S v
  iterables : ∀ v ∈ f.iterables, Inside S v

def HeapInside (S : Set ℕ) (heap : Heap) : Prop :=
  ∀ a ∈ S, ∀ content, heap[a]? = some content → Inside S content

structure StateInside (S : Set ℕ) (s : State) : Prop where
  frames : ∀ f ∈ s.frames, FrameInside S f
  heap : HeapInside S s.heap

section Values
variable {S : Set ℕ} {v : Value}

theorem inside_nil : Inside S [] := fun _ h => absurd h List.not_mem_nil

theorem Inside.of_subset {v' : Value} (h : Inside S v) (hsub : v' ⊆ v) : Inside S v' :=
  fun b hb => h b (hsub hb)

theorem Inside.append {v' : Value} (h : Inside S v) (h' : Inside S v') : Inside S (v ++ v') := by
  intro b hb
  exact (List.mem_append.mp hb).elim (h b) (h' b)

theorem inside_flatten {vs : List Value} (h : ∀ v ∈ vs, Inside S v) : Inside S vs.flatten := by
  intro b hb
  obtain ⟨v, hv, hbv⟩ := List.mem_flatten.mp hb
  exact h v hv b hbv

theorem pick_subset (mask : List Bool) (v : Value) : pick mask v ⊆ v := by
  induction mask generalizing v with
  | nil =>
    cases v with
    | nil => exact List.Subset.refl _
    | cons w v => exact List.nil_subset _
  | cons keep mask ih =>
    cases v with
    | nil =>
      cases keep with
      | true => exact List.nil_subset _
      | false => exact List.nil_subset _
    | cons w v =>
      cases keep with
      | true => exact List.cons_subset_cons w (ih v)
      | false => exact List.Subset.trans (ih v) (List.subset_cons_self w v)

theorem rest_subset (mask : List Bool) (v : Value) : rest mask v ⊆ v := by
  induction mask generalizing v with
  | nil =>
    cases v with
    | nil => exact List.Subset.refl _
    | cons w v => exact List.Subset.refl _
  | cons keep mask ih =>
    cases v with
    | nil =>
      cases keep with
      | true => exact List.nil_subset _
      | false => exact List.nil_subset _
    | cons w v =>
      cases keep with
      | true => exact List.Subset.trans (ih v) (List.subset_cons_self w v)
      | false => exact List.cons_subset_cons w (ih v)

theorem Inside.pick (h : Inside S v) (mask : List Bool) : Inside S (pick mask v) :=
  h.of_subset (pick_subset mask v)

theorem Inside.toSlot (h : Inside S v) (mask : List Bool) :
    Inside S (toSlot mask v).rooted ∧ Inside S (toSlot mask v).unrooted :=
  ⟨h.of_subset (pick_subset mask v), h.of_subset (rest_subset mask v)⟩

theorem inside_toSlots {vs : List Value} (h : ∀ v ∈ vs, Inside S v) (masks : List (List Bool)) :
    ∀ slot ∈ toSlots masks vs, Inside S slot.rooted ∧ Inside S slot.unrooted := by
  induction vs generalizing masks with
  | nil => exact fun slot hslot => absurd hslot List.not_mem_nil
  | cons v vs ih =>
    intro slot hslot
    cases List.mem_cons.mp hslot with
    | inl heq =>
      rw [heq]
      exact (h v List.mem_cons_self).toSlot _
    | inr hmem => exact ih (fun v hv => h v (List.mem_cons_of_mem _ hv)) _ slot hmem

theorem wordAt_mem {i b : ℕ} (h : wordAt i v = some b) : some b ∈ v := by
  rw [wordAt, Option.join_eq_some_iff] at h
  exact List.mem_of_getElem? h

theorem Inside.readBlock (h : Inside S v) (i : ℕ) : ∀ b ∈ readBlock (wordAt i v), b ∈ S := by
  intro b hb
  exact h b (wordAt_mem (Option.mem_toList.mp hb))

theorem Inside.headD {vs : List Value} (h : ∀ v ∈ vs, Inside S v) : Inside S (vs.headD []) := by
  cases vs with
  | nil => exact inside_nil
  | cons v vs => exact h v List.mem_cons_self

end Values

section Heaps
variable {S : Set ℕ} {heap : Heap}

theorem HeapInside.contentOf (h : HeapInside S heap) {w : Word} (hw : ∀ b, w = some b → b ∈ S) :
    Inside S (contentOf heap w) := by
  cases w with
  | none => exact inside_nil
  | some a =>
    rw [CollectorMachine.contentOf, Option.bind_some]
    cases hcontent : heap[a]? with
    | none => exact inside_nil
    | some content => exact h a (hw a rfl) content hcontent

theorem HeapInside.fetched (h : HeapInside S heap) {v : Value} (hv : Inside S v) (i : ℕ) :
    Inside S (CollectorMachine.contentOf heap (wordAt i v)) :=
  h.contentOf (fun b hb => hv b (wordAt_mem hb))

theorem HeapInside.overwrite (h : HeapInside S heap) {v : Value} (hv : Inside S v) (w : Word)
    (mask : List Bool) : HeapInside S (overwrite heap w mask v) := by
  cases w with
  | none => exact h
  | some b =>
    intro a ha content hcontent
    rw [CollectorMachine.overwrite] at hcontent
    rw [List.getElem?_modify] at hcontent
    cases hold : heap[a]? with
    | none =>
      rw [hold] at hcontent
      cases hcontent
    | some old =>
      rw [hold] at hcontent
      have hinside := h a ha old hold
      rw [← Option.some.inj hcontent]
      change Inside S (if b = a then pick mask old ++ v else old)
      by_cases hab : b = a
      · rw [if_pos hab]
        exact (hinside.pick mask).append hv
      · rw [if_neg hab]
        exact hinside

theorem length_overwrite (w : Word) (mask : List Bool) (v : Value) :
    (overwrite heap w mask v).length = heap.length := by
  cases w with
  | none => rfl
  | some b => exact List.length_modify _ _ _

theorem HeapInside.grow (h : HeapInside S heap) : HeapInside S (heap ++ [[]]) := by
  intro a ha content hcontent
  rw [List.getElem?_append] at hcontent
  by_cases hlt : a < heap.length
  · rw [if_pos hlt] at hcontent
    exact h a ha content hcontent
  · rw [if_neg hlt] at hcontent
    have hmem := List.mem_of_getElem? hcontent
    rw [List.mem_singleton.mp hmem]
    exact inside_nil

end Heaps

section Frames
variable {S : Set ℕ} {f : Frame}

theorem FrameInside.temp (h : FrameInside S f) (depth : ℕ) : Inside S (f.temp depth) := by
  rw [Frame.temp, List.getD_eq_getElem?_getD]
  cases htemp : f.temps[depth]? with
  | none => exact inside_nil
  | some v => exact h.temps v (List.mem_of_getElem? htemp)

theorem FrameInside.taken (h : FrameInside S f) (n : ℕ) : ∀ v ∈ f.temps.take n, Inside S v :=
  fun v hv => h.temps v (List.mem_of_mem_take hv)

theorem FrameInside.slot (h : FrameInside S f) (i : ℕ) : Inside S (f.slot i) := by
  rw [Frame.slot, List.getD_eq_getElem?_getD]
  cases hslot : f.slots[i]? with
  | none => exact inside_nil
  | some slot =>
    have hinside := h.slots slot (List.mem_of_getElem? hslot)
    exact hinside.1.append hinside.2

theorem FrameInside.assign (h : FrameInside S f) {v : Value} (hv : Inside S v) (i : ℕ)
    (mask : List Bool) : FrameInside S (Frame.assign i (toSlot mask v) f) where
  slots := by
    intro slot hslot
    cases List.mem_or_eq_of_mem_set hslot with
    | inl hmem => exact h.slots slot hmem
    | inr heq =>
      rw [heq]
      exact hv.toSlot mask
  temps := h.temps
  iterables := h.iterables

theorem FrameInside.withTemps (h : FrameInside S f) {temps : List Value} {code : List Instr}
    (htemps : ∀ v ∈ temps, Inside S v) : FrameInside S { f with temps := temps, code := code } where
  slots := h.slots
  temps := htemps
  iterables := h.iterables

theorem FrameInside.push (h : FrameInside S f) (code : List Instr) {v : Value} {vs : List Value}
    (hv : Inside S v) (hsub : vs ⊆ f.temps) :
    FrameInside S { f with temps := v :: vs, code := code } := by
  apply h.withTemps
  intro v' hv'
  cases List.mem_cons.mp hv' with
  | inl heq =>
    rw [heq]
    exact hv
  | inr hmem => exact h.temps v' (hsub hmem)

theorem FrameInside.pop (h : FrameInside S f) (code : List Instr) {vs : List Value}
    (hsub : vs ⊆ f.temps) : FrameInside S { f with temps := vs, code := code } :=
  h.withTemps (fun v hv => h.temps v (hsub hv))

theorem FrameInside.goto (h : FrameInside S f) (code : List Instr) :
    FrameInside S { f with code := code } :=
  h.pop code (List.Subset.refl _)

theorem FrameInside.afterBreak (h : FrameInside S f) : FrameInside S (afterBreak f) := by
  rw [CollectorMachine.afterBreak]
  split
  · exact {
      slots := h.slots
      temps := fun v hv => h.temps v (List.mem_of_mem_drop hv)
      iterables := fun v hv => h.iterables v (List.mem_of_mem_drop hv) }
  · exact h.goto []

end Frames

section Instructions
variable {S : Set ℕ} {f : Frame} {heap : Heap}

theorem runLocal_inside (i : Instr) (c : Choice) (hf : FrameInside S f) (hheap : HeapInside S heap)
    (hfresh : heap.length ∈ S) :
    FrameInside S (runLocal i c f heap).frame ∧ HeapInside S (runLocal i c f heap).heap := by
  have hself := List.Subset.refl f.temps
  have htail := (List.tail_sublist f.temps).subset
  cases i with
  | literal => exact ⟨hf.push _ inside_nil hself, hheap⟩
  | load => exact ⟨hf, hheap⟩
  | declare =>
    have hslots : ∀ slot ∈ (⟨[], []⟩ : Slot) :: f.slots,
        Inside S slot.rooted ∧ Inside S slot.unrooted :=
      List.forall_mem_cons.mpr ⟨⟨inside_nil, inside_nil⟩, hf.slots⟩
    exact ⟨⟨hslots, hf.temps, hf.iterables⟩, hheap⟩
  | store => exact ⟨hf, hheap⟩
  | drop => exact ⟨hf.pop _ htail, hheap⟩
  | alloc =>
    have hnew : Inside S [some heap.length] := by
      intro b hb
      rw [Option.some.inj (List.mem_singleton.mp hb)]
      exact hfresh
    exact ⟨hf.push _ hnew hself, hheap.grow⟩
  | read depth => exact ⟨hf, hheap⟩
  | probe depth => exact ⟨hf, hheap⟩
  | fetch =>
    have hcontent := hheap.fetched (hf.temp 0) c.index
    exact ⟨hf.push _ (hcontent.pick c.mask) htail, hheap⟩
  | write src dst => exact ⟨hf, hheap.overwrite (hf.temp src) _ c.mask⟩
  | copy src dst =>
    have hcontent := hheap.fetched (hf.temp src) 0
    exact ⟨hf, hheap.overwrite hcontent _ c.mask⟩
  | combine n =>
    exact ⟨hf.push _ ((inside_flatten (hf.taken n)).pick c.mask) (List.drop_subset n f.temps), hheap⟩
  | result n => exact ⟨hf.push _ (hf.temp 0) (List.drop_subset (n + 1) f.temps), hheap⟩
  | branch alternatives => exact ⟨hf.goto _, hheap⟩
  | loop head body => exact ⟨hf.goto _, hheap⟩
  | again head body => exact ⟨hf.goto _, hheap⟩
  | turn head body =>
    rw [runLocal]
    split
    · exact ⟨hf.pop _ htail, hheap⟩
    · exact ⟨hf.pop _ htail, hheap⟩
  | loopEnd temps iterables => exact ⟨hf, hheap⟩
  | breakLoop => exact ⟨hf.afterBreak, hheap⟩
  | beginIteration =>
    have hiterables : ∀ v ∈ f.temp 0 :: f.iterables, Inside S v :=
      List.forall_mem_cons.mpr ⟨hf.temp 0, hf.iterables⟩
    exact ⟨⟨hf.slots, fun v hv => hf.temps v (htail hv), hiterables⟩, hheap⟩
  | iterate =>
    have hcontent := hheap.fetched (Inside.headD hf.iterables) 0
    exact ⟨hf.push _ (hcontent.pick c.mask) hself, hheap⟩
  | endIteration =>
    exact ⟨⟨hf.slots, hf.temps, fun v hv => hf.iterables v (List.mem_of_mem_tail hv)⟩, hheap⟩
  | call n => exact ⟨hf, hheap⟩
  | ret => exact ⟨hf, hheap⟩
  | stop => exact ⟨hf.goto [], hheap⟩

theorem runLocal_accessed (i : Instr) (c : Choice) (hf : FrameInside S f)
    (hheap : HeapInside S heap) : ∀ b ∈ (runLocal i c f heap).accessed, b ∈ S := by
  have hnone : ∀ b ∈ ([] : List ℕ), b ∈ S := fun b hb => absurd hb List.not_mem_nil
  cases i with
  | read depth => exact (hf.temp depth).readBlock c.index
  | probe depth =>
    intro b hb
    cases List.mem_append.mp hb with
    | inl htable => exact (hf.temp depth).readBlock 0 b htable
    | inr hkey =>
      obtain ⟨w, hw, heq⟩ := List.mem_filterMap.mp hkey
      rw [id] at heq
      rw [heq] at hw
      exact (hheap.fetched (hf.temp depth) 0).pick c.mask b hw
  | fetch => exact (hf.temp 0).readBlock c.index
  | write src dst => exact (hf.temp dst).readBlock 0
  | copy src dst =>
    intro b hb
    exact (List.mem_append.mp hb).elim ((hf.temp src).readBlock 0 b)
      ((hf.temp dst).readBlock 0 b)
  | iterate => exact (Inside.headD hf.iterables).readBlock 0
  | turn head body =>
    rw [runLocal]
    split
    · exact hnone
    · exact hnone
  | _ => exact hnone

theorem runLocal_grows (i : Instr) (c : Choice) :
    heap.length ≤ (runLocal i c f heap).heap.length := by
  have hself := Nat.le_refl heap.length
  cases i with
  | alloc =>
    change heap.length ≤ (heap ++ [[]]).length
    rw [List.length_append]
    omega
  | write src dst => exact Nat.le_of_eq (length_overwrite _ _ _).symm
  | copy src dst => exact Nat.le_of_eq (length_overwrite _ _ _).symm
  | turn head body =>
    rw [runLocal]
    split
    · exact hself
    · exact hself
  | _ => exact hself

end Instructions

section Steps
variable {S : Set ℕ} {program : List (List Instr)} {s : State}

theorem mem_modify {α : Type} {l : List α} {i : ℕ} {g : α → α} {x : α} (h : x ∈ l.modify i g) :
    x ∈ l ∨ ∃ y ∈ l, x = g y := by
  obtain ⟨j, hj⟩ := List.mem_iff_getElem?.mp h
  rw [List.getElem?_modify] at hj
  cases hy : l[j]? with
  | none =>
    rw [hy] at hj
    cases hj
  | some y =>
    rw [hy] at hj
    have hmem := List.mem_of_getElem? hy
    have heq : (if i = j then g y else y) = x := Option.some.inj hj
    by_cases hij : i = j
    · rw [if_pos hij] at heq
      exact Or.inr ⟨y, hmem, heq.symm⟩
    · rw [if_neg hij] at heq
      rw [← heq]
      exact Or.inl hmem

theorem inside_enter {vs : List Value} (h : ∀ v ∈ vs, Inside S v) (code : List Instr)
    (masks : List (List Bool)) : FrameInside S (enter code masks vs) where
  slots := by
    intro slot hslot
    cases List.mem_append.mp hslot with
    | inl hmem => exact inside_toSlots h masks slot hmem
    | inr hmem =>
      rw [List.mem_singleton.mp hmem]
      exact ⟨inside_nil, inside_nil⟩
  temps := fun v hv => absurd hv List.not_mem_nil
  iterables := fun v hv => absurd hv List.not_mem_nil

/-- What a step does: it holds only what it held, what that leads to and what it allocates,
    accesses only that, and takes a snapshot when it allocates. -/
structure Tame (s s' : State) : Prop where
  inside : ∀ S : Set ℕ, s.heap.length ∈ S → StateInside S s → StateInside S s'
  grows : s.heap.length ≤ s'.heap.length
  events : ∃ new, s'.trace = new ++ s.trace ∧
    (∀ b, .access b ∈ new → ∀ S : Set ℕ, StateInside S s → b ∈ S) ∧
    ∀ before, .alloc before ∈ new → before = s.snapshot ∧ allocates s = true

theorem tame_refl (s : State) : Tame s s where
  inside := fun _ _ h => h
  grows := Nat.le_refl _
  events := ⟨[], rfl, fun _ h => absurd h List.not_mem_nil, fun _ h => absurd h List.not_mem_nil⟩

theorem tame_frames {frames : List Frame}
    (h : ∀ S : Set ℕ, StateInside S s → ∀ f ∈ frames, FrameInside S f) :
    Tame s { s with frames := frames } where
  inside := fun S _ hs => ⟨h S hs, hs.heap⟩
  grows := Nat.le_refl _
  events := ⟨[], rfl, fun _ h => absurd h List.not_mem_nil, fun _ h => absurd h List.not_mem_nil⟩

theorem StateInside.slot (h : StateInside S s) (c : Choice) : Inside S (s.slot c) := by
  rw [State.slot]
  cases hframe : s.frames[c.frame]? with
  | none => exact inside_nil
  | some f => exact (h.frames f (List.mem_of_getElem? hframe)).slot c.index

theorem tame_local {f : Frame} {callers : List Frame} (hframes : s.frames = f :: callers)
    (i : Instr) (c : Choice) (code : List Instr) :
    Tame s
      { frames := (runLocal i c { f with code := code } s.heap).frame :: callers
        heap := (runLocal i c { f with code := code } s.heap).heap
        trace := (runLocal i c { f with code := code } s.heap).accessed.map Event.access ++
          (if allocates s then [.alloc s.snapshot] else []) ++ s.trace } where
  inside := by
    intro S hfresh hs
    have hall := hs.frames
    rw [hframes, List.forall_mem_cons] at hall
    have hlocal := runLocal_inside i c (hall.1.goto code) hs.heap hfresh
    exact ⟨List.forall_mem_cons.mpr ⟨hlocal.1, hall.2⟩, hlocal.2⟩
  grows := runLocal_grows i c
  events := by
    refine ⟨_, rfl, ?_, ?_⟩
    · intro b hb S hs
      have hall := hs.frames
      rw [hframes, List.forall_mem_cons] at hall
      cases List.mem_append.mp hb with
      | inl hmem =>
        obtain ⟨b', hb', heq⟩ := List.mem_map.mp hmem
        rw [← Event.access.inj heq]
        exact runLocal_accessed i c (hall.1.goto code) hs.heap b' hb'
      | inr hmem =>
        split at hmem
        · cases List.mem_singleton.mp hmem
        · exact absurd hmem List.not_mem_nil
    · intro before hbefore
      cases List.mem_append.mp hbefore with
      | inl hmem =>
        obtain ⟨b', _, heq⟩ := List.mem_map.mp hmem
        cases heq
      | inr hmem =>
        by_cases halloc : allocates s = true
        · rw [if_pos halloc] at hmem
          exact ⟨Event.alloc.inj (List.mem_singleton.mp hmem), halloc⟩
        · rw [if_neg halloc] at hmem
          exact absurd hmem List.not_mem_nil

theorem step_tame (program : List (List Instr)) (s : State) (c : Choice) :
    Tame s (step program s c) := by
  unfold step
  split
  · exact tame_refl s
  · rename_i f callers hframes
    have hall : ∀ S : Set ℕ, StateInside S s → FrameInside S f ∧ ∀ f' ∈ callers, FrameInside S f' := by
      intro S hs
      have h := hs.frames
      rw [hframes, List.forall_mem_cons] at h
      exact h
    split
    · exact tame_refl s
    · rename_i n code hcode
      split
      · exact tame_refl s
      · rename_i callee hcallee
        apply tame_frames
        intro S hs
        obtain ⟨hf, hcallers⟩ := hall S hs
        have hargs := inside_enter (hf.taken n) callee c.masks
        have hcaller := hf.pop code (List.drop_subset n f.temps)
        exact List.forall_mem_cons.mpr ⟨hargs, List.forall_mem_cons.mpr ⟨hcaller, hcallers⟩⟩
    · rename_i code hcode
      split
      · apply tame_frames
        exact fun S _ f' hf' => absurd hf' List.not_mem_nil
      · rename_i caller others
        apply tame_frames
        intro S hs
        obtain ⟨hf, hcallers⟩ := hall S hs
        rw [List.forall_mem_cons] at hcallers
        have hcaller := hcallers.1.push caller.code (hf.slot c.index)
          (List.Subset.refl _)
        exact List.forall_mem_cons.mpr ⟨hcaller, hcallers.2⟩
    · rename_i code hcode
      apply tame_frames
      intro S hs
      obtain ⟨hf, hcallers⟩ := hall S hs
      have hloaded := hf.push code (hs.slot c) (List.Subset.refl _)
      exact List.forall_mem_cons.mpr ⟨hloaded, hcallers⟩
    · rename_i code hcode
      apply tame_frames
      intro S hs f' hf'
      obtain ⟨hf, hcallers⟩ := hall S hs
      have hpopped := hf.pop code (List.tail_sublist f.temps).subset
      have hframes' := List.forall_mem_cons.mpr ⟨hpopped, hcallers⟩
      cases mem_modify hf' with
      | inl hmem => exact hframes' f' hmem
      | inr hassigned =>
        obtain ⟨g, hg, heq⟩ := hassigned
        rw [heq]
        exact (hframes' g hg).assign (hf.temp 0) c.index c.mask
    · rename_i i code hcode hcall hret hload hstore
      exact tame_local hframes i c code

end Steps

/-- What a run reads or writes was kept by every collection that an earlier allocation of the run
    could have started, unless it was allocated since. -/
def Retained : List Event → Prop
  | [] => True
  | .alloc _ :: past => Retained past
  | .access b :: past =>
      (∀ before, .alloc before ∈ past → b < before.heap.length → before.Retains b) ∧ Retained past

/-- Where the step allocates, the blocks that the temporaries of all frames point to are led to by
    registered slots. -/
def TemporariesKept (s : State) : Prop :=
  allocates s = true → ∀ b ∈ pointers s.temporaries, s.snapshot.Retains b

section Accessible
variable {s s' : State}

def Accessible (s : State) (b : ℕ) : Prop :=
  Reachable (pointsTo s.heap) (pointers (s.roots ++ s.temporaries)) b

theorem mem_pointers {f : Frame} (hf : f ∈ s.frames) {v : Value}
    (hv : v ∈ f.rooted ∨ v ∈ f.unrooted) {b : ℕ} (hb : some b ∈ v) :
    b ∈ pointers (s.roots ++ s.temporaries) := by
  refine ⟨v, List.mem_append.mpr ?_, hb⟩
  cases hv with
  | inl hrooted => exact Or.inl (List.mem_flatMap.mpr ⟨f, hf, hrooted⟩)
  | inr hunrooted => exact Or.inr (List.mem_flatMap.mpr ⟨f, hf, hunrooted⟩)

theorem accessible_inside (s : State) : StateInside {b | Accessible s b} s where
  frames := by
    intro f hf
    constructor
    case slots =>
      intro slot hslot
      constructor
      · intro b hb
        have hrooted : slot.rooted ∈ f.rooted := List.mem_map_of_mem hslot
        exact reachable_root (mem_pointers hf (Or.inl hrooted) hb)
      · intro b hb
        have hunrooted : slot.unrooted ∈ f.unrooted :=
          List.mem_append_left _ (List.mem_append_left _ (List.mem_map_of_mem hslot))
        exact reachable_root (mem_pointers hf (Or.inr hunrooted) hb)
    case temps =>
      intro v hv b hb
      have hunrooted : v ∈ f.unrooted := List.mem_append_left _ (List.mem_append_right _ hv)
      exact reachable_root (mem_pointers hf (Or.inr hunrooted) hb)
    case iterables =>
      intro v hv b hb
      have hunrooted : v ∈ f.unrooted := List.mem_append_right _ hv
      exact reachable_root (mem_pointers hf (Or.inr hunrooted) hb)
  heap := fun a ha content hcontent b hb => Reachable.step ha ⟨content, hcontent, hb⟩

theorem FrameInside.values {S : Set ℕ} {f : Frame} (h : FrameInside S f) {v : Value}
    (hv : v ∈ f.rooted ∨ v ∈ f.unrooted) : Inside S v := by
  cases hv with
  | inl hrooted =>
    obtain ⟨slot, hslot, heq⟩ := List.mem_map.mp hrooted
    rw [← heq]
    exact (h.slots slot hslot).1
  | inr hunrooted =>
    rw [Frame.unrooted, List.append_assoc, List.mem_append, List.mem_append] at hunrooted
    rcases hunrooted with hslots | htemps | hiterables
    · obtain ⟨slot, hslot, heq⟩ := List.mem_map.mp hslots
      rw [← heq]
      exact (h.slots slot hslot).2
    · exact h.temps v htemps
    · exact h.iterables v hiterables

theorem Accessible.mem {S : Set ℕ} {b : ℕ} (h : Accessible s b) (hs : StateInside S s) : b ∈ S := by
  apply h.mem_of_closed
  · intro r hr
    obtain ⟨v, hv, hrv⟩ := hr
    rw [List.mem_append] at hv
    cases hv with
    | inl hroots =>
      obtain ⟨f, hf, hvf⟩ := List.mem_flatMap.mp hroots
      exact (hs.frames f hf).values (Or.inl hvf) r hrv
    | inr htemporaries =>
      obtain ⟨f, hf, hvf⟩ := List.mem_flatMap.mp htemporaries
      exact (hs.frames f hf).values (Or.inr hvf) r hrv
  · intro a ha b hedge
    obtain ⟨content, hcontent, hb⟩ := hedge
    exact hs.heap a ha content hcontent b hb

theorem Tame.accessible (h : Tame s s') {b : ℕ} (hb : Accessible s' b) :
    Accessible s b ∨ s.heap.length ≤ b := by
  have hbefore := accessible_inside s
  have hinside : StateInside {b | Accessible s b ∨ s.heap.length ≤ b} s := by
    constructor
    case frames =>
      intro f hf
      have hframe := hbefore.frames f hf
      exact {
        slots := fun slot hslot => ⟨fun b hb => Or.inl ((hframe.slots slot hslot).1 b hb),
          fun b hb => Or.inl ((hframe.slots slot hslot).2 b hb)⟩
        temps := fun v hv b hb => Or.inl (hframe.temps v hv b hb)
        iterables := fun v hv b hb => Or.inl (hframe.iterables v hv b hb) }
    case heap =>
      intro a ha content hcontent b hb
      cases ha with
      | inl hacc => exact Or.inl (hbefore.heap a hacc content hcontent b hb)
      | inr hnew =>
        rw [List.getElem?_eq_none hnew] at hcontent
        cases hcontent
  exact hb.mem (h.inside _ (Or.inr (Nat.le_refl _)) hinside)

/-- With its temporaries kept, all that the run can get at is kept. -/
theorem TemporariesKept.retains (h : TemporariesKept s) (halloc : allocates s = true) {b : ℕ}
    (hb : Accessible s b) : s.snapshot.Retains b := by
  apply hb.of_roots
  intro r hr
  obtain ⟨v, hv, hrv⟩ := hr
  rw [List.mem_append] at hv
  cases hv with
  | inl hroots => exact reachable_root ⟨v, hroots, hrv⟩
  | inr htemporaries => exact h halloc r ⟨v, htemporaries, hrv⟩

end Accessible

section Runs
variable {s s' : State}

structure Guarded (s : State) : Prop where
  retained : Retained s.trace
  older : ∀ before, .alloc before ∈ s.trace → before.heap.length ≤ s.heap.length
  kept : ∀ before, .alloc before ∈ s.trace → ∀ b, Accessible s b → b < before.heap.length →
    before.Retains b

theorem retained_append {new past : List Event} (hpast : Retained past)
    (hnew : ∀ b, .access b ∈ new → ∀ before, .alloc before ∈ new ++ past →
      b < before.heap.length → before.Retains b) : Retained (new ++ past) := by
  induction new with
  | nil => exact hpast
  | cons e new ih =>
    have hrest := ih (fun b hb before hbefore =>
      hnew b (List.mem_cons_of_mem e hb) before (List.mem_cons_of_mem e hbefore))
    cases e with
    | alloc before => exact hrest
    | access b =>
      have hb := hnew b List.mem_cons_self
      exact ⟨fun before hbefore => hb before (List.mem_cons_of_mem _ hbefore), hrest⟩

theorem Guarded.step (h : Guarded s) (htame : Tame s s') (hkept : TemporariesKept s) :
    Guarded s' := by
  obtain ⟨new, htrace, haccess, halloc⟩ := htame.events
  have hall : ∀ before, .alloc before ∈ new ++ s.trace → ∀ b, Accessible s b →
      b < before.heap.length → before.Retains b := by
    intro before hbefore b hb hlt
    cases List.mem_append.mp hbefore with
    | inl hmem =>
      obtain ⟨heq, hallocates⟩ := halloc before hmem
      rw [heq]
      exact hkept.retains hallocates hb
    | inr hmem => exact h.kept before hmem b hb hlt
  have holder : ∀ before, .alloc before ∈ new ++ s.trace →
      before.heap.length ≤ s.heap.length := by
    intro before hbefore
    cases List.mem_append.mp hbefore with
    | inl hmem =>
      rw [(halloc before hmem).1]
      exact Nat.le_refl _
    | inr hmem => exact h.older before hmem
  constructor
  case retained =>
    rw [htrace]
    apply retained_append h.retained
    intro b hb before hbefore
    exact hall before hbefore b (haccess b hb _ (accessible_inside s))
  case older =>
    rw [htrace]
    exact fun before hbefore => Nat.le_trans (holder before hbefore) htame.grows
  case kept =>
    rw [htrace]
    intro before hbefore b hb hlt
    cases htame.accessible hb with
    | inl hacc => exact hall before hbefore b hacc hlt
    | inr hnew =>
      have hle := holder before hbefore
      omega

theorem guarded_start (f : Frame) : Guarded { frames := [f], heap := [], trace := [] } where
  retained := trivial
  older := fun _ h => absurd h List.not_mem_nil
  kept := fun _ h => absurd h List.not_mem_nil

/-- A run of any code that keeps its temporaries loses no block that it goes on to use. -/
theorem always_retained (program : List (List Instr)) (choices : List Choice) {s : State}
    (hs : Guarded s) (h : EachStep (step program) (fun s _ => TemporariesKept s) s choices) :
    Always (step program) (fun s => Retained s.trace) s choices :=
  h.always (fun _ hs => hs.retained) (fun s c hs hkept => hs.step (step_tame program s c) hkept) hs

end Runs

end NewClLang.CollectorSafety
