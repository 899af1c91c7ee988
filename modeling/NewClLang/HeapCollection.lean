import NewClLang.DepthFirstMarking
import Mathlib.Data.List.Pairwise
import Mathlib.Data.List.ReduceOption

set_option autoImplicit false

/-!
# The collector

`__nc_gc_do_collect` on any list of blocks: what is reachable from the registered slots is kept as
it is, and everything else is freed. A word that points anywhere into a block keeps it.
-/
namespace NewClLang.HeapCollection
open Reachability DepthFirstMarking

/-- A block of `__nc_gc_blocks`, without its link and its mark: where its payload is, and what is in
    it. -/
structure Block where
  payload : ℕ
  bytes : List UInt8
  deriving DecidableEq

namespace Block

def size (b : Block) : ℕ := b.bytes.length

/-- Whether an address is in the payload. -/
def holds (b : Block) (addr : ℕ) : Bool :=
  decide (b.payload ≤ addr ∧ addr < b.payload + b.size)

end Block

def wordOf (bytes : List UInt8) : ℕ := bytes.foldr (fun byte word => byte.toNat + 256 * word) 0

/-- The words that `__nc_gc_scan_block` reads: those at the offsets divisible by 8, as far as they
    are inside. -/
def Block.words (b : Block) : List ℕ :=
  (List.range (b.size / 8)).map (fun i => wordOf ((b.bytes.drop (8 * i)).take 8))

/-- The globals of the collector. A mark belongs to the block at its address, a root is null or a
    slot, given by the word in it. -/
structure Collector where
  blocks : List Block
  marked : ℕ → Bool
  liveCount : ℕ
  allocSinceCollect : ℕ
  roots : List (Option ℕ)

section Collect

def findBlock (blocks : List Block) (p : ℕ) : Option Block :=
  if p = 0 then none else blocks.find? (fun b => b.holds p)

def scanBlock (markPtr : (ℕ → Bool) → ℕ → Option (ℕ → Bool)) (b : Block) (marked : ℕ → Bool) :
    Option (ℕ → Bool) :=
  b.words.foldlM markPtr marked

/-- `__nc_gc_mark_ptr`, up to a depth of nested calls. -/
def markPtr (blocks : List Block) : ℕ → (ℕ → Bool) → ℕ → Option (ℕ → Bool)
  | 0, _, _ => none
  | n + 1, marked, p =>
      match findBlock blocks p with
      | none => some marked
      | some b =>
          if marked b.payload then some marked
          else scanBlock (markPtr blocks n) b (Function.update marked b.payload true)

/-- The loop over `__nc_gc_roots`. -/
def markRoots (blocks : List Block) (n : ℕ) : List (Option ℕ) → (ℕ → Bool) → Option (ℕ → Bool)
  | [], marked => some marked
  | none :: roots, marked => markRoots blocks n roots marked
  | some p :: roots, marked =>
      (markPtr blocks n marked p).bind (fun marked => markRoots blocks n roots marked)

structure Swept where
  blocks : List Block
  freed : List Block
  marked : ℕ → Bool
  liveCount : ℕ

def Swept.keep (b : Block) (s : Swept) : Swept := { s with blocks := b :: s.blocks }

def Swept.free (b : Block) (s : Swept) : Swept := { s with freed := b :: s.freed }

/-- The loop over the links, with the count so far. -/
def sweep : List Block → (ℕ → Bool) → ℕ → Swept
  | [], marked, live => ⟨[], [], marked, live⟩
  | b :: rest, marked, live =>
      if marked b.payload then
        (sweep rest (Function.update marked b.payload false) (live + 1)).keep b
      else (sweep rest marked live).free b

def Collector.afterSweep (s : Collector) (swept : Swept) : Collector where
  blocks := swept.blocks
  marked := swept.marked
  liveCount := swept.liveCount
  allocSinceCollect := 0
  roots := s.roots

/-- `__nc_gc_do_collect`, with the blocks that it frees. -/
def doCollect (n : ℕ) (s : Collector) : Option (Collector × List Block) :=
  (markRoots s.blocks n s.roots s.marked).map fun marked =>
    let swept := sweep s.blocks marked 0
    (s.afterSweep swept, swept.freed)

end Collect

/-- Two payloads that share no byte. -/
def Apart (a b : Block) : Prop := a.payload + a.size ≤ b.payload ∨ b.payload + b.size ≤ a.payload

/-- The collector between two calls. `calloc` places blocks apart from each other and never at
    address 0, `__nc_gc_alloc` asks for one byte at least, and no mark is set. -/
structure Heap extends Collector where
  placed : ∀ b ∈ blocks, 0 < b.payload ∧ 0 < b.size
  apart : blocks.Pairwise Apart
  clear : ∀ b ∈ blocks, marked b.payload = false

section Reach
variable (s : Collector)

def Collector.pointsTo (a b : Block) : Prop := b ∈ s.blocks ∧ ∃ w ∈ a.words, b.holds w = true

def Collector.rooted : Set Block := {b | b ∈ s.blocks ∧ ∃ w, some w ∈ s.roots ∧ b.holds w = true}

/-- What the collector has to keep. -/
def Collector.Reaches (b : Block) : Prop := Reachable s.pointsTo s.rooted b

end Reach

section Blocks
variable {blocks : List Block} {a b : Block} {p : ℕ}

theorem holds_iff : b.holds p = true ↔ b.payload ≤ p ∧ p < b.payload + b.size :=
  decide_eq_true_iff

theorem eq_of_holds (hapart : blocks.Pairwise Apart) (ha : a ∈ blocks) (hb : b ∈ blocks)
    (hpa : a.holds p = true) (hpb : b.holds p = true) : a = b := by
  rw [holds_iff] at hpa hpb
  by_contra hne
  have hsymm : Std.Symm Apart := ⟨fun _ _ h => h.symm⟩
  have h := hapart.forall ha hb hne
  rw [Apart] at h
  omega

theorem holds_payload (hsize : 0 < b.size) : b.holds b.payload = true := by
  rw [holds_iff]
  omega

theorem eq_of_payload (hapart : blocks.Pairwise Apart) (hsize : ∀ b ∈ blocks, 0 < b.size)
    (ha : a ∈ blocks) (hb : b ∈ blocks) (h : a.payload = b.payload) : a = b :=
  eq_of_holds hapart ha hb (holds_payload (hsize a ha)) (h ▸ holds_payload (hsize b hb))

theorem findBlock_some (h : findBlock blocks p = some b) : b ∈ blocks ∧ b.holds p = true := by
  rw [findBlock] at h
  by_cases hp : p = 0
  · rw [if_pos hp] at h
    cases h
  · rw [if_neg hp] at h
    have hholds := List.find?_some h
    exact ⟨List.mem_of_find?_eq_some h, hholds⟩

theorem findBlock_eq (hplaced : ∀ b ∈ blocks, 0 < b.payload) (hapart : blocks.Pairwise Apart)
    (hb : b ∈ blocks) (hp : b.holds p = true) : findBlock blocks p = some b := by
  have hpos : p ≠ 0 := by
    have hpayload := hplaced b hb
    rw [holds_iff] at hp
    omega
  rw [findBlock, if_neg hpos]
  have hsome : (blocks.find? (fun c => c.holds p)).isSome = true :=
    List.find?_isSome.2 ⟨b, hb, hp⟩
  obtain ⟨c, hc⟩ := Option.isSome_iff_exists.1 hsome
  have hholds := List.find?_some hc
  rw [hc, eq_of_holds hapart (List.mem_of_find?_eq_some hc) hb hholds hp]

end Blocks

section Marking
variable {blocks : List Block} {a b : Block} {p : ℕ}

/-- A block by its address. -/
def find (blocks : List Block) (p : ℕ) : Option ℕ := (findBlock blocks p).map Block.payload

def scan (blocks : List Block) (addr : ℕ) : List ℕ :=
  ((blocks.find? (fun b => b.payload == addr)).map Block.words).getD []

theorem scan_eq (hapart : blocks.Pairwise Apart) (hsize : ∀ b ∈ blocks, 0 < b.size)
    (hb : b ∈ blocks) : scan blocks b.payload = b.words := by
  have hsome : (blocks.find? (fun c => c.payload == b.payload)).isSome = true :=
    List.find?_isSome.2 ⟨b, hb, beq_self_eq_true b.payload⟩
  obtain ⟨c, hc⟩ := Option.isSome_iff_exists.1 hsome
  have hpayload := List.find?_some hc
  rw [beq_iff_eq] at hpayload
  rw [scan, hc, eq_of_payload hapart hsize (List.mem_of_find?_eq_some hc) hb hpayload]
  rfl

/-- `__nc_gc_mark_ptr` marks depth first. -/
theorem markPtr_eq (hapart : blocks.Pairwise Apart) (hsize : ∀ b ∈ blocks, 0 < b.size) (n : ℕ) :
    markPtr blocks n = markFrom (find blocks) (scan blocks) n := by
  induction n with
  | zero => rfl
  | succ n ih =>
    funext marked p
    cases hp : findBlock blocks p with
    | none =>
      have hfind : find blocks p = none := by rw [find, hp, Option.map_none]
      rw [markFrom_none n hfind, markPtr, hp]
    | some b =>
      have hfind : find blocks p = some b.payload := by rw [find, hp, Option.map_some]
      rw [markPtr, hp]
      dsimp only
      cases hmarked : marked b.payload with
      | true =>
        rw [markFrom_marked n hfind hmarked]
        rfl
      | false =>
        rw [markFrom_fresh n hfind hmarked, scan_eq hapart hsize (findBlock_some hp).left, scanBlock,
          ih]
        rfl

theorem markRoots_eq (hapart : blocks.Pairwise Apart) (hsize : ∀ b ∈ blocks, 0 < b.size) (n : ℕ)
    (roots : List (Option ℕ)) (marked : ℕ → Bool) :
    markRoots blocks n roots marked =
      markAll (find blocks) (scan blocks) n marked roots.reduceOption := by
  induction roots generalizing marked with
  | nil => rfl
  | cons root roots ih =>
    cases root with
    | none => exact ih marked
    | some p =>
      rw [List.reduceOption_cons_of_some, markAll_cons, markRoots, markPtr_eq hapart hsize]
      congr 1
      funext mid
      exact ih mid

end Marking

section Sweeping
variable {blocks : List Block} {marked : ℕ → Bool} {live : ℕ}

theorem sweep_marked (b : Block) (rest : List Block) (h : marked b.payload = true) :
    sweep (b :: rest) marked live =
      (sweep rest (Function.update marked b.payload false) (live + 1)).keep b := by
  rw [sweep, if_pos h]

theorem sweep_unmarked (b : Block) (rest : List Block) (h : marked b.payload = false) :
    sweep (b :: rest) marked live = (sweep rest marked live).free b := by
  rw [sweep, if_neg (by rw [h]; exact Bool.false_ne_true)]

/-- The sweep resets the marks that it finds and touches no others. -/
theorem sweep_marks (addr : ℕ) :
    (sweep blocks marked live).marked addr = true ↔
      marked addr = true ∧ ∀ b ∈ blocks, b.payload ≠ addr := by
  induction blocks generalizing marked live with
  | nil => exact (and_iff_left (fun b hb => absurd hb List.not_mem_nil)).symm
  | cons b rest ih =>
    rw [List.forall_mem_cons]
    cases h : marked b.payload with
    | true =>
      rw [sweep_marked b rest h]
      refine ih.trans ?_
      by_cases haddr : b.payload = addr
      · rw [haddr, Function.update_self]
        simp
      · rw [Function.update_of_ne (Ne.symm haddr)]
        simp [haddr]
    | false =>
      rw [sweep_unmarked b rest h]
      refine ih.trans ?_
      by_cases haddr : b.payload = addr
      · rw [← haddr, h]
        simp
      · simp [haddr]

/-- The sweep keeps the marked blocks in their order and frees the others. -/
theorem sweep_blocks (hdistinct : (blocks.map Block.payload).Nodup) :
    (sweep blocks marked live).blocks = blocks.filter (fun b => marked b.payload) ∧
      (sweep blocks marked live).freed = blocks.filter (fun b => !marked b.payload) := by
  induction blocks generalizing marked live with
  | nil => exact ⟨rfl, rfl⟩
  | cons b rest ih =>
    rw [List.map_cons, List.nodup_cons] at hdistinct
    obtain ⟨hfresh, hrest⟩ := hdistinct
    cases h : marked b.payload with
    | true =>
      have hother : ∀ c ∈ rest, Function.update marked b.payload false c.payload =
          marked c.payload := by
        intro c hc
        apply Function.update_of_ne
        intro heq
        exact hfresh (heq ▸ List.mem_map_of_mem hc)
      rw [sweep_marked b rest h, List.filter_cons, List.filter_cons, h, if_pos rfl, Bool.not_true,
        if_neg Bool.false_ne_true]
      constructor
      · rw [Swept.keep, (ih hrest).left, List.filter_congr hother]
      · rw [Swept.keep, (ih hrest).right]
        exact List.filter_congr (fun c hc => congrArg not (hother c hc))
    | false =>
      rw [sweep_unmarked b rest h, List.filter_cons, List.filter_cons, h,
        if_neg Bool.false_ne_true, Bool.not_false, if_pos rfl]
      constructor
      · rw [Swept.free, (ih hrest).left]
      · rw [Swept.free, (ih hrest).right]

theorem sweep_live :
    (sweep blocks marked live).liveCount = live + (sweep blocks marked live).blocks.length := by
  induction blocks generalizing marked live with
  | nil => rfl
  | cons b rest ih =>
    cases h : marked b.payload with
    | true =>
      rw [sweep_marked b rest h]
      change (sweep rest _ (live + 1)).liveCount = live + ((sweep rest _ (live + 1)).blocks.length + 1)
      rw [ih]
      omega
    | false =>
      rw [sweep_unmarked b rest h]
      exact ih

end Sweeping

section Correctness
variable (h : Heap)

theorem Heap.sized : ∀ b ∈ h.blocks, 0 < b.size := fun b hb => (h.placed b hb).right

theorem Heap.findBlock_iff {b : Block} {p : ℕ} :
    findBlock h.blocks p = some b ↔ b ∈ h.blocks ∧ b.holds p = true :=
  ⟨findBlock_some, fun hb => findBlock_eq (fun c hc => (h.placed c hc).left) h.apart hb.left hb.right⟩

theorem Heap.find_iff {b : Block} (hb : b ∈ h.blocks) {p : ℕ} :
    find h.blocks p = some b.payload ↔ b.holds p = true := by
  rw [find, Option.map_eq_some_iff]
  constructor
  · rintro ⟨c, hc, hpayload⟩
    obtain ⟨hmem, hholds⟩ := h.findBlock_iff.1 hc
    rwa [← eq_of_payload h.apart h.sized hmem hb hpayload]
  · exact fun hholds => ⟨b, h.findBlock_iff.2 ⟨hb, hholds⟩, rfl⟩

theorem Heap.find_mem {a p : ℕ} (ha : find h.blocks p = some a) :
    ∃ b ∈ h.blocks, b.payload = a ∧ b.holds p = true := by
  rw [find, Option.map_eq_some_iff] at ha
  obtain ⟨b, hb, hpayload⟩ := ha
  obtain ⟨hmem, hholds⟩ := h.findBlock_iff.1 hb
  exact ⟨b, hmem, hpayload, hholds⟩

/-- Between addresses there are the same paths as between blocks. -/
theorem Heap.reachable_iff {b : Block} (hb : b ∈ h.blocks) :
    Reachable (DepthFirstMarking.pointsTo (find h.blocks) (scan h.blocks))
      (named (find h.blocks) h.roots.reduceOption) b.payload ↔ h.Reaches b := by
  constructor
  · intro hreach
    have hall := Reachable.mem_of_closed
      (S := {a | ∃ c ∈ h.blocks, c.payload = a ∧ h.Reaches c}) hreach ?_ ?_
    · obtain ⟨c, hc, hpayload, hreaches⟩ := hall
      rwa [← eq_of_payload h.apart h.sized hc hb hpayload]
    · rintro a ⟨p, hp, ha⟩
      obtain ⟨c, hc, hpayload, hholds⟩ := h.find_mem ha
      exact ⟨c, hc, hpayload, reachable_root ⟨hc, p, List.reduceOption_mem_iff.1 hp, hholds⟩⟩
    · rintro a ⟨c, hc, rfl, hreaches⟩ a' ⟨p, hp, ha'⟩
      obtain ⟨d, hd, hpayload, hholds⟩ := h.find_mem ha'
      rw [scan_eq h.apart h.sized hc] at hp
      exact ⟨d, hd, hpayload, hreaches.step ⟨hd, p, hp, hholds⟩⟩
  · intro hreach
    have hall := Reachable.mem_of_closed
      (S := {c | c ∈ h.blocks ∧
        Reachable (DepthFirstMarking.pointsTo (find h.blocks) (scan h.blocks))
          (named (find h.blocks) h.roots.reduceOption) c.payload}) hreach ?_ ?_
    · exact hall.right
    · rintro c ⟨hc, p, hp, hholds⟩
      exact ⟨hc, reachable_root ⟨p, List.reduceOption_mem_iff.2 hp, (h.find_iff hc).2 hholds⟩⟩
    · rintro c ⟨hc, hreaches⟩ d ⟨hd, p, hp, hholds⟩
      refine ⟨hd, hreaches.step ⟨p, ?_, (h.find_iff hd).2 hholds⟩⟩
      rwa [scan_eq h.apart h.sized hc]

/-- With a depth greater than the number of blocks the marking ends, and marks what is reachable. -/
theorem Heap.markRoots_reaches :
    ∃ marked, (∀ n > h.blocks.length, markRoots h.blocks n h.roots h.marked = some marked) ∧
      ∀ b ∈ h.blocks, marked b.payload = true ↔ h.Reaches b := by
  let nodes := (h.blocks.map Block.payload).toFinset
  have hmem : ∀ a, a ∈ nodes ↔ ∃ b ∈ h.blocks, b.payload = a := by
    intro a
    rw [List.mem_toFinset, List.mem_map]
  have hfind : ∀ p a, find h.blocks p = some a → a ∈ nodes := by
    intro p a ha
    obtain ⟨b, hb, hpayload, -⟩ := h.find_mem ha
    exact (hmem a).2 ⟨b, hb, hpayload⟩
  have hclear : ∀ a ∈ nodes, h.marked a = false := by
    intro a ha
    obtain ⟨b, hb, rfl⟩ := (hmem a).1 ha
    exact h.clear b hb
  have hcard : nodes.card < h.blocks.length + 1 := by
    have hle := List.toFinset_card_le (h.blocks.map Block.payload)
    rw [List.length_map] at hle
    exact Nat.lt_succ_of_le hle
  obtain ⟨marked, hmarked, hiff⟩ :=
    markAll_reachable hfind hcard hclear h.roots.reduceOption
  refine ⟨marked, fun n hn => ?_, fun b hb => ?_⟩
  · rw [markRoots_eq h.apart h.sized]
    exact markAll_more (markFrom_more hn) hmarked
  · exact (hiff b.payload ((hmem b.payload).2 ⟨b, hb, rfl⟩)).trans (h.reachable_iff hb)

theorem Heap.distinct : (h.blocks.map Block.payload).Nodup := by
  rw [List.Nodup, List.pairwise_map]
  refine h.apart.imp_of_mem (fun {a b} ha hb hapart heq => ?_)
  have hsize := h.sized a ha
  have hsize' := h.sized b hb
  rw [Apart] at hapart
  omega

/-- A collection ends, and sweeps with the marks of what is reachable. -/
theorem Heap.doCollect_run :
    ∃ marked, (∀ n > h.blocks.length, doCollect n h.toCollector =
        some (h.afterSweep (sweep h.blocks marked 0), (sweep h.blocks marked 0).freed)) ∧
      ∀ b ∈ h.blocks, marked b.payload = true ↔ h.Reaches b := by
  obtain ⟨marked, hrun, hmarked⟩ := h.markRoots_reaches
  refine ⟨marked, fun n hn => ?_, hmarked⟩
  rw [doCollect, hrun n hn, Option.map_some]

theorem Heap.sweep_clear {marked : ℕ → Bool} {b : Block} (hb : b ∈ h.blocks) :
    (sweep h.blocks marked 0).marked b.payload = false := by
  rw [← Bool.not_eq_true]
  exact fun hmark => ((sweep_marks b.payload).1 hmark).right b hb rfl

open Classical in
/-- The collector ends, frees the blocks that are not reachable, and leaves the others as they were,
    with no mark set and counted. -/
theorem collection_correct :
    ∃ after : Collector, (∀ n > h.blocks.length,
        doCollect n h.toCollector =
          some (after, h.blocks.filter (fun b => decide (¬h.Reaches b)))) ∧
      after.blocks = h.blocks.filter (fun b => decide (h.Reaches b)) ∧
      (∀ b ∈ h.blocks, after.marked b.payload = false) ∧
      after.liveCount = after.blocks.length ∧
      after.roots = h.roots := by
  obtain ⟨marked, hrun, hmarked⟩ := h.doCollect_run
  obtain ⟨hkept, hfreed⟩ :
      (sweep h.blocks marked 0).blocks = h.blocks.filter (fun b => marked b.payload) ∧
      (sweep h.blocks marked 0).freed = h.blocks.filter (fun b => !marked b.payload) :=
    sweep_blocks h.distinct
  have hreaches : ∀ b ∈ h.blocks, marked b.payload = decide (h.Reaches b) := by
    intro b hb
    rw [Bool.eq_iff_iff, decide_eq_true_iff]
    exact hmarked b hb
  refine ⟨h.afterSweep (sweep h.blocks marked 0), fun n hn => ?_, ?_, fun b hb => ?_, ?_, rfl⟩
  · rw [hrun n hn, hfreed]
    congr 2
    exact List.filter_congr (fun b hb => by rw [hreaches b hb, decide_not])
  · exact hkept.trans (List.filter_congr hreaches)
  · exact h.sweep_clear hb
  · exact sweep_live.trans (Nat.zero_add _)

end Correctness

section Operations

/-- `__nc_gc_init` -/
def emptyHeap : Heap where
  blocks := []
  marked _ := false
  liveCount := 0
  allocSinceCollect := 0
  roots := []
  placed _ hb := absurd hb List.not_mem_nil
  apart := List.Pairwise.nil
  clear _ hb := absurd hb List.not_mem_nil

/-- The end of `__nc_gc_alloc`, where `calloc` has found a place for the block. -/
def Heap.alloc (h : Heap) (payload sz : ℕ) (hpayload : 0 < payload)
    (hapart : ∀ b ∈ h.blocks, Apart ⟨payload, List.replicate (max sz 1) 0⟩ b) : Heap where
  blocks := ⟨payload, List.replicate (max sz 1) 0⟩ :: h.blocks
  marked := Function.update h.marked payload false
  liveCount := h.liveCount + 1
  allocSinceCollect := h.allocSinceCollect + max sz 1
  roots := h.roots
  placed := by
    refine List.forall_mem_cons.2 ⟨⟨hpayload, ?_⟩, h.placed⟩
    rw [Block.size, List.length_replicate]
    exact Nat.lt_of_lt_of_le Nat.one_pos (Nat.le_max_right sz 1)
  apart := List.Pairwise.cons hapart h.apart
  clear := by
    refine List.forall_mem_cons.2 ⟨Function.update_self .., fun b hb => ?_⟩
    by_cases heq : b.payload = payload
    · rw [heq, Function.update_self]
    · rw [Function.update_of_ne heq]
      exact h.clear b hb

/-- What a program does to the blocks and the slots: it changes words, and registers slots. -/
def Heap.write (h : Heap) (content : Block → List UInt8)
    (hlength : ∀ b, (content b).length = b.size) (roots : List (Option ℕ)) : Heap where
  blocks := h.blocks.map (fun b => { b with bytes := content b })
  marked := h.marked
  liveCount := h.liveCount
  allocSinceCollect := h.allocSinceCollect
  roots := roots
  placed := by
    refine List.forall_mem_map.2 (fun b hb => ?_)
    rw [Block.size, hlength]
    exact h.placed b hb
  apart := by
    rw [List.pairwise_map]
    refine h.apart.imp (fun {a b} hapart => ?_)
    rw [Apart, Block.size, Block.size, hlength, hlength]
    exact hapart
  clear := List.forall_mem_map.2 h.clear

/-- A collection leaves the heap in order for the next. -/
theorem collected_heap (h : Heap) {n : ℕ} (hn : h.blocks.length < n) {after : Collector}
    {freed : List Block} (hrun : doCollect n h.toCollector = some (after, freed)) :
    ∃ h' : Heap, h'.toCollector = after := by
  obtain ⟨marked, hcollect, -⟩ := h.doCollect_run
  rw [hcollect n hn] at hrun
  cases hrun
  have hsub : (sweep h.blocks marked 0).blocks.Sublist h.blocks := by
    rw [(sweep_blocks h.distinct).left]
    exact List.filter_sublist
  exact ⟨⟨h.afterSweep (sweep h.blocks marked 0), fun b hb => h.placed b (hsub.subset hb),
    h.apart.sublist hsub, fun b hb => h.sweep_clear (hsub.subset hb)⟩, rfl⟩

end Operations

end NewClLang.HeapCollection
