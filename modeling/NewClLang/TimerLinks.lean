import NewClLang.SchedulerModel

set_option autoImplicit false

/-!
# The list of timers in memory

`__nc_sleep` and `wake_expired_timers` of `runtime/ncrt.c` on the nodes of the list: the insertion
goes from link to link, and the removal frees the first node. On the list that the nodes make up they
are `insertTimer` and `wakeTimers`.
-/
namespace NewClLang.TimerLinks
open SchedulerModel

section Model

/-- `nc_timer`. -/
structure TimerNode where
  deadline : ℕ
  g : ℕ
  next : Option ℕ

/-- `timer_head` and the nodes that are allocated. -/
structure TimerHeap where
  head : Option ℕ
  nodes : ℕ → Option TimerNode

/-- `nc_timer**`: the address of `timer_head`, or of the field `next` of a node. -/
inductive Link where
  | head
  | next (address : ℕ)

/-- `*link`, unless its node is not allocated. -/
def TimerHeap.load (h : TimerHeap) : Link → Option (Option ℕ)
  | .head => some h.head
  | .next a => (h.nodes a).map TimerNode.next

/-- `*link = pointer`. -/
def TimerHeap.store (h : TimerHeap) (pointer : Option ℕ) : Link → TimerHeap
  | .head => { h with head := pointer }
  | .next a =>
    { h with
      nodes := Function.update h.nodes a ((h.nodes a).map fun node => { node with next := pointer }) }

/-- The loop of `__nc_sleep`. There is no result where a node is not allocated. -/
def findLink (h : TimerHeap) (deadline : ℕ) : ℕ → Link → Option Link
  | 0, _ => none
  | fuel + 1, link =>
    match h.load link with
    | none => none
    | some none => some link
    | some (some a) =>
      match h.nodes a with
      | none => none
      | some node =>
        if node.deadline ≤ deadline then findLink h deadline fuel (.next a) else some link

/-- A new timer. Its `next` is not set before it is inserted. -/
def TimerHeap.allocate (h : TimerHeap) (address deadline g : ℕ) : TimerHeap :=
  { h with nodes := Function.update h.nodes address (some ⟨deadline, g, none⟩) }

/-- The allocation of a timer and its insertion. -/
def insertNode (fuel : ℕ) (h : TimerHeap) (address deadline g : ℕ) : Option TimerHeap :=
  let h := h.allocate address deadline g
  match findLink h deadline fuel .head with
  | none => none
  | some link =>
    match h.load link with
    | none => none
    | some pointer => some ((h.store pointer (.next address)).store (some address) link)

variable {n k : ℕ}

/-- The loop of `wake_expired_timers`. -/
def wakeNodes (now : ℕ) : ℕ → TimerHeap → Sched n k → Option (TimerHeap × Sched n k)
  | 0, _, _ => none
  | fuel + 1, h, s =>
    match h.head with
    | none => some (h, s)
    | some a =>
      match h.nodes a with
      | none => none
      | some node =>
        if node.deadline ≤ now then
          wakeNodes now fuel ⟨node.next, Function.update h.nodes a none⟩
            ((s.setState node.g .runnable).push node.g)
        else some (h, s)

end Model

section Chains

/-- A timer and its address. -/
abbrev Cell := ℕ × Timer

/-- The nodes from a pointer on are those of a list. -/
inductive Chain (nodes : ℕ → Option TimerNode) : Option ℕ → List Cell → Prop where
  | nil : Chain nodes none []
  | cons {a : ℕ} {t : Timer} {next : Option ℕ} {cells : List Cell}
      (hnode : nodes a = some ⟨t.deadline, t.g, next⟩) (hrest : Chain nodes next cells) :
      Chain nodes (some a) ((a, t) :: cells)

/-- The heap holds the cells of a list, each at an address of its own. -/
structure Represents (h : TimerHeap) (cells : List Cell) : Prop where
  chain : Chain h.nodes h.head cells
  nodup : (cells.map Prod.fst).Nodup

/-- The cells are allocated. -/
theorem Chain.allocated {nodes : ℕ → Option TimerNode} {p : Option ℕ} {cells : List Cell}
    (h : Chain nodes p cells) : ∀ a ∈ cells.map Prod.fst, nodes a ≠ none := by
  induction h with
  | nil => exact fun a ha => absurd ha List.not_mem_nil
  | cons hnode _ ih =>
    intro a ha
    rcases List.mem_cons.mp ha with rfl | ha
    · rw [hnode]
      exact fun h => nomatch h
    · exact ih a ha

/-- A chain depends on its own nodes only. -/
theorem Chain.congr {nodes nodes' : ℕ → Option TimerNode} {p : Option ℕ} {cells : List Cell}
    (h : Chain nodes p cells) (hsame : ∀ a ∈ cells.map Prod.fst, nodes' a = nodes a) :
    Chain nodes' p cells := by
  induction h with
  | nil => exact .nil
  | cons hnode _ ih =>
    refine .cons ((hsame _ List.mem_cons_self).trans hnode) (ih ?_)
    exact fun a ha => hsame a (List.mem_cons_of_mem _ ha)

/-- `insertTimer`, with the addresses. -/
def insertCell (c : Cell) : List Cell → List Cell
  | [] => [c]
  | c' :: rest =>
    if c'.2.deadline ≤ c.2.deadline then c' :: insertCell c rest else c :: c' :: rest

theorem insertCell_timers (c : Cell) (cells : List Cell) :
    (insertCell c cells).map Prod.snd = insertTimer c.2 (cells.map Prod.snd) := by
  induction cells with
  | nil => rfl
  | cons c' rest ih =>
    rw [insertCell, List.map_cons, insertTimer]
    by_cases hle : c'.2.deadline ≤ c.2.deadline
    · rw [if_pos hle, if_pos hle, List.map_cons, ih]
    · rw [if_neg hle, if_neg hle]
      rfl

theorem insertCell_perm (c : Cell) (cells : List Cell) :
    (insertCell c cells).Perm (c :: cells) := by
  induction cells with
  | nil => rfl
  | cons c' rest ih =>
    rw [insertCell]
    by_cases hle : c'.2.deadline ≤ c.2.deadline
    · rw [if_pos hle]
      exact (ih.cons c').trans (List.Perm.swap c c' rest)
    · rw [if_neg hle]

end Chains

section Insertion
variable {h : TimerHeap} {deadline g address : ℕ}

/-- What an insertion behind a link leaves as it is. -/
structure Frame (h h' : TimerHeap) (link : Link) (cells : List Cell) (address : ℕ) : Prop where
  head : link ≠ .head → h'.head = h.head
  nodes : ∀ b, b ∉ cells.map Prod.fst → b ≠ address → Link.next b ≠ link → h'.nodes b = h.nodes b
  fields : ∀ b node, b ≠ address → h.nodes b = some node →
    ∃ next, h'.nodes b = some ⟨node.deadline, node.g, next⟩

/-- The two stores that put a new node behind a link. -/
def spliced (h : TimerHeap) (address : ℕ) (p : Option ℕ) (link : Link) : TimerHeap :=
  (h.store p (.next address)).store (some address) link

theorem store_self {p : Option ℕ} {a : ℕ} {node : TimerNode} (h : TimerHeap)
    (hnode : h.nodes a = some node) :
    (h.store p (.next a)).nodes a = some { node with next := p } := by
  rw [TimerHeap.store]
  simp only [Function.update_self, hnode]
  rfl

theorem store_ne (h : TimerHeap) (p : Option ℕ) {a b : ℕ} (hne : b ≠ a) :
    (h.store p (.next a)).nodes b = h.nodes b := Function.update_of_ne hne ..

/-- A new node is put where a link leads to a chain without the link's own node. -/
theorem splice {cells : List Cell} {link : Link} {p : Option ℕ}
    (hnew : h.nodes address = some ⟨deadline, g, none⟩) (hload : h.load link = some p)
    (hchain : Chain h.nodes p cells) (hfresh : address ∉ cells.map Prod.fst)
    (hlink : link ≠ .next address) (hout : ∀ b ∈ cells.map Prod.fst, link ≠ .next b) :
    (spliced h address p link).load link = some (some address) ∧
      Chain (spliced h address p link).nodes (some address) ((address, ⟨deadline, g⟩) :: cells) ∧
      Frame h (spliced h address p link) link cells address := by
  have hset : (h.store p (.next address)).nodes address = some ⟨deadline, g, p⟩ :=
    store_self h hnew
  have hkept : ∀ b, b ≠ address → (h.store p (.next address)).nodes b = h.nodes b :=
    fun b hne => store_ne h p hne
  cases link with
  | head =>
    refine ⟨rfl, .cons hset (hchain.congr ?_), ?_, ?_, ?_⟩
    · intro b hb
      exact hkept b fun heq => hfresh (heq ▸ hb)
    · exact fun hne => absurd rfl hne
    · exact fun b _ hne _ => hkept b hne
    · intro b node hne hnode
      exact ⟨node.next, (hkept b hne).trans hnode⟩
  | next c =>
    have hc : c ≠ address := fun heq => hlink (heq ▸ rfl)
    obtain ⟨node, hnode, -⟩ := Option.map_eq_some_iff.mp hload
    have hown : (h.store p (.next address)).nodes c = some node := (hkept c hc).trans hnode
    have hchanged : (spliced h address p (.next c)).nodes c =
        some { node with next := some address } := store_self _ hown
    have hother : ∀ b, b ≠ c → (spliced h address p (.next c)).nodes b =
        (h.store p (.next address)).nodes b := fun b hne => store_ne _ _ hne
    refine ⟨?_, .cons ((hother address hc.symm).trans hset) (hchain.congr ?_), ?_, ?_, ?_⟩
    · rw [TimerHeap.load, hchanged]
      rfl
    · intro b hb
      have hbc : b ≠ c := fun heq => hout b hb (heq ▸ rfl)
      exact (hother b hbc).trans (hkept b fun heq => hfresh (heq ▸ hb))
    · exact fun _ => rfl
    · intro b _ hne hbc
      exact (hother b fun heq => hbc (heq ▸ rfl)).trans (hkept b hne)
    · intro b node' hne hnode'
      by_cases hbc : b = c
      · subst hbc
        rw [hnode] at hnode'
        cases hnode'
        exact ⟨some address, hchanged⟩
      · exact ⟨node'.next, (hother b hbc).trans ((hkept b hne).trans hnode')⟩

/-- The insertion behind a link goes past the timers that are due no later. -/
theorem insert_behind {cells : List Cell} {fuel : ℕ} {link : Link} {p : Option ℕ}
    (hnew : h.nodes address = some ⟨deadline, g, none⟩) (hload : h.load link = some p)
    (hchain : Chain h.nodes p cells) (hnodup : (cells.map Prod.fst).Nodup)
    (hfresh : address ∉ cells.map Prod.fst) (hlink : link ≠ .next address)
    (hout : ∀ b ∈ cells.map Prod.fst, link ≠ .next b) (hfuel : cells.length < fuel) :
    ∃ link' p', findLink h deadline fuel link = some link' ∧ h.load link' = some p' ∧
      ∃ q, (spliced h address p' link').load link = some q ∧
        Chain (spliced h address p' link').nodes q (insertCell (address, ⟨deadline, g⟩) cells) ∧
        Frame h (spliced h address p' link') link cells address := by
  induction cells generalizing fuel link p with
  | nil =>
    cases hchain
    obtain ⟨fuel, rfl⟩ := Nat.exists_eq_succ_of_ne_zero (Nat.ne_of_gt hfuel)
    obtain ⟨hloaded, hspliced, hframe⟩ := splice hnew hload .nil hfresh hlink hout
    refine ⟨link, none, ?_, hload, some address, hloaded, hspliced, hframe⟩
    rw [findLink, hload]
  | cons c rest ih =>
    obtain ⟨a, t⟩ := c
    obtain ⟨fuel, rfl⟩ := Nat.exists_eq_succ_of_ne_zero (Nat.ne_of_gt (Nat.zero_lt_of_lt hfuel))
    rw [List.map_cons, List.nodup_cons] at hnodup
    rw [insertCell]
    by_cases hle : t.deadline ≤ deadline
    · rw [if_pos hle]
      cases hchain with
      | @cons _ _ next _ hnode hrest =>
        have hnext : h.load (.next a) = some next := by
          rw [TimerHeap.load, hnode]
          rfl
        have hane : a ≠ address := fun heq => hfresh (heq ▸ List.mem_cons_self)
        have hin : ∀ b ∈ rest.map Prod.fst, Link.next a ≠ .next b := by
          rintro b hb heq
          cases heq
          exact hnodup.1 hb
        obtain ⟨link', p', hfind, hload', q, hq, hchain', hframe⟩ :=
          ih hnext hrest hnodup.2 (fun hmem => hfresh (List.mem_cons_of_mem _ hmem))
            (fun heq => hane (Link.next.inj heq)) hin (by simpa using hfuel)
        refine ⟨link', p', ?_, hload', some a, ?_, ?_, ?_⟩
        · rw [findLink, hload]
          simp only [hnode]
          rw [if_pos hle]
          exact hfind
        · -- The link's own node is no cell of the chain, so that it is as before.
          cases link with
          | head =>
            have hhead := hframe.head fun heq => nomatch heq
            rw [TimerHeap.load] at hload ⊢
            rw [hhead]
            exact hload
          | next b =>
            have hbout : b ∉ (a :: rest.map Prod.fst) := fun hmem => hout b hmem rfl
            have hb := hframe.nodes b (fun hmem => hbout (List.mem_cons_of_mem _ hmem))
              (fun heq => hlink (heq ▸ rfl))
              (fun heq => hbout (Link.next.inj heq ▸ List.mem_cons_self))
            rw [TimerHeap.load] at hload ⊢
            rw [hb]
            exact hload
        · obtain ⟨next', hnode'⟩ := hframe.fields a _ hane hnode
          rw [TimerHeap.load, hnode'] at hq
          cases hq
          exact .cons hnode' hchain'
        · refine ⟨fun _ => hframe.head (nomatch ·), ?_, hframe.fields⟩
          intro b hb hne _
          rw [List.map_cons, List.mem_cons, not_or] at hb
          exact hframe.nodes b hb.2 hne fun heq => hb.1 (Link.next.inj heq)
    · rw [if_neg hle]
      have hnode : ∃ next, p = some a ∧ h.nodes a = some ⟨t.deadline, t.g, next⟩ := by
        cases hchain with
        | cons hnode _ => exact ⟨_, rfl, hnode⟩
      obtain ⟨next, rfl, hnode⟩ := hnode
      obtain ⟨hloaded, hspliced, hframe⟩ := splice hnew hload hchain hfresh hlink hout
      refine ⟨link, some a, ?_, hload, some address, hloaded, hspliced, hframe⟩
      rw [findLink, hload]
      simp only [hnode]
      rw [if_neg hle]

/-- `__nc_sleep` inserts its timer after those that are due no later. -/
theorem insertNode_represents {cells : List Cell} {fuel : ℕ} (hr : Represents h cells)
    (hfree : h.nodes address = none) (hfuel : cells.length < fuel) :
    ∃ h', insertNode fuel h address deadline g = some h' ∧
      Represents h' (insertCell (address, ⟨deadline, g⟩) cells) := by
  have hfresh : address ∉ cells.map Prod.fst := fun hmem => hr.chain.allocated address hmem hfree
  have hnew : (h.allocate address deadline g).nodes address = some ⟨deadline, g, none⟩ :=
    Function.update_self ..
  have hchain : Chain (h.allocate address deadline g).nodes h.head cells := by
    refine hr.chain.congr ?_
    intro b hb
    have hne : b ≠ address := fun heq => hfresh (heq ▸ hb)
    exact Function.update_of_ne hne ..
  have hhead : (h.allocate address deadline g).load .head = some h.head := rfl
  obtain ⟨link, p, hfind, hload, q, hq, hchain', _⟩ :=
    insert_behind hnew hhead hchain hr.nodup hfresh (fun heq => nomatch heq)
      (fun _ _ heq => nomatch heq) hfuel
  refine ⟨spliced (h.allocate address deadline g) address p link, ?_, ?_, ?_⟩
  · rw [insertNode]
    simp only [hfind, hload]
    rfl
  · cases hq
    exact hchain'
  · have hperm := (insertCell_perm (address, ⟨deadline, g⟩) cells).map Prod.fst
    rw [hperm.nodup_iff, List.map_cons, List.nodup_cons]
    exact ⟨hfresh, hr.nodup⟩

end Insertion

section Removal
variable {n k : ℕ} {h : TimerHeap} {now : ℕ}

/-- The cells that stay when those that are due are removed from the front. -/
def pendingCells (now : ℕ) (cells : List Cell) : List Cell :=
  cells.dropWhile (fun c => c.2.deadline ≤ now)

/-- `wake_expired_timers` removes the timers that are due from the front. -/
theorem wakeNodes_represents {cells : List Cell} {fuel : ℕ} (hr : Represents h cells)
    (hfuel : cells.length < fuel) (s : Sched n k) :
    ∃ h' s', wakeNodes now fuel h s = some (h', s') ∧ Represents h' (pendingCells now cells) ∧
      wakeTimers now (cells.map Prod.snd) s =
        { s' with timers := (pendingCells now cells).map Prod.snd } := by
  induction cells generalizing h fuel s with
  | nil =>
    obtain ⟨fuel, rfl⟩ := Nat.exists_eq_succ_of_ne_zero (Nat.ne_of_gt hfuel)
    refine ⟨h, s, ?_, hr, rfl⟩
    have hhead : h.head = none := by
      have hchain := hr.chain
      generalize h.head = p at hchain ⊢
      cases hchain
      rfl
    rw [wakeNodes, hhead]
  | cons c rest ih =>
    obtain ⟨a, t⟩ := c
    obtain ⟨fuel, rfl⟩ := Nat.exists_eq_succ_of_ne_zero (Nat.ne_of_gt (Nat.zero_lt_of_lt hfuel))
    have hfirst : ∃ next, h.head = some a ∧ h.nodes a = some ⟨t.deadline, t.g, next⟩ ∧
        Chain h.nodes next rest := by
      have hchain := hr.chain
      generalize h.head = p at hchain ⊢
      cases hchain with
      | cons hnode hrest => exact ⟨_, rfl, hnode, hrest⟩
    obtain ⟨next, hhead, hnode, hrest⟩ := hfirst
    have hnodup := hr.nodup
    rw [List.map_cons, List.nodup_cons] at hnodup
    by_cases hdue : t.deadline ≤ now
    · have hremoved : Represents ⟨next, Function.update h.nodes a none⟩ rest := by
        refine ⟨hrest.congr ?_, hnodup.2⟩
        intro b hb
        have hne : b ≠ a := fun heq => hnodup.1 (heq ▸ hb)
        exact Function.update_of_ne hne ..
      obtain ⟨h', s', hwake, hr', htimers⟩ :=
        ih hremoved (by simpa using hfuel) ((s.setState t.g .runnable).push t.g)
      have hpending : pendingCells now ((a, t) :: rest) = pendingCells now rest :=
        List.dropWhile_cons_of_pos (decide_eq_true hdue)
      refine ⟨h', s', ?_, hpending ▸ hr', ?_⟩
      · rw [wakeNodes, hhead]
        simp only [hnode]
        rw [if_pos hdue]
        exact hwake
      · rw [hpending, List.map_cons, wakeTimers, if_pos hdue]
        exact htimers
    · have hpending : pendingCells now ((a, t) :: rest) = (a, t) :: rest :=
        List.dropWhile_cons_of_neg (by simpa using hdue)
      refine ⟨h, s, ?_, hpending.symm ▸ hr, ?_⟩
      · rw [wakeNodes, hhead]
        simp only [hnode]
        rw [if_neg hdue]
      · rw [hpending, List.map_cons, wakeTimers, if_neg hdue]

end Removal

end NewClLang.TimerLinks
