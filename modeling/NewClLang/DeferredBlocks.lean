import NewClLang.DeferSites

set_option autoImplicit false

/-!
# Deferred blocks

What a run owes are the blocks it passed a defer statement for and has not executed. They are on
the stack of registrations, the last one first, as long as each step meets its condition; a step
that does not leaves the run with more to execute than the stack holds.
-/
namespace NewClLang.DeferredBlocks
open Syntax StatefulRuns CompiledCode CodeEmission DeferSites

section Accounts

/-- What is owed after an event. A function is left with nothing owed, the block executed is the
    last one registered, and a defer statement that is passed registers its block. -/
def account : Event → List ℕ → Option (List ℕ)
  | .operand, owed => some owed
  | .passed site _, owed => some (site :: owed)
  | .inlined, _ => none
  | .popped _ _, owed => some owed
  | .executed _, [] => none
  | .executed site, last :: owed => if last = site then some owed else none
  | .left _ _, [] => some []
  | .left _ _, _ :: _ => none

def owed : List Event → Option (List ℕ)
  | [] => some []
  | e :: past => (owed past).bind (account e)

/-- The step meets its condition: there is room for a registration, no defer statement is passed in
    a deferred block, the site popped was emitted before the exit, and a deferred block is left by
    `ret` only when it is the last. -/
def Meets : Event → Prop
  | .operand => True
  | .passed _ pending => pending < deferStackSize
  | .inlined => False
  | .popped site known => site < known
  | .executed _ => True
  | .left deferred pending => deferred = true → pending = 0

def AllMeet (trace : List Event) : Prop := ∀ e ∈ trace, Meets e

theorem allMeet_cons {e : Event} {past : List Event} :
    AllMeet (e :: past) ↔ Meets e ∧ AllMeet past := List.forall_mem_cons

theorem owed_cons {e : Event} {past : List Event} {rest : List ℕ}
    (h : owed (e :: past) = some rest) : ∃ before, owed past = some before ∧
      account e before = some rest :=
  Option.bind_eq_some_iff.mp h

theorem owed_step {e : Event} {past : List Event} {before : List ℕ}
    (h : owed past = some before) : owed (e :: past) = account e before := by
  rw [owed, h, Option.bind_some]

end Accounts

section Runs
variable {W V : Type}

def Accounted (s : State W) : Prop := owed s.trace = some s.pending

def Tallied (s : State W) : Prop :=
  (AllMeet s.trace ∧ Accounted s) ∨
    (¬ AllMeet s.trace ∧ ∀ rest, owed s.trace = some rest → s.pending.length < rest.length)

theorem Tallied.accounted_iff {s : State W} (h : Tallied s) : Accounted s ↔ AllMeet s.trace := by
  cases h with
  | inl h => exact iff_of_true h.2 h.1
  | inr h =>
    apply iff_of_false _ h.1
    intro hacc
    exact absurd (h.2 s.pending hacc) (Nat.lt_irrefl _)

variable {s s' : State W} {e : Event}

theorem Tallied.met (h : Tallied s) (htrace : s'.trace = e :: s.trace) (hmeets : Meets e)
    (haccount : account e s.pending = some s'.pending)
    (hmore : ∀ before rest, account e before = some rest → s.pending.length < before.length →
      s'.pending.length < rest.length) : Tallied s' := by
  rw [Tallied, Accounted, htrace]
  cases h with
  | inl h =>
    left
    refine ⟨allMeet_cons.mpr ⟨hmeets, h.1⟩, ?_⟩
    rw [owed_step h.2]
    exact haccount
  | inr h =>
    right
    refine ⟨fun hall => h.1 (allMeet_cons.mp hall).2, ?_⟩
    intro rest hrest
    obtain ⟨before, hbefore, hstep⟩ := owed_cons hrest
    exact hmore before rest hstep (h.2 before hbefore)

theorem Tallied.broken (h : Tallied s) (htrace : s'.trace = e :: s.trace) (hmeets : ¬ Meets e)
    (hmore : ∀ before rest, account e before = some rest →
      s.pending.length < before.length ∨ before = s.pending → s'.pending.length < rest.length) :
    Tallied s' := by
  rw [Tallied, Accounted, htrace]
  right
  refine ⟨fun hall => hmeets (allMeet_cons.mp hall).1, ?_⟩
  intro rest hrest
  obtain ⟨before, hbefore, hstep⟩ := owed_cons hrest
  apply hmore before rest hstep
  cases h with
  | inl h =>
    right
    rw [Accounted, hbefore] at h
    exact Option.some.inj h.2
  | inr h => exact Or.inl (h.2 before hbefore)

theorem tallied_passed (site : ℕ) (h : Tallied s) : Tallied (finalState (registerSite site) s) := by
  rw [finalState, registerSite]
  by_cases hroom : s.pending.length < deferStackSize
  · simp only [if_pos hroom]
    apply h.met (e := .passed site s.pending.length) rfl hroom rfl
    intro before rest hstep hlength
    cases hstep
    exact Nat.succ_lt_succ hlength
  · simp only [if_neg hroom]
    apply h.broken (e := .passed site s.pending.length) rfl hroom
    intro before rest hstep hbefore
    cases hstep
    change s.pending.length < (site :: before).length
    rw [List.length_cons]
    cases hbefore with
    | inl hlength => omega
    | inr heq =>
      rw [heq]
      omega

theorem tallied_dropped {site known : ℕ} {rest : List ℕ} (hpending : s.pending = site :: rest)
    (hknown : known ≤ site) (h : Tallied s) :
    Tallied { s with pending := rest, trace := .popped site known :: s.trace } := by
  apply h.broken (e := .popped site known) rfl (Nat.not_lt.mpr hknown)
  intro before after hstep hbefore
  cases hstep
  rw [hpending] at hbefore
  rw [List.length_cons] at hbefore
  change rest.length < before.length
  cases hbefore with
  | inl hlength => omega
  | inr heq =>
    rw [heq, List.length_cons]
    omega

theorem tallied_started {site known : ℕ} {rest : List ℕ} (hpending : s.pending = site :: rest)
    (hknown : site < known) (h : Tallied s) :
    Tallied { s with
      pending := rest, trace := .executed site :: .popped site known :: s.trace } := by
  have hpopped : Tallied { s with trace := .popped site known :: s.trace } := by
    apply h.met (e := .popped site known) rfl hknown
    case haccount => rfl
    case hmore =>
      intro before after hstep hlength
      cases hstep
      exact hlength
  apply hpopped.met (e := .executed site) rfl trivial
  case haccount =>
    change account (.executed site) s.pending = some rest
    rw [hpending, account, if_pos rfl]
  case hmore =>
    intro before after hstep hlength
    change s.pending.length < before.length at hlength
    change rest.length < after.length
    rw [hpending, List.length_cons] at hlength
    cases before with
    | nil => cases hstep
    | cons last before =>
      rw [account] at hstep
      by_cases heq : last = site
      · rw [if_pos heq] at hstep
        cases hstep
        rw [List.length_cons] at hlength
        omega
      · rw [if_neg heq] at hstep
        cases hstep

theorem tallied_left {deferred : Bool} (hdrained : deferred = false → s.pending = [])
    (h : Tallied s) : Tallied (finalState (leave deferred : Run W V) s) := by
  change Tallied { s with trace := .left deferred s.pending.length :: s.trace }
  have hleft : ∀ before rest, account (.left deferred s.pending.length) before = some rest →
      before = [] := by
    intro before rest hstep
    cases before with
    | nil => rfl
    | cons last before => cases hstep
  by_cases hempty : s.pending = []
  · apply h.met rfl
    case hmeets =>
      intro _
      rw [hempty]
      rfl
    case haccount =>
      change account _ s.pending = some s.pending
      rw [hempty]
      rfl
    case hmore =>
      intro before rest hstep hlength
      rw [hleft before rest hstep] at hlength
      exact absurd hlength (Nat.not_lt_zero _)
  · apply h.broken rfl
    case hmeets =>
      intro hmeets
      cases deferred with
      | false => exact hempty (hdrained rfl)
      | true => exact hempty (List.eq_nil_of_length_eq_zero (hmeets rfl))
    case hmore =>
      intro before rest hstep hbefore
      rw [hleft before rest hstep] at hbefore
      cases hbefore with
      | inl hlength => exact absurd hlength (Nat.not_lt_zero _)
      | inr heq => exact absurd heq.symm hempty

theorem stable_tallied (p : Primitives W V) : Stable p (Tallied (W := W)) where
  act := by
    intro a vs s hs
    rw [finalState, actOn]
    cases p.act a vs s.world with
    | none => exact hs
    | some answer => exact hs
  operand := by
    intro s hs
    apply hs.met (e := .operand) rfl trivial
    case haccount => rfl
    case hmore =>
      intro before rest hstep hlength
      cases hstep
      exact hlength
  inlined := by
    intro s hs
    apply hs.broken (e := .inlined) rfl id
    intro before rest hstep
    cases hstep
  register := fun site s hs => tallied_passed site hs
  dropped := fun s site rest known hpending hknown hs => tallied_dropped hpending hknown hs
  started := fun s site rest known hpending hknown hs => tallied_started hpending hknown hs
  leave := fun deferred s hdrained hs => tallied_left hdrained hs

theorem tallied_run (p : Primitives W V) (fuel : ℕ) (c : Code) (world : W) :
    Tallied (finalState (exec p fuel c) (start world)) :=
  exec_keeps (stable_tallied p) fuel c (start world)
    (Or.inl ⟨List.forall_mem_nil _, rfl⟩)

end Runs

section Functions
variable {W V : Type}

def runFunction (p : Primitives W V) (fuel : ℕ) (isMain : Bool) (body : List Stmt)
    (tail : Option Expr) (world : W) : State W :=
  finalState (exec p fuel (emitFunction isMain body tail).1) (start world)

/-- A number stands for one block throughout the code of a function, and a run registers and
    executes blocks as it passes defer statements and exits exactly when its steps meet their
    conditions. -/
theorem deferred_blocks_accounted_iff (p : Primitives W V) (fuel : ℕ) (isMain : Bool)
    (body : List Stmt) (tail : Option Expr) (world : W) :
    (Agrees (emitFunction isMain body tail).2.sites (emitFunction isMain body tail).1 ∧
      ∀ c ∈ (emitFunction isMain body tail).2.sites, ∀ all, Agrees all c) ∧
    (Accounted (runFunction p fuel isMain body tail world) ↔
      AllMeet (runFunction p fuel isMain body tail world).trace) :=
  ⟨emitFunction_agrees isMain body tail, (tallied_run p fuel _ world).accounted_iff⟩

/-- `for … { if … { ret }; defer { … } }`. -/
def exitBeforeSite : List Stmt :=
  [.forCondition .literal
    [.expression (.ifExpr .literal [.expression (.exit .ret .literal)] []),
      .defer [.expression .literal]]]

/-- In the second turn `ret` drops the registration made in the first. -/
theorem exit_before_site_drops :
    (runFunction scripted 3 false exitBeforeSite none [true, false, true, true]).trace =
      [.left false 0, .popped 0 0, .operand, .passed 0 0] ∧
    ¬ Accounted (runFunction scripted 3 false exitBeforeSite none [true, false, true, true]) := by
  constructor
  · decide
  · unfold Accounted
    decide

end Functions

end NewClLang.DeferredBlocks
