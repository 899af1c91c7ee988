import Mathlib.Data.List.Basic
import Mathlib.Tactic.Common

set_option autoImplicit false

/-!
# Computations that may fail

A computation that keeps a log of what it asks for, and a machine that is run step by step until it
fails or has ended.
-/
namespace NewClLang.FallibleRuns

section Logged
variable {ε ω α β : Type}

/-- A failure, or a result with the log of what was asked for on the way, in order. -/
def Logged (ε ω α : Type) : Type := Except ε (α × List ω)

instance : Monad (Logged ε ω) where
  pure a := .ok (a, [])
  bind x f :=
    match x with
    | .error e => .error e
    | .ok (a, asked) =>
      match f a with
      | .error e => .error e
      | .ok (b, later) => .ok (b, asked ++ later)

def ask (w : ω) : Logged ε ω Unit := .ok ((), [w])

def raise (e : ε) : Logged ε ω α := .error e

theorem pure_ok {a b : α} {asked : List ω} :
    (pure a : Logged ε ω α) = .ok (b, asked) ↔ a = b ∧ asked = [] := by
  constructor
  · intro h
    cases h
    exact ⟨rfl, rfl⟩
  · rintro ⟨rfl, rfl⟩
    rfl

theorem bind_ok {x : Logged ε ω α} {f : α → Logged ε ω β} {b : β} {asked : List ω} :
    (x >>= f) = .ok (b, asked) ↔
      ∃ a first later, x = .ok (a, first) ∧ f a = .ok (b, later) ∧ asked = first ++ later := by
  constructor
  · intro h
    cases x with
    | error e => cases h
    | ok out =>
      obtain ⟨a, first⟩ := out
      change (match f a with
        | .error e => .error e
        | .ok (b, later) => .ok (b, first ++ later) : Except ε (β × List ω)) = _ at h
      cases hf : f a with
      | error e =>
        rw [hf] at h
        cases h
      | ok out =>
        obtain ⟨b', later⟩ := out
        rw [hf] at h
        cases h
        exact ⟨a, first, later, rfl, hf, rfl⟩
  · rintro ⟨a, first, later, rfl, hf, rfl⟩
    change (match f a with
      | .error e => .error e
      | .ok (b, later) => .ok (b, first ++ later) : Except ε (β × List ω)) = _
    rw [hf]

theorem bind_error {x : Logged ε ω α} {f : α → Logged ε ω β} {e : ε} (h : (x >>= f) = .error e) :
    x = .error e ∨ ∃ a first, x = .ok (a, first) ∧ f a = .error e := by
  cases x with
  | error e' =>
    cases h
    exact Or.inl rfl
  | ok out =>
    obtain ⟨a, first⟩ := out
    refine Or.inr ⟨a, first, rfl, ?_⟩
    change (match f a with
      | .error e => .error e
      | .ok (b, later) => .ok (b, first ++ later) : Except ε (β × List ω)) = _ at h
    cases hf : f a with
    | error e' =>
      rw [hf] at h
      cases h
      rfl
    | ok out =>
      rw [hf] at h
      cases h

/-- After a first part that asks for nothing, the rest decides. -/
theorem bind_pure_eq {x : Logged ε ω α} {f : α → Logged ε ω β} {a : α} (h : x = .ok (a, [])) :
    (x >>= f) = f a := by
  subst h
  change (match f a with
    | .error e => .error e
    | .ok (b, later) => .ok (b, [] ++ later) : Except ε (β × List ω)) = _
  cases f a <;> rfl

/-- A computation that fails, or gives `a` without asking for anything. -/
def Idle (x : Logged ε ω α) (a : α) : Prop := ∀ b asked, x = .ok (b, asked) → b = a ∧ asked = []

theorem idle_pure (a : α) : Idle (pure a : Logged ε ω α) a := by
  intro b asked h
  obtain ⟨rfl, rfl⟩ := pure_ok.mp h
  exact ⟨rfl, rfl⟩

theorem idle_raise (e : ε) (a : α) : Idle (raise e : Logged ε ω α) a := fun _ _ h => by cases h

theorem Idle.bind {x : Logged ε ω α} {f : α → Logged ε ω β} {a : α} {b : β} (hx : Idle x a)
    (hf : Idle (f a) b) : Idle (x >>= f) b := by
  intro b' asked h
  obtain ⟨a', first, later, ha, hb, rfl⟩ := bind_ok.mp h
  obtain ⟨rfl, rfl⟩ := hx a' first ha
  obtain ⟨rfl, rfl⟩ := hf b' later hb
  exact ⟨rfl, rfl⟩

/-- `w` is asked for on the way to a result. -/
def AsksFor (x : Logged ε ω α) (w : ω) : Prop := ∃ a asked, x = .ok (a, asked) ∧ w ∈ asked

theorem Idle.asksFor {x : Logged ε ω α} {a : α} (h : Idle x a) (w : ω) : ¬AsksFor x w := by
  rintro ⟨b, asked, hx, hw⟩
  obtain ⟨-, rfl⟩ := h b asked hx
  cases hw

/-- Whatever `f` gives for `a`, it gives again for that, and asks for nothing. -/
def Settles (f : α → Logged ε ω α) (a : α) : Prop :=
  ∀ b asked, f a = .ok (b, asked) → Idle (f b) b

def each (f : α → Logged ε ω β) : List α → Logged ε ω (List β)
  | [] => pure []
  | a :: as => do
    let b ← f a
    let bs ← each f as
    pure (b :: bs)

/-- The results are those of the elements, in order, and what is asked for is what they ask for. -/
theorem each_ok {f : α → Logged ε ω β} {as : List α} {bs : List β} {asked : List ω}
    (h : each f as = .ok (bs, asked)) :
    (∀ (i : ℕ) a, as[i]? = some a → ∃ b own, bs[i]? = some b ∧ f a = .ok (b, own)) ∧
      (∀ b ∈ bs, ∃ a ∈ as, ∃ own, f a = .ok (b, own)) ∧
      ∀ w, w ∈ asked ↔ ∃ a ∈ as, AsksFor (f a) w := by
  induction as generalizing bs asked with
  | nil =>
    obtain ⟨rfl, rfl⟩ := pure_ok.mp h
    exact ⟨fun _ _ ha => absurd ha (by simp), fun b hb => absurd hb List.not_mem_nil,
      fun w => by simp⟩
  | cons a as ih =>
    obtain ⟨b, first, rest, hb, hrest, rfl⟩ := bind_ok.mp h
    obtain ⟨bs', second, last, hbs, hlast, rfl⟩ := bind_ok.mp hrest
    obtain ⟨rfl, rfl⟩ := pure_ok.mp hlast
    obtain ⟨hget, hmem, hasks⟩ := ih hbs
    refine ⟨fun i a' ha' => ?_, fun b' hb' => ?_, fun w => ?_⟩
    · cases i with
      | zero =>
        rw [List.getElem?_cons_zero, Option.some.injEq] at ha'
        subst ha'
        exact ⟨b, first, rfl, hb⟩
      | succ i => exact hget i a' ha'
    · rcases List.mem_cons.mp hb' with rfl | hb'
      · exact ⟨a, List.mem_cons_self, first, hb⟩
      · obtain ⟨a', ha', hown⟩ := hmem b' hb'
        exact ⟨a', List.mem_cons_of_mem a ha', hown⟩
    · rw [List.append_nil, List.mem_append, hasks]
      constructor
      · rintro (hw | ⟨a', ha', hw⟩)
        · exact ⟨a, List.mem_cons_self, b, first, hb, hw⟩
        · exact ⟨a', List.mem_cons_of_mem a ha', hw⟩
      · rintro ⟨a', ha', hw⟩
        rcases List.mem_cons.mp ha' with rfl | ha'
        · obtain ⟨b', own, hb', hw⟩ := hw
          rw [hb] at hb'
          cases hb'
          exact Or.inl hw
        · exact Or.inr ⟨a', ha', hw⟩

theorem each_error {f : α → Logged ε ω β} {as : List α} {e : ε} (h : each f as = .error e) :
    ∃ a ∈ as, f a = .error e := by
  induction as with
  | nil => cases h
  | cons a as ih =>
    rcases bind_error h with ha | ⟨b, first, -, hrest⟩
    · exact ⟨a, List.mem_cons_self, ha⟩
    · rcases bind_error hrest with hbs | ⟨bs, second, -, hlast⟩
      · obtain ⟨a', ha', herror⟩ := ih hbs
        exact ⟨a', List.mem_cons_of_mem a ha', herror⟩
      · cases hlast

theorem settles_each {f : α → Logged ε ω α} {as : List α} (h : ∀ a ∈ as, Settles f a) :
    Settles (each f) as := by
  induction as with
  | nil =>
    intro bs asked hbs
    obtain ⟨rfl, -⟩ := pure_ok.mp hbs
    exact idle_pure []
  | cons a as ih =>
    intro bs asked hbs
    obtain ⟨b, first, rest, hb, hrest, -⟩ := bind_ok.mp hbs
    obtain ⟨bs', second, last, hbs', hlast, -⟩ := bind_ok.mp hrest
    obtain ⟨rfl, -⟩ := pure_ok.mp hlast
    have hhead := h a List.mem_cons_self b first hb
    have htail := ih (fun a' ha' => h a' (List.mem_cons_of_mem a ha')) bs' second hbs'
    exact hhead.bind (htail.bind (idle_pure _))

end Logged

section Runs
variable {ε σ : Type} {step : σ → Except ε σ} {ended : σ → Prop}

def run (step : σ → Except ε σ) : ℕ → σ → Except ε σ
  | 0, s => .ok s
  | n + 1, s =>
    match step s with
    | .error e => .error e
    | .ok s' => run step n s'

/-- After finitely many steps the machine has failed or has ended. -/
def Stops (step : σ → Except ε σ) (ended : σ → Prop) (s : σ) : Prop :=
  ∃ n, (∃ e, run step n s = .error e) ∨ ∃ s', run step n s = .ok s' ∧ ended s'

theorem Stops.of_error {s : σ} {e : ε} (hstep : step s = .error e) : Stops step ended s :=
  ⟨1, Or.inl ⟨e, by rw [run, hstep]⟩⟩

theorem Stops.of_next {s s' : σ} (hstep : step s = .ok s') (h : Stops step ended s') :
    Stops step ended s := by
  obtain ⟨n, hn⟩ := h
  refine ⟨n + 1, ?_⟩
  rw [run, hstep]
  exact hn

theorem Stops.of_step {s : σ} (h : ∀ s', step s = .ok s' → Stops step ended s') :
    Stops step ended s := by
  cases hstep : step s with
  | error e => exact .of_error hstep
  | ok s' => exact .of_next hstep (h s' hstep)

/-- With an invariant under which every step that does not end the machine makes a measure smaller,
    it stops. -/
theorem stops_of_measure {I : σ → Prop} (measure : σ → ℕ)
    (hstep : ∀ s s', I s → ¬ended s → step s = .ok s' → I s' ∧ measure s' < measure s) :
    ∀ s, I s → Stops step ended s := by
  intro s
  induction h : measure s using Nat.strongRecOn generalizing s with
  | ind n ih =>
    intro hs
    by_cases hended : ended s
    · exact ⟨0, Or.inr ⟨s, rfl, hended⟩⟩
    · refine Stops.of_step (fun s' hs' => ?_)
      obtain ⟨hkept, hless⟩ := hstep s s' hs hended hs'
      exact ih (measure s') (h ▸ hless) s' rfl hkept

/-- With an invariant that excludes the end and under which no step fails, it does not stop. -/
theorem not_stops_of_invariant {I : σ → Prop} (hgoing : ∀ s, I s → ¬ended s)
    (hstep : ∀ s, I s → ∃ s', step s = .ok s' ∧ I s') {s : σ} (hs : I s) :
    ¬Stops step ended s := by
  have hrun : ∀ n s, I s → ∃ s', run step n s = .ok s' ∧ I s' := by
    intro n
    induction n with
    | zero => exact fun s hs => ⟨s, rfl, hs⟩
    | succ n ih =>
      intro s hs
      obtain ⟨s', hs', hkept⟩ := hstep s hs
      rw [run, hs']
      exact ih s' hkept
  rintro ⟨n, hend⟩
  obtain ⟨s', hs', hkept⟩ := hrun n s hs
  rcases hend with ⟨e, he⟩ | ⟨s'', hs'', hended⟩
  · rw [hs'] at he
    cases he
  · rw [hs'] at hs''
    cases hs''
    exact hgoing s' hkept hended

end Runs

end NewClLang.FallibleRuns
