import NewClLang.NeededInstances

set_option autoImplicit false

/-!
# The first round of monomorphization

In its first round `monomorphize` walks every instance that the ordinary statements lead to without
the defaults that calls omit, in the order in which they are requested. So the round ends exactly
when these instances are finitely many, or the walk of one of them fails.
-/
namespace NewClLang.Monomorphization
open FallibleRuns ModuleSyntax RoseTrees TypeRefs
variable (tmpls : Templates) (stmts : List Node)

section FirstRound

inductive FirstNeeded : Made → Prop where
  | ordinary {stmt : Node} {r : Request} :
    stmt ∈ stmts → AsksFor (walk tmpls false stmt) r → FirstNeeded (product tmpls r)
  | generated {p : Made} {r : Request} :
    FirstNeeded p → AsksFor (walk tmpls true (instanceOf tmpls p)) r → FirstNeeded (product tmpls r)

/-- A walk of the first round fails. -/
def FirstRaises : Prop :=
  (∃ stmt ∈ stmts, ∃ e, walk tmpls false stmt = .error e) ∨
    ∃ p, FirstNeeded tmpls stmts p ∧ ∃ e, walk tmpls true (instanceOf tmpls p) = .error e

/-- The walk of an instance, whose requests have all been made. -/
def Done (made : List Made) (p : Made) : Prop :=
  ∃ out asked, walk tmpls true (instanceOf tmpls p) = .ok (out, asked) ∧
    ∀ r ∈ asked, product tmpls r ∈ made

/-- The machine in its first round, before the generated statement `index`, and the statement whose
    requests are being met. -/
structure First (m : Machine) (index : ℕ) (walked : Option Node) : Prop where
  control : m.control = .generated index
  index_le : index ≤ m.generated.length
  keys : ∀ base args, .function base args ∈ m.made → product tmpls (.function base args) ∈ m.made
  waiting : ∀ i stmt, index ≤ i → m.generated[i]? = some stmt →
    ∃ p, FirstNeeded tmpls stmts p ∧ stmt = instanceOf tmpls p
  made : ∀ p ∈ m.made, isProduct tmpls p = true → Done tmpls m.made p ∨
    (∃ i, index ≤ i ∧ m.generated[i]? = some (instanceOf tmpls p)) ∨
      walked = some (instanceOf tmpls p)

def Rooted (m : Machine) : Prop :=
  ∀ stmt ∈ stmts, ∀ r, AsksFor (walk tmpls false stmt) r → product tmpls r ∈ m.made

variable {tmpls stmts}

theorem Done.mono {made made' : List Made} (hsub : made ⊆ made') {p : Made}
    (h : Done tmpls made p) : Done tmpls made' p := by
  obtain ⟨out, asked, hout, hasked⟩ := h
  exact ⟨out, asked, hout, fun r hr => hsub (hasked r hr)⟩

theorem First.add {m : Machine} {index : ℕ} {walked : Option Node}
    (h : First tmpls stmts m index walked) {p : Made}
    (hp : FirstNeeded tmpls stmts p) {made : List Made} (hsub : m.made ⊆ made)
    (hnew : ∀ q ∈ made, q ∈ m.made ∨ q = p ∨ isProduct tmpls q = false)
    (hkeys : ∀ base args, .function base args ∈ made → product tmpls (.function base args) ∈ made)
    (functions : List (String × Place)) :
    First tmpls stmts { m with made, functions, generated := m.generated ++ [instanceOf tmpls p] }
      index walked where
  control := h.control
  index_le := by
    rw [List.length_append]
    exact h.index_le.trans (Nat.le_add_right _ _)
  keys := hkeys
  waiting := by
    intro i stmt hi hget
    rcases Nat.lt_or_ge i m.generated.length with hlt | hge
    · rw [List.getElem?_append_left hlt] at hget
      exact h.waiting i stmt hi hget
    · rw [List.getElem?_append_right hge, List.getElem?_singleton] at hget
      split at hget
      · exact ⟨p, hp, (Option.some.inj hget).symm⟩
      · cases hget
  made := by
    intro q hq hproduct
    rcases hnew q hq with hold | rfl | hkey
    · rcases h.made q hold hproduct with hdone | ⟨i, hi, hget⟩ | hwalked
      · exact Or.inl (hdone.mono hsub)
      · refine Or.inr (Or.inl ⟨i, hi, ?_⟩)
        rw [List.getElem?_append_left (List.getElem?_eq_some_iff.mp hget).1]
        exact hget
      · exact Or.inr (Or.inr hwalked)
    · exact Or.inr (Or.inl ⟨m.generated.length, h.index_le, List.getElem?_concat_length⟩)
    · rw [hkey] at hproduct
      cases hproduct

/-- The keys and what stands for them, when a request has been met. -/
theorem keys_made {made : List Made}
    (h : ∀ base args, .function base args ∈ made → product tmpls (.function base args) ∈ made)
    {r : Request} {keys : List Made} (hkeys : ∀ key ∈ keys, key = r.key) (base : String)
    (args : List TypeRef) (hmem : .function base args ∈ product tmpls r :: (keys ++ made)) :
    product tmpls (.function base args) ∈ product tmpls r :: (keys ++ made) := by
  rcases List.mem_cons.mp hmem with heq | hrest
  · have hkept : isProduct tmpls (Request.function base args).key = true := by
      rw [Request.key, heq]
      exact product_isProduct r
    rw [product_eq_key hkept, Request.key, heq]
    exact List.mem_cons_self
  · rcases List.mem_append.mp hrest with hkey | hold
    · have heq := hkeys _ hkey
      cases r with
      | type base' args' => cases heq
      | function base' args' =>
        cases heq
        exact List.mem_cons_self
    · exact List.mem_cons_of_mem _ (List.mem_append_right _ (h base args hold))

/-- A request of the first round is met. -/
theorem First.request {m : Machine} {index : ℕ} {walked : Option Node}
    (h : First tmpls stmts m index walked) {r : Request}
    (hr : FirstNeeded tmpls stmts (product tmpls r)) :
    First tmpls stmts (m.request tmpls r) index walked ∧ m.made ⊆ (m.request tmpls r).made ∧
      product tmpls r ∈ (m.request tmpls r).made := by
  rcases request_cases tmpls m r with
    ⟨hold, heq⟩ | ⟨-, hkey, hold, heq⟩ | ⟨keys, functions, -, hkeys, -, -, -, heq⟩
  · rw [heq]
    refine ⟨h, List.Subset.refl _, ?_⟩
    cases r with
    | type base args => exact hold
    | function base args => exact h.keys base args hold
  · rw [heq]
    have hsub : m.made ⊆ r.key :: m.made := List.subset_cons_self _ _
    refine ⟨⟨h.control, h.index_le, fun base args hmem => ?_, h.waiting, fun q hq hkept => ?_⟩, hsub,
      hsub hold⟩
    · rcases List.mem_cons.mp hmem with heq' | hmem
      · cases r with
        | type base' args' => cases heq'
        | function base' args' =>
          cases heq'
          exact hsub hold
      · exact hsub (h.keys base args hmem)
    · rcases List.mem_cons.mp hq with rfl | hq
      · rw [hkey] at hkept
        cases hkept
      · exact (h.made q hq hkept).imp_left (Done.mono hsub)
  · rw [heq]
    have hsub : m.made ⊆ product tmpls r :: (keys ++ m.made) :=
      fun q hq => List.mem_cons_of_mem _ (List.mem_append_right _ hq)
    refine ⟨h.add hr hsub (fun q hq => ?_) (keys_made h.keys (fun key hmem => (hkeys key hmem).1))
      functions, hsub, List.mem_cons_self⟩
    rcases List.mem_cons.mp hq with rfl | hq
    · exact Or.inr (Or.inl rfl)
    · rcases List.mem_append.mp hq with hq | hq
      · exact Or.inr (Or.inr (hkeys q hq).2.2)
      · exact Or.inl hq

theorem First.requests {m : Machine} {index : ℕ} {walked : Option Node}
    (h : First tmpls stmts m index walked)
    {rs : List Request} (hrs : ∀ r ∈ rs, FirstNeeded tmpls stmts (product tmpls r)) :
    First tmpls stmts (rs.foldl (Machine.request tmpls) m) index walked ∧
      m.made ⊆ (rs.foldl (Machine.request tmpls) m).made ∧
      ∀ r ∈ rs, product tmpls r ∈ (rs.foldl (Machine.request tmpls) m).made := by
  induction rs generalizing m with
  | nil => exact ⟨h, List.Subset.refl _, fun _ hr => absurd hr List.not_mem_nil⟩
  | cons r rs ih =>
    obtain ⟨hfirst, hsub, hmade⟩ := h.request (hrs r List.mem_cons_self)
    obtain ⟨hrest, hsub', hmade'⟩ := ih hfirst (fun r' hr' => hrs r' (List.mem_cons_of_mem r hr'))
    refine ⟨hrest, List.Subset.trans hsub hsub', fun r' hr' => ?_⟩
    rcases List.mem_cons.mp hr' with rfl | hr'
    · exact hsub' hmade
    · exact hmade' r' hr'

theorem FirstNeeded.isProduct {p : Made} (h : FirstNeeded tmpls stmts p) :
    isProduct tmpls p = true := by
  cases h with
  | ordinary _ _ => exact product_isProduct _
  | generated _ _ => exact product_isProduct _

/-- The walk of the next generated statement. -/
theorem First.next {m : Machine} {index : ℕ} (h : First tmpls stmts m index none) {stmt : Node}
    (hget : m.generated[index]? = some stmt) {stmt' : Node} {requests : List Request}
    (hwalk : walk tmpls true stmt = .ok (stmt', requests)) :
    ∃ m', step tmpls m = .ok m' ∧ First tmpls stmts m' (index + 1) none ∧ m.made ⊆ m'.made ∧
      (∀ r ∈ requests, product tmpls r ∈ m'.made) ∧
      ∀ i, index < i → ∀ waiting, m.generated[i]? = some waiting →
        m'.generated[i]? = some waiting := by
  obtain ⟨p, hp, rfl⟩ := h.waiting index stmt (Nat.le_refl index) hget
  have hlt := (List.getElem?_eq_some_iff.mp hget).1
  have hwalking : First tmpls stmts { m with
      generated := m.generated.set index stmt', control := .generated (index + 1) }
      (index + 1) (some (instanceOf tmpls p)) := by
    refine ⟨rfl, ?_, h.keys, fun i waiting hi hwaiting => ?_, fun q hq hproduct => ?_⟩
    · rw [List.length_set]
      exact hlt
    · rw [List.getElem?_set_ne (by omega)] at hwaiting
      exact h.waiting i waiting (by omega) hwaiting
    · rcases h.made q hq hproduct with hdone | ⟨i, hi, hq⟩ | hwalked
      · exact Or.inl hdone
      · rcases Nat.eq_or_lt_of_le hi with rfl | hi
        · rw [hget] at hq
          exact Or.inr (Or.inr hq)
        · refine Or.inr (Or.inl ⟨i, hi, ?_⟩)
          rw [List.getElem?_set_ne (by omega)]
          exact hq
      · cases hwalked
  obtain ⟨hfirst, hsub, hmade⟩ := hwalking.requests
    (show ∀ r ∈ requests, FirstNeeded tmpls stmts (product tmpls r) from
      fun r hr => .generated hp ⟨stmt', requests, hwalk, hr⟩)
  refine ⟨_, ?_, ⟨hfirst.control, hfirst.index_le, hfirst.keys, hfirst.waiting, ?_⟩, hsub, hmade, ?_⟩
  · rw [step, h.control]
    simp only [hget, hwalk]
  · intro q hq hproduct
    rcases hfirst.made q hq hproduct with hdone | hlater | hwalked
    · exact Or.inl hdone
    · exact Or.inr (Or.inl hlater)
    · have heq : instanceOf tmpls q = instanceOf tmpls p := (Option.some.inj hwalked).symm
      exact Or.inl ⟨stmt', requests, by rw [heq]; exact hwalk, hmade⟩
  · intro i hi waiting hwaiting
    obtain ⟨later, hlater⟩ := (requests_grow tmpls requests { m with
      generated := m.generated.set index stmt', control := .generated (index + 1) }).generated
    have hold : (m.generated.set index stmt')[i]? = some waiting := by
      rw [List.getElem?_set_ne (by omega)]
      exact hwaiting
    rw [hlater, List.getElem?_append_left (List.getElem?_eq_some_iff.mp hold).1]
    exact hold

/-- The pass over the ordinary statements of a machine that has made nothing yet. -/
theorem first_start {m : Machine} (hcontrol : m.control = .round) (hordinary : m.ordinary = stmts)
    (hmade : m.made = []) (hgenerated : m.generated = []) {m' : Machine}
    (hstep : step tmpls m = .ok m') : First tmpls stmts m' 0 none ∧ Rooted tmpls stmts m' := by
  rw [step, hcontrol, hordinary] at hstep
  cases hwalk : each (walk tmpls false) stmts with
  | error e =>
    rw [hwalk] at hstep
    cases hstep
  | ok out =>
    obtain ⟨ordinary, requests⟩ := out
    rw [hwalk] at hstep
    cases hstep
    obtain ⟨-, -, hasks⟩ := each_ok hwalk
    have hfirst : First tmpls stmts
        { m with ordinary, before := m.generated.length, control := .generated 0 } 0 none := by
      refine ⟨rfl, Nat.zero_le _, ?_, ?_, ?_⟩
      · intro base args hmem
        rw [hmade] at hmem
        cases hmem
      · intro i stmt _ hget
        rw [hgenerated] at hget
        cases hget
      · intro p hp
        rw [hmade] at hp
        cases hp
    have hrequests : ∀ r ∈ requests, FirstNeeded tmpls stmts (product tmpls r) := by
      intro r hr
      obtain ⟨stmt, hstmt, hr⟩ := (hasks r).mp hr
      exact .ordinary hstmt hr
    obtain ⟨hnext, -, hmet⟩ := hfirst.requests hrequests
    exact ⟨hnext, fun stmt hstmt r hr => hmet r ((hasks r).mpr ⟨stmt, hstmt, hr⟩)⟩

/-- When no generated statement is left, all instances of the first round have been made. -/
theorem First.finite {m : Machine} {index : ℕ} (h : First tmpls stmts m index none)
    (hroots : Rooted tmpls stmts m) (hget : m.generated[index]? = none) :
    {p | FirstNeeded tmpls stmts p}.Finite := by
  have hmade : ∀ p, FirstNeeded tmpls stmts p → p ∈ m.made := by
    intro p hp
    induction hp with
    | ordinary hstmt hr => exact hroots _ hstmt _ hr
    | @generated q r hq hr ih =>
      rcases h.made q ih hq.isProduct with hdone | ⟨i, hi, hi'⟩ | hwalked
      · obtain ⟨out, asked, hout, hasked⟩ := hdone
        obtain ⟨out', asked', hout', hr⟩ := hr
        rw [hout] at hout'
        cases hout'
        exact hasked r hr
      · have hlt := (List.getElem?_eq_some_iff.mp hi').1
        have hle := List.getElem?_eq_none_iff.mp hget
        omega
      · cases hwalked
  exact (List.finite_toSet m.made).subset hmade

/-- A run that comes to its end has seen finitely many instances in its first round, or a failure. -/
theorem first_of_stops {m : Machine} (hcontrol : m.control = .round)
    (hordinary : m.ordinary = stmts) (hmade : m.made = []) (hgenerated : m.generated = [])
    (hstops : Stops (step tmpls) Machine.finished m) :
    {p | FirstNeeded tmpls stmts p}.Finite ∨ FirstRaises tmpls stmts := by
  by_contra hnot
  rw [not_or] at hnot
  obtain ⟨hinfinite, hraises⟩ := hnot
  refine not_stops_of_invariant (I := fun s => s = m ∨
    ∃ index, First tmpls stmts s index none ∧ Rooted tmpls stmts s) ?_ ?_ (Or.inl rfl) hstops
  · rintro s (rfl | ⟨index, hfirst, -⟩) hended
    · rw [Machine.finished, hcontrol] at hended
      cases hended
    · rw [Machine.finished, hfirst.control] at hended
      cases hended
  · rintro s (rfl | ⟨index, hfirst, hroots⟩)
    · cases hstep : step tmpls s with
      | ok s' => exact ⟨s', rfl, Or.inr ⟨0, first_start hcontrol hordinary hmade hgenerated hstep⟩⟩
      | error e =>
        rw [step, hcontrol, hordinary] at hstep
        cases hwalk : each (walk tmpls false) stmts with
        | ok out =>
          rw [hwalk] at hstep
          cases hstep
        | error e =>
          obtain ⟨stmt, hstmt, herror⟩ := each_error hwalk
          exact absurd (Or.inl ⟨stmt, hstmt, e, herror⟩) hraises
    · cases hget : s.generated[index]? with
      | none => exact absurd (hfirst.finite hroots hget) hinfinite
      | some stmt =>
        obtain ⟨p, hp, rfl⟩ := hfirst.waiting index stmt (Nat.le_refl index) hget
        cases hwalk : walk tmpls true (instanceOf tmpls p) with
        | error e => exact absurd (Or.inr ⟨p, hp, e, hwalk⟩) hraises
        | ok out =>
          obtain ⟨s', hstep, hnext, hsub, -⟩ := hfirst.next hget hwalk
          exact ⟨s', hstep, Or.inr ⟨index + 1, hnext, fun stmt hstmt r hr =>
            hsub (hroots stmt hstmt r hr)⟩⟩

/-- A machine that does not stop walks the next statement. -/
theorem First.advance {m : Machine} {index : ℕ} (h : First tmpls stmts m index none)
    (hgoing : ¬Stops (step tmpls) Machine.finished m) {stmt : Node}
    (hget : m.generated[index]? = some stmt) :
    ∃ m' out asked, walk tmpls true stmt = .ok (out, asked) ∧
      ¬Stops (step tmpls) Machine.finished m' ∧ First tmpls stmts m' (index + 1) none ∧
      (∀ r ∈ asked, product tmpls r ∈ m'.made) ∧
      ∀ i, index < i → ∀ waiting, m.generated[i]? = some waiting →
        m'.generated[i]? = some waiting := by
  cases hwalk : walk tmpls true stmt with
  | error e =>
    refine absurd (Stops.of_step (fun m' hstep => ?_)) hgoing
    rw [step, h.control] at hstep
    simp only [hget, hwalk] at hstep
    cases hstep
  | ok out =>
    obtain ⟨m', hstep, hnext, -, hmet, hkept⟩ := h.next hget hwalk
    exact ⟨m', out.1, out.2, rfl, fun hstops => hgoing (.of_next hstep hstops), hnext, hmet, hkept⟩

/-- A machine that does not stop comes to every statement that is waiting. -/
theorem First.reach {m : Machine} {index : ℕ} (h : First tmpls stmts m index none)
    (hgoing : ¬Stops (step tmpls) Machine.finished m) {i : ℕ} (hi : index ≤ i) {stmt : Node}
    (hget : m.generated[i]? = some stmt) :
    ∃ m' out asked, ¬Stops (step tmpls) Machine.finished m' ∧ First tmpls stmts m' (i + 1) none ∧
      walk tmpls true stmt = .ok (out, asked) ∧ ∀ r ∈ asked, product tmpls r ∈ m'.made := by
  induction hdist : i - index generalizing m index with
  | zero =>
    obtain rfl : index = i := by omega
    obtain ⟨m', out, asked, hwalk, hgoing', hnext, hmet, -⟩ := h.advance hgoing hget
    exact ⟨m', out, asked, hgoing', hnext, hwalk, hmet⟩
  | succ distance ih =>
    have hlt := (List.getElem?_eq_some_iff.mp hget).1
    obtain ⟨first, hfirst⟩ : ∃ first, m.generated[index]? = some first :=
      ⟨_, List.getElem?_eq_getElem (by omega)⟩
    obtain ⟨m', -, -, -, hgoing', hnext, -, hkept⟩ := h.advance hgoing hfirst
    exact ih hnext hgoing' (by omega) (hkept i (by omega) stmt hget) (by omega)

/-- Where a walk of the first round fails, the run ends. -/
theorem stops_of_raises {m : Machine} (hcontrol : m.control = .round)
    (hordinary : m.ordinary = stmts) (hmade : m.made = []) (hgenerated : m.generated = [])
    (hraises : FirstRaises tmpls stmts) : Stops (step tmpls) Machine.finished m := by
  by_contra hgoing
  obtain ⟨m₁, hstep⟩ : ∃ m₁, step tmpls m = .ok m₁ := by
    cases hstep : step tmpls m with
    | ok m₁ => exact ⟨m₁, rfl⟩
    | error e => exact absurd (.of_error hstep) hgoing
  have hgoing₁ : ¬Stops (step tmpls) Machine.finished m₁ :=
    fun hstops => hgoing (.of_next hstep hstops)
  obtain ⟨hfirst, hroots⟩ := first_start hcontrol hordinary hmade hgenerated hstep
  -- Each instance of the first round is made by some machine of the run.
  have hreached : ∀ p, FirstNeeded tmpls stmts p → ∃ m' index,
      ¬Stops (step tmpls) Machine.finished m' ∧ First tmpls stmts m' index none ∧ p ∈ m'.made := by
    intro p hp
    induction hp with
    | ordinary hstmt hr => exact ⟨m₁, 0, hgoing₁, hfirst, hroots _ hstmt _ hr⟩
    | @generated q r hq hr ih =>
      obtain ⟨m', index, hgoing', hfirst', hmem⟩ := ih
      obtain ⟨out, asked, hout, hr⟩ := hr
      rcases hfirst'.made q hmem hq.isProduct with hdone | ⟨i, hi, hget⟩ | hwalked
      · obtain ⟨out', asked', hout', hmet⟩ := hdone
        rw [hout] at hout'
        cases hout'
        exact ⟨m', index, hgoing', hfirst', hmet r hr⟩
      · obtain ⟨m'', out', asked', hgoing'', hfirst'', hout', hmet⟩ :=
          hfirst'.reach hgoing' hi hget
        rw [hout] at hout'
        cases hout'
        exact ⟨m'', i + 1, hgoing'', hfirst'', hmet r hr⟩
      · cases hwalked
  rcases hraises with ⟨stmt, hstmt, e, herror⟩ | ⟨p, hp, e, herror⟩
  · rw [step, hcontrol, hordinary] at hstep
    cases hwalk : each (walk tmpls false) stmts with
    | error e =>
      rw [hwalk] at hstep
      cases hstep
    | ok out =>
      obtain ⟨i, hi⟩ := List.mem_iff_getElem?.mp hstmt
      obtain ⟨out, own, -, hout⟩ := (each_ok hwalk).1 i stmt hi
      rw [herror] at hout
      cases hout
  · obtain ⟨m', index, hgoing', hfirst', hmem⟩ := hreached p hp
    rcases hfirst'.made p hmem hp.isProduct with ⟨out, asked, hout, -⟩ | ⟨i, hi, hget⟩ | hwalked
    · rw [herror] at hout
      cases hout
    · obtain ⟨m'', out, asked, -, -, hout, -⟩ := hfirst'.reach hgoing' hi hget
      rw [herror] at hout
      cases hout
    · cases hwalked

end FirstRound

end NewClLang.Monomorphization
