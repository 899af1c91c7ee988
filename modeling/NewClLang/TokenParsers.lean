import Mathlib.Algebra.Ring.Nat
import NewClLang.ExceptOutcomes

set_option autoImplicit false

/-!
# Parsers over a list of tokens

A parser has a cursor in a list of tokens, looks at the next token, moves past it, or raises. Its list
ends with a token for the end, which no parser moves past. Tokens have weights, so that a parser that
starts again on a smaller list comes to an end too.
-/
namespace NewClLang.TokenParsers
open ExceptOutcomes

section Definitions

/-- The tokens that are left, and the one before them. -/
structure Cursor (τ : Type) where
  last : Option τ
  rest : List τ

/-- `unfinished` is the failure of a loop or a recursion that has no fuel left. -/
inductive Failure (ε : Type) where
  | raised (e : ε)
  | indexError
  | unfinished

abbrev Parser (τ ε : Type) := StateT (Cursor τ) (Except (Failure ε))

variable {τ ε α β : Type}

def raise (e : ε) : Parser τ ε α := fun _ => .error (.raised e)

def peek : Parser τ ε τ := fun c =>
  match c.rest with
  | [] => .error .indexError
  | t :: _ => .ok (t, c)

def advance : Parser τ ε τ := fun c =>
  match c.rest with
  | [] => .error .indexError
  | t :: ts => .ok (t, ⟨some t, ts⟩)

/-- Where the parser is, to look further ahead or to come back. -/
def mark : Parser τ ε (Cursor τ) := fun c => .ok (c, c)

def reset (save : Cursor τ) : Parser τ ε Unit := fun _ => .ok ((), save)

/-- `try` and `except`: where the failure is caught, the cursor is where it was before. -/
def attempt (catches : ε → Bool) (p : Parser τ ε α) : Parser τ ε (Option α) := fun c =>
  match p c with
  | .ok (a, c') => .ok (some a, c')
  | .error (.raised e) => if catches e then .ok (none, c) else .error (.raised e)
  | .error e => .error e

/-- The result of a parser on tokens of its own. -/
def within (tokens : List τ) (p : Parser τ ε α) : Parser τ ε α := fun c =>
  match p ⟨none, tokens⟩ with
  | .ok (a, _) => .ok (a, c)
  | .error e => .error e

/-- A loop: each turn goes on with a new value or leaves with a result. -/
def iterate (turn : α → Parser τ ε (α ⊕ β)) : ℕ → α → Parser τ ε β
  | 0, _ => fun _ => .error .unfinished
  | fuel + 1, a => do
    let next ← turn a
    match next with
    | .inl a => iterate turn fuel a
    | .inr b => pure b

end Definitions

section Streams

/-- Which token is the end, what the others weigh, and what is known of each and of their order. -/
structure Stream (τ : Type) where
  isEnd : τ → Bool
  weight : τ → ℕ
  fine : τ → Prop
  before : τ → τ → Prop

variable {τ : Type} (S : Stream τ)

def Stream.total (ts : List τ) : ℕ := (ts.map fun t => S.weight t + 1).sum

/-- The last token is the end, and no other is. -/
inductive Closed : List τ → Prop where
  | last {t : τ} (h : S.isEnd t = true) : Closed [t]
  | more {t : τ} {ts : List τ} (h : S.isEnd t = false) (hts : Closed ts) : Closed (t :: ts)

/-- The cursor is among these tokens. -/
structure Good (ts : List τ) (c : Cursor τ) : Prop where
  closed : Closed S c.rest
  suffix : c.rest <:+ ts
  fine : ∀ t ∈ c.rest, S.fine t
  ordered : c.rest.Pairwise S.before

variable {S} {k : ℕ} {c : Cursor τ} {t : τ} {ts us : List τ}

theorem total_cons (t : τ) (ts : List τ) : S.total (t :: ts) = S.weight t + 1 + S.total ts := by
  rw [Stream.total, List.map_cons, List.sum_cons, Stream.total]

theorem total_tail_le (ts : List τ) : S.total ts.tail ≤ S.total ts := by
  cases ts with
  | nil => exact Nat.le_refl _
  | cons t ts =>
    rw [List.tail_cons, total_cons]
    omega

theorem total_tail (h : S.total ts ≤ k + 1) : S.total ts.tail ≤ k := by
  cases ts with
  | nil => exact Nat.zero_le k
  | cons t ts =>
    rw [total_cons] at h
    rw [List.tail_cons]
    omega

theorem Good.mono (h : Good S us c) (hsub : us <:+ ts) : Good S ts c :=
  ⟨h.closed, h.suffix.trans hsub, h.fine, h.ordered⟩

theorem Good.of_tail (h : Good S ts.tail c) : Good S ts c := h.mono (List.tail_suffix ts)

/-- The tokens that are left are the best bound. -/
theorem Good.self (h : Good S ts c) : Good S c.rest c :=
  ⟨h.closed, List.suffix_refl _, h.fine, h.ordered⟩

theorem Good.head (h : Good S ts c) : ∃ t us, c.rest = t :: us := by
  obtain ⟨last, rest⟩ := c
  cases h.closed with
  | last _ => exact ⟨_, _, rfl⟩
  | more _ _ => exact ⟨_, _, rfl⟩

theorem Good.fine_head (h : Good S ts c) (hrest : c.rest = t :: us) : S.fine t :=
  h.fine t (hrest ▸ List.mem_cons_self)

theorem total_suffix (h : us <:+ ts) : S.total us ≤ S.total ts := by
  obtain ⟨front, rfl⟩ := h
  rw [Stream.total, Stream.total, List.map_append, List.sum_append]
  omega

theorem Good.weight_lt (h : Good S ts c) (hrest : c.rest = t :: us) : S.weight t < S.total ts := by
  have hle := total_suffix (S := S) h.suffix
  rw [hrest, total_cons] at hle
  omega

theorem Good.ne_nil (h : Good S ts c) : ts ≠ [] := by
  rintro rfl
  obtain ⟨t, us, hrest⟩ := h.head
  have hsuffix := h.suffix
  rw [hrest] at hsuffix
  cases List.suffix_nil.mp hsuffix

theorem suffix_tail (h : t :: us <:+ ts) : us <:+ ts.tail := by
  obtain ⟨front, rfl⟩ := h
  cases front with
  | nil => exact List.suffix_refl us
  | cons u front => exact ⟨front ++ [t], by simp⟩

theorem Closed.change {S' : Stream τ} (h : Closed S ts) (hend : S.isEnd = S'.isEnd) :
    Closed S' ts := by
  induction h with
  | last h => exact .last (hend ▸ h)
  | more h _ ih => exact .more (hend ▸ h) ih

/-- What is known of the tokens may be changed for something else that is known of them. -/
theorem Good.change {S' : Stream τ} (h : Good S ts c) (hend : S.isEnd = S'.isEnd)
    (hfine : ∀ t ∈ ts, S.fine t → S'.fine t) (hbefore : S.before = S'.before) : Good S' ts c :=
  ⟨h.closed.change hend, h.suffix, fun t ht => hfine t (h.suffix.subset ht) (h.fine t ht),
    hbefore ▸ h.ordered⟩

theorem Good.next (h : Good S ts c) (hrest : c.rest = t :: us) (hend : S.isEnd t = false) :
    Good S ts.tail ⟨some t, us⟩ := by
  have hclosed := h.closed
  have hsuffix := h.suffix
  have hfine := h.fine
  have hordered := h.ordered
  rw [hrest] at hclosed hsuffix hfine hordered
  refine ⟨?_, ?_, fun u hu => hfine u (List.mem_cons_of_mem t hu), hordered.of_cons⟩
  · cases hclosed with
    | last htrue =>
      rw [hend] at htrue
      cases htrue
    | more _ hts => exact hts
  · exact suffix_tail hsuffix

end Streams

section Outcomes
variable {τ ε α β : Type} {E : Failure ε → Prop} {c : Cursor τ} {Q : α → Cursor τ → Prop}
  {R : β → Cursor τ → Prop} {p : Parser τ ε α} {f : α → Parser τ ε β}

/-- From the cursor on, the parser gives a result and a cursor with `Q`, or fails as is allowed. -/
def Gives (E : Failure ε → Prop) (c : Cursor τ) (p : Parser τ ε α) (Q : α → Cursor τ → Prop) :
    Prop :=
  Ends E (fun r => Q r.1 r.2) (p c)

theorem Gives.bind (h : Gives E c p Q) (hf : ∀ a c', Q a c' → Gives E c' (f a) R) :
    Gives E c (p >>= f) R :=
  Ends.bind h (fun r hr => hf r.1 r.2 hr)

theorem Gives.mono {Q' : α → Cursor τ → Prop} (h : Gives E c p Q)
    (hQ : ∀ a c', Q a c' → Q' a c') : Gives E c p Q' :=
  Ends.mono h (fun r hr => hQ r.1 r.2 hr)

theorem gives_mark {f : Cursor τ → Parser τ ε β} (h : Gives E c (f c) R) :
    Gives E c (mark >>= f) R := h

theorem gives_reset {save : Cursor τ} {f : Unit → Parser τ ε β} (h : Gives E save (f ()) R) :
    Gives E c (reset save >>= f) R := h

theorem gives_attempt {catches : ε → Bool} (h : Gives E c p Q) :
    Gives E c (attempt catches p) (fun r c' => (∀ a ∈ r, Q a c') ∧ (r = none → c' = c)) := by
  unfold Gives at h
  unfold Gives attempt
  generalize p c = x at h
  cases h with
  | @ok r hr =>
    obtain ⟨a, c'⟩ := r
    exact .ok ⟨fun b hb => Option.mem_some_iff.mp hb ▸ hr, fun hnone => by cases hnone⟩
  | @error e he =>
    cases e with
    | raised e =>
      dsimp only
      split
      · exact .ok ⟨fun b hb => absurd hb (Option.not_mem_none b), fun _ => rfl⟩
      · exact .error he
    | indexError => exact .error he
    | unfinished => exact .error he

theorem gives_within {tokens : List τ} (h : Gives E ⟨none, tokens⟩ p Q) :
    Gives E c (within tokens p) (fun a c' => c' = c ∧ ∃ c'', Q a c'') := by
  unfold Gives at h
  unfold Gives within
  generalize p ⟨none, tokens⟩ = x at h
  cases h with
  | @ok r hr =>
    obtain ⟨a, c'⟩ := r
    exact .ok ⟨rfl, c', hr⟩
  | error he => exact .error he

end Outcomes

section Runs
variable {τ ε α β : Type} {c c' : Cursor τ} {p : Parser τ ε α} {f : α → Parser τ ε β} {a : α}
  {turn : α → Parser τ ε (α ⊕ β)} {fuel : ℕ}

/-- Where the first part has its result, what is left is the rest. -/
theorem bind_run (h : p c = .ok (a, c')) : (p >>= f) c = f a c' := by
  change (p c >>= fun r => f r.1 r.2) = f a c'
  rw [h]
  rfl

theorem peek_run {f : τ → Parser τ ε β} (last : Option τ) (t : τ) (ts : List τ) :
    (peek >>= f) ⟨last, t :: ts⟩ = f t ⟨last, t :: ts⟩ := rfl

theorem mark_run {f : Cursor τ → Parser τ ε β} (c : Cursor τ) : (mark >>= f) c = f c c := rfl

theorem advance_run {f : τ → Parser τ ε β} (last : Option τ) (t : τ) (ts : List τ) :
    (advance >>= f) ⟨last, t :: ts⟩ = f t ⟨some t, ts⟩ := rfl

theorem iterate_again {b : α} (h : turn a c = .ok (.inl b, c')) :
    iterate turn (fuel + 1) a c = iterate turn fuel b c' := by
  rw [iterate, bind_run h]

theorem iterate_leave {b : β} (h : turn a c = .ok (.inr b, c')) :
    iterate turn (fuel + 1) a c = .ok (b, c') := by
  rw [iterate, bind_run h]
  rfl

end Runs

section Rules
variable {τ ε α β : Type} {S : Stream τ} {E : Failure ε → Prop} {k : ℕ} {ts : List τ}
  {P : List τ → Prop} {Q : α → Prop} {R : β → Prop} {p : Parser τ ε α} {f : α → Parser τ ε β}

/-- From any cursor among tokens of a bounded weight that has tokens with `P` in front of it, the
parser gives a result with `Q` behind a token. -/
def Consumes (S : Stream τ) (E : Failure ε → Prop) (k : ℕ) (P : List τ → Prop) (Q : α → Prop)
    (p : Parser τ ε α) : Prop :=
  ∀ ts c, S.total ts ≤ k → Good S ts c → P c.rest →
    Gives E c p (fun a c' => Good S ts.tail c' ∧ Q a)

/-- As `Consumes`, where the parser may stay. -/
def Keeps (S : Stream τ) (E : Failure ε → Prop) (k : ℕ) (P : List τ → Prop) (Q : α → Prop)
    (p : Parser τ ε α) : Prop :=
  ∀ ts c, S.total ts ≤ k → Good S ts c → P c.rest → Gives E c p (fun a c' => Good S ts c' ∧ Q a)

theorem Consumes.keeps (h : Consumes S E k P Q p) : Keeps S E k P Q p :=
  fun ts c hk hc hP => (h ts c hk hc hP).mono (fun _ _ ha => ⟨ha.1.of_tail, ha.2⟩)

theorem Consumes.lower (h : Consumes S E (k + 1) P Q p) : Consumes S E k P Q p :=
  fun ts c hk hc hP => h ts c (Nat.le_succ_of_le hk) hc hP

theorem Consumes.mono {Q' : α → Prop} (h : Consumes S E k P Q p) (hQ : ∀ a, Q a → Q' a) :
    Consumes S E k P Q' p :=
  fun ts c hk hc hP => (h ts c hk hc hP).mono (fun a _ ha => ⟨ha.1, hQ a ha.2⟩)

theorem Keeps.mono {Q' : α → Prop} (h : Keeps S E k P Q p) (hQ : ∀ a, Q a → Q' a) :
    Keeps S E k P Q' p :=
  fun ts c hk hc hP => (h ts c hk hc hP).mono (fun a _ ha => ⟨ha.1, hQ a ha.2⟩)

theorem Keeps.map {g : α → β} (h : Keeps S E k P Q p) (hg : ∀ a, Q a → R (g a)) :
    Keeps S E k P R (g <$> p) := by
  rw [← bind_pure_comp]
  exact fun ts c hk hc hP => (h ts c hk hc hP).bind (fun a _ ha => .ok ⟨ha.1, hg a ha.2⟩)

theorem Consumes.map {g : α → β} (h : Consumes S E k P Q p) (hg : ∀ a, Q a → R (g a)) :
    Consumes S E k P R (g <$> p) := by
  rw [← bind_pure_comp]
  exact fun ts c hk hc hP => (h ts c hk hc hP).bind (fun a _ ha => .ok ⟨ha.1, hg a ha.2⟩)

theorem Consumes.weaken {P' : List τ → Prop} (h : Consumes S E k P Q p) (hP : ∀ l, P' l → P l) :
    Consumes S E k P' Q p :=
  fun ts c hk hc hP' => h ts c hk hc (hP _ hP')

theorem Keeps.weaken {P' : List τ → Prop} (h : Keeps S E k P Q p) (hP : ∀ l, P' l → P l) :
    Keeps S E k P' Q p :=
  fun ts c hk hc hP' => h ts c hk hc (hP _ hP')

theorem keeps_pure {a : α} (h : Q a) : Keeps S E k P Q (pure a : Parser τ ε α) :=
  fun _ _ _ hc _ => .ok ⟨hc, h⟩

theorem consumes_raise {e : ε} (h : E (.raised e)) : Consumes S E k P Q (raise e : Parser τ ε α) :=
  fun _ _ _ _ _ => .error h

/-- What comes behind a token has less to do. -/
theorem Consumes.bind (hp : Consumes S E (k + 1) P Q p)
    (hf : ∀ a, Q a → Keeps S E k (fun _ => True) R (f a)) : Consumes S E (k + 1) P R (p >>= f) :=
  fun ts c hk hc hP => (hp ts c hk hc hP).bind
    (fun a c' ha => hf a ha.2 ts.tail c' (total_tail hk) ha.1 trivial)

theorem Consumes.bind_keeps (hp : Consumes S E k P Q p)
    (hf : ∀ a, Q a → Keeps S E k (fun _ => True) R (f a)) : Consumes S E k P R (p >>= f) :=
  fun ts c hk hc hP => (hp ts c hk hc hP).bind
    (fun a c' ha => hf a ha.2 ts.tail c' (Nat.le_trans (total_tail_le ts) hk) ha.1 trivial)

theorem Keeps.bind (hp : Keeps S E k P Q p)
    (hf : ∀ a, Q a → Keeps S E k (fun _ => True) R (f a)) : Keeps S E k P R (p >>= f) :=
  fun ts c hk hc hP => (hp ts c hk hc hP).bind (fun a c' ha => hf a ha.2 ts c' hk ha.1 trivial)

theorem Keeps.bind_consumes (hp : Keeps S E k P Q p)
    (hf : ∀ a, Q a → Consumes S E k (fun _ => True) R (f a)) : Consumes S E k P R (p >>= f) :=
  fun ts c hk hc hP => (hp ts c hk hc hP).bind (fun a c' ha => hf a ha.2 ts c' hk ha.1 trivial)

theorem gives_peek {c : Cursor τ} {R : β → Cursor τ → Prop} {f : τ → Parser τ ε β} (hc : Good S ts c)
    (h : ∀ t us, c.rest = t :: us → Gives E c (f t) R) : Gives E c (peek >>= f) R := by
  obtain ⟨t, us, hrest⟩ := hc.head
  have hpeek : Gives E c (peek : Parser τ ε τ) (fun u c' => u = t ∧ c' = c) := by
    rw [Gives, peek, hrest]
    exact .ok ⟨rfl, rfl⟩
  refine hpeek.bind (fun u c' hu => ?_)
  rw [hu.1, hu.2]
  exact h t us hrest

theorem keeps_peek {f : τ → Parser τ ε β}
    (h : ∀ t us, P (t :: us) → Keeps S E k (fun l => l = t :: us) R (f t)) :
    Keeps S E k P R (peek >>= f) :=
  fun ts c hk hc hP => gives_peek hc (fun t us hrest => h t us (hrest ▸ hP) ts c hk hc hrest)

theorem consumes_peek {f : τ → Parser τ ε β}
    (h : ∀ t us, P (t :: us) → Consumes S E k (fun l => l = t :: us) R (f t)) :
    Consumes S E k P R (peek >>= f) :=
  fun ts c hk hc hP => gives_peek hc (fun t us hrest => h t us (hrest ▸ hP) ts c hk hc hrest)

/-- To move past a token takes that it is not the end. What is known of the others stays. -/
theorem gives_advance {c : Cursor τ} {R : β → Cursor τ → Prop} {f : τ → Parser τ ε β} {t : τ}
    {us : List τ} (hc : Good S ts c) (hrest : c.rest = t :: us) (hend : S.isEnd t = false)
    (h : Good S ts.tail ⟨some t, us⟩ → Gives E ⟨some t, us⟩ (f t) R) :
    Gives E c (advance >>= f) R := by
  have hadvance : Gives E c (advance : Parser τ ε τ) (fun u c' => u = t ∧ c' = ⟨some t, us⟩) := by
    rw [Gives, advance, hrest]
    exact .ok ⟨rfl, rfl⟩
  refine hadvance.bind (fun u c' hu => ?_)
  rw [hu.1, hu.2]
  exact h (hc.next hrest hend)

theorem consumes_advance {f : τ → Parser τ ε β} (hend : ∀ t us, P (t :: us) → S.isEnd t = false)
    (h : ∀ t us, P (t :: us) → S.fine t → Keeps S E k (fun l => l = us) R (f t)) :
    Consumes S E (k + 1) P R (advance >>= f) := by
  intro ts c hk hc hP
  obtain ⟨t, us, hrest⟩ := hc.head
  have hhead : P (t :: us) := hrest ▸ hP
  exact gives_advance hc hrest (hend t us hhead)
    (fun hnext => h t us hhead (hc.fine_head hrest) ts.tail _ (total_tail hk) hnext rfl)

theorem keeps_advance {f : τ → Parser τ ε β} (hend : ∀ t us, P (t :: us) → S.isEnd t = false)
    (h : ∀ t us, P (t :: us) → S.fine t → Keeps S E k (fun l => l = us) R (f t)) :
    Keeps S E k P R (advance >>= f) := by
  intro ts c hk hc hP
  obtain ⟨t, us, hrest⟩ := hc.head
  have hhead : P (t :: us) := hrest ▸ hP
  refine gives_advance hc hrest (hend t us hhead) (fun hnext => ?_)
  have hle : S.total ts.tail ≤ k := Nat.le_trans (total_tail_le ts) hk
  exact (h t us hhead (hc.fine_head hrest) ts.tail _ hle hnext rfl).mono
    (fun _ _ hb => ⟨hb.1.of_tail, hb.2⟩)

theorem keeps_mark {f : Cursor τ → Parser τ ε β}
    (h : ∀ c, P c.rest → Keeps S E k (fun l => l = c.rest) R (f c)) :
    Keeps S E k P R (mark >>= f) :=
  fun ts c hk hc hP => h c hP ts c hk hc rfl

theorem consumes_mark {f : Cursor τ → Parser τ ε β}
    (h : ∀ c, P c.rest → Consumes S E k (fun l => l = c.rest) R (f c)) :
    Consumes S E k P R (mark >>= f) :=
  fun ts c hk hc hP => h c hP ts c hk hc rfl

/-- To look ahead and to come back. -/
theorem keeps_ahead {f : α → Parser τ ε β} (hp : Keeps S E k P Q p)
    (hf : ∀ a, Q a → Keeps S E k P R (f a)) :
    Keeps S E k P R (mark >>= fun save => p >>= fun a => reset save >>= fun _ => f a) := by
  intro ts c hk hc hP
  have hrest : Gives E c (p >>= fun a => reset c >>= fun _ => f a)
      (fun b c' => Good S ts c' ∧ R b) :=
    (hp ts c hk hc hP).bind (fun a _ ha => hf a ha.2 ts c hk hc hP)
  exact hrest

/-- What a turn of a loop leaves: a value to go on with, behind a token, or the result. -/
def Turned (S : Stream τ) (ts : List τ) (I : α → Prop) (Q : β → Prop) (r : α ⊕ β)
    (c : Cursor τ) : Prop :=
  match r with
  | .inl a => Good S ts.tail c ∧ I a
  | .inr b => Good S ts c ∧ Q b

/-- A turn of a loop with an invariant. -/
def Turns (S : Stream τ) (E : Failure ε → Prop) (k : ℕ) (P : List τ → Prop) (I : α → Prop)
    (Q : β → Prop) (p : Parser τ ε (α ⊕ β)) : Prop :=
  ∀ ts c, S.total ts ≤ k → Good S ts c → P c.rest → Gives E c p (Turned S ts I Q)

theorem turns_peek {I : α → Prop} {f : τ → Parser τ ε (α ⊕ β)}
    (h : ∀ t us, P (t :: us) → Turns S E k (fun l => l = t :: us) I R (f t)) :
    Turns S E k P I R (peek >>= f) :=
  fun ts c hk hc hP => gives_peek hc (fun t us hrest => h t us (hrest ▸ hP) ts c hk hc hrest)

theorem turns_leave {I : α → Prop} {b : β} (h : R b) :
    Turns S E k P I R (pure (.inr b) : Parser τ ε (α ⊕ β)) :=
  fun _ _ _ hc _ => .ok ⟨hc, h⟩

theorem Consumes.turns {I : α → Prop} {p : Parser τ ε (α ⊕ β)}
    (h : Consumes S E k P (Sum.elim I R) p) : Turns S E k P I R p := by
  intro ts c hk hc hP
  refine (h ts c hk hc hP).mono (fun r c' hr => ?_)
  cases r with
  | inl a => exact hr
  | inr b => exact ⟨hr.1.of_tail, hr.2⟩

theorem keeps_iterate {turn : α → Parser τ ε (α ⊕ β)} {I : α → Prop} {fuel : ℕ} {a : α}
    (hfuel : k ≤ fuel) (ha : I a) (hturn : ∀ a, I a → Turns S E k (fun _ => True) I R (turn a)) :
    Keeps S E k P R (iterate turn fuel a) := by
  intro ts c hk hc hP
  have hbound : S.total ts ≤ fuel := Nat.le_trans hk hfuel
  clear hfuel hP
  induction fuel generalizing ts c a with
  | zero =>
    obtain ⟨t, us, hrest⟩ := hc.head
    have hlt := hc.weight_lt hrest
    omega
  | succ fuel ih =>
    rw [iterate]
    refine (hturn a ha ts c hk hc trivial).bind (fun r c' hr => ?_)
    cases r with
    | inl a' =>
      have hle : S.total ts.tail ≤ k := Nat.le_trans (total_tail_le ts) hk
      exact (ih hr.2 ts.tail c' hle hr.1 (total_tail hbound)).mono
        (fun b c'' hb => ⟨hb.1.of_tail, hb.2⟩)
    | inr b => exact .ok hr

end Rules

end NewClLang.TokenParsers
