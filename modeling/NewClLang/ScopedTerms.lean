import NewClLang.RoseTrees

set_option autoImplicit false

/-!
# Terms with local names

Trees in which some labels read, declare or assign a local name, and the other labels mean anything
that reaches the locals through its children alone. A name may be replaced by a term, which is then
evaluated where the name was read.
-/
namespace NewClLang.ScopedTerms
open RoseTrees

/-- What a label does with names. `assign`: the first child is written to when it reads a name;
    `lambda`: the children are the body of a function; `block`: the children are evaluated in order, and
    what they declare is in scope until the end of the block; `each`: a child has the names that
    belong to it in scope. -/
inductive Role where
  | read (name : String)
  | declare (name : String)
  | assign
  | lambda (params : List String)
  | block
  | each (names : List (List String))

/-- The role of a label with so many children, and the names that it reads itself. -/
structure Grammar (κ : Type*) where
  role : κ → ℕ → Role
  looked : κ → List String

section Syntax
variable {κ : Type*} (G : Grammar κ)

def declared : RoseTree κ → List String
  | .node label children =>
    match G.role label children.length with
    | .declare name => [name]
    | _ => []

/-- The name that an assignment with these children writes to. -/
def targetName : List (RoseTree κ) → Option String
  | [] => none
  | .node label children :: _ =>
    match G.role label children.length with
    | .read name => some name
    | _ => none

mutual

/-- Terms in the place of names, except where a function has a parameter of the name. -/
def subst (terms : List (String × RoseTree κ)) : RoseTree κ → RoseTree κ
  | .node label children =>
    match G.role label children.length with
    | .read name =>
      match terms.lookup name with
      | some term => term
      | none => .node label (substAll terms children)
    | .lambda params =>
      .node label (substAll (terms.filter (fun entry => !params.contains entry.1)) children)
    | _ => .node label (substAll terms children)

def substAll (terms : List (String × RoseTree κ)) : List (RoseTree κ) → List (RoseTree κ)
  | [] => []
  | t :: ts => subst terms t :: substAll terms ts

end

theorem length_substAll (terms : List (String × RoseTree κ)) (ts : List (RoseTree κ)) :
    (substAll G terms ts).length = ts.length := by
  induction ts with
  | nil => rfl
  | cons t ts ih => rw [substAll, List.length_cons, List.length_cons, ih]

end Syntax

/-- The local names, the innermost ones first. -/
abbrev Locals (V : Type) := List (String × V)

/-- The outcomes of a computation: the value, the locals and the world after it. -/
abbrev Run (τ W V : Type) := τ → W → V → τ → W → Prop

section Runs
variable {τ τ' W V : Type}

/-- An outcome of `c` is one of `c'` from related locals in a world in which `holds`, and leaves
    related locals in such a world. -/
def Sim (holds : W → Prop) (R R' : τ → τ' → Prop) (c : Run τ W V) (c' : Run τ' W V) : Prop :=
  ∀ t t' w v s u, R t t' → holds w → c t w v s u → holds u ∧ ∃ s', R' s s' ∧ c' t' w v s' u

/-- The computation, with a change of the locals after it. -/
def after (f : V → τ → τ) (c : Run τ W V) : Run τ W V :=
  fun t w v s u => ∃ s₁, c t w v s₁ u ∧ s = f v s₁

/-- The computation with names in scope that are bound to values. -/
def binding (names : List String) (c : Run (Locals V) W V) (vs : List V) : Run (Locals V) W V :=
  fun t w v s u => vs.length = names.length ∧
    ∃ s₁, c (names.zip vs ++ t) w v s₁ u ∧ s = s₁.drop (s₁.length - t.length)

/-- One computation after the other, until one stops. The value is the last one. -/
def seq (stops : V → Bool) : V → List (Run τ W V) → Run τ W V
  | last, [] => fun t w v s u => v = last ∧ s = t ∧ u = w
  | _, c :: cs => fun t w v s u =>
    ∃ v₁ t₁ w₁, c t w v₁ t₁ w₁ ∧
      if stops v₁ then v = v₁ ∧ s = t₁ ∧ u = w₁ else seq stops v₁ cs t₁ w₁ v s u

/-- A function with its locals as they are now. -/
def body (params : List String) (c : Run (Locals V) W V) (t : Locals V) (vs : List V) (w : W) (v : V)
    (u : W) : Prop :=
  vs.length = params.length ∧ ∃ s, c (params.zip vs ++ t) w v s u

/-- Assignment to the innermost local of the name. -/
def write (name : String) (v : V) : Locals V → Locals V
  | [] => []
  | (other, u) :: rest =>
    if other = name then (other, v) :: rest else (other, u) :: write name v rest

end Runs

/-- What the labels mean: an operation on what the children compute, which passes them values for the
    names that it binds for them; the making of a function; the names that are not local; and which
    values stop the computation of what comes after. An operation is given the values of the names
    that the label reads. -/
structure Meaning (κ : Type*) (W V : Type) where
  op : {τ : Type} → κ → List (Option V) → List (List V → Run τ W V) → Run τ W V
  closure : κ → (List V → W → V → W → Prop) → W → V → W → Prop
  global : String → Option V
  stops : V → Bool
  unit : V
  natural : ∀ {τ τ' : Type} (R : τ → τ' → Prop) (label : κ) (values : List (Option V))
    (cs : List (List V → Run τ W V)) (cs' : List (List V → Run τ' W V)),
    List.Forall₂ (fun c c' => ∀ vs, Sim (fun _ => True) R R (c vs) (c' vs)) cs cs' →
      Sim (fun _ => True) R R (op label values cs) (op label values cs')

section Evaluation
variable {κ : Type*} {W V : Type} (G : Grammar κ) (M : Meaning κ W V)

def Meaning.value (t : Locals V) (name : String) : Option V := (t.lookup name).or (M.global name)

def operation (label : κ) (names : List (List String)) (cs : List (Run (Locals V) W V)) :
    Run (Locals V) W V :=
  fun t => M.op label ((G.looked label).map (M.value t)) (List.zipWith binding names cs) t

/-- The change that an assignment makes. -/
def assigned (target : Option String) (v : V) (s : Locals V) : Locals V :=
  match target with
  | some name => if M.stops v then s else write name v s
  | none => s

mutual

def eval : RoseTree κ → Run (Locals V) W V
  | .node label children =>
    match G.role label children.length with
    | .read name => fun t w v s u => M.value t name = some v ∧ s = t ∧ u = w
    | .declare name =>
      after (fun v s => (name, v) :: s)
        (operation G M label (List.replicate children.length []) (evalAll children))
    | .assign =>
      after (assigned M (targetName G children))
        (operation G M label (List.replicate children.length []) (evalAll children))
    | .lambda params => fun t w v s u =>
      M.closure label (body params (seq M.stops M.unit (evalAll children)) t) w v u ∧ s = t
    | .block => binding [] (seq M.stops M.unit (evalAll children)) []
    | .each names => operation G M label names (evalAll children)

def evalAll : List (RoseTree κ) → List (Run (Locals V) W V)
  | [] => []
  | t :: ts => eval t :: evalAll ts

end

/-- What a label means keeps `holds`, when its children do. -/
def Meaning.Keeps (holds : W → Prop) (label : κ) : Prop :=
  ∀ {τ τ' : Type} (R : τ → τ' → Prop) (values : List (Option V)) (cs : List (List V → Run τ W V))
    (cs' : List (List V → Run τ' W V)),
    List.Forall₂ (fun c c' => ∀ vs, Sim holds R R (c vs) (c' vs)) cs cs' →
      Sim holds R R (M.op label values cs) (M.op label values cs')

def Meaning.KeepsClosure (holds : W → Prop) (label : κ) : Prop :=
  ∀ b w v u, holds w → M.closure label b w v u → holds u

end Evaluation

section Relations
variable {W V : Type}

/-- The same values of the names in `bound`, over other locals. -/
def Over (C P : Locals V) (bound : List String) (t t' : Locals V) : Prop :=
  ∃ inner : Locals V, inner.map Prod.fst = bound ∧ t = inner ++ C ∧ t' = inner ++ P

/-- The same values of more names than those in `bound`. -/
def Beyond (C P : Locals V) (bound : List String) (t t' : Locals V) : Prop :=
  ∃ inner : Locals V, bound <:+ inner.map Prod.fst ∧ t = inner ++ C ∧ t' = inner ++ P

variable {C P : Locals V} {bound names : List String} {holds : W → Prop} {t t' : Locals V}

theorem Over.swap (h : Over C P bound t t') : Over P C bound t' t := by
  obtain ⟨inner, hinner, ht, ht'⟩ := h
  exact ⟨inner, hinner, ht', ht⟩

theorem Beyond.swap (h : Beyond C P bound t t') : Beyond P C bound t' t := by
  obtain ⟨inner, hinner, ht, ht'⟩ := h
  exact ⟨inner, hinner, ht', ht⟩

theorem Over.beyond (h : Over C P (names ++ bound) t t') : Beyond C P bound t t' := by
  obtain ⟨inner, hinner, ht, ht'⟩ := h
  exact ⟨inner, hinner ▸ List.suffix_append names bound, ht, ht'⟩

theorem Beyond.mono (h : Beyond C P (names ++ bound) t t') : Beyond C P bound t t' := by
  obtain ⟨inner, hinner, ht, ht'⟩ := h
  exact ⟨inner, (List.suffix_append names bound).trans hinner, ht, ht'⟩

theorem Over.bind (h : Over C P bound t t') {vs : List V} (hlength : vs.length = names.length) :
    Over C P (names ++ bound) (names.zip vs ++ t) (names.zip vs ++ t') := by
  obtain ⟨inner, hinner, rfl, rfl⟩ := h
  refine ⟨names.zip vs ++ inner, ?_, (List.append_assoc _ _ _).symm, (List.append_assoc _ _ _).symm⟩
  rw [List.map_append, hinner, List.map_fst_zip (Nat.le_of_eq hlength.symm)]

theorem Over.push (h : Over C P bound t t') (name : String) (v : V) :
    Over C P (name :: bound) ((name, v) :: t) ((name, v) :: t') := by
  obtain ⟨inner, hinner, rfl, rfl⟩ := h
  exact ⟨(name, v) :: inner, congrArg _ hinner, rfl, rfl⟩

theorem drop_over {inner : Locals V} {n : ℕ} (h : bound <:+ inner.map Prod.fst)
    (hn : n = bound.length) (C : Locals V) :
    (inner ++ C).drop ((inner ++ C).length - (n + C.length)) = inner.drop (inner.length - n) ++ C ∧
      (inner.drop (inner.length - n)).map Prod.fst = bound := by
  subst hn
  constructor
  · rw [List.length_append, Nat.add_sub_add_right, List.drop_append_of_le_length (Nat.sub_le _ _)]
  · have hdrop := List.suffix_iff_eq_drop.mp h
    rw [List.length_map] at hdrop
    rw [List.map_drop, ← hdrop]

/-- What was declared in the meantime is out of scope again. -/
theorem Beyond.drop {s s' : Locals V} (h : Over C P bound t t') (hs : Beyond C P bound s s') :
    Over C P bound (s.drop (s.length - t.length)) (s'.drop (s'.length - t'.length)) := by
  obtain ⟨inner, hinner, rfl, rfl⟩ := h
  obtain ⟨inner', hinner', rfl, rfl⟩ := hs
  have hn : inner.length = bound.length := by rw [← hinner, List.length_map]
  obtain ⟨hC, hbound⟩ := drop_over hinner' hn C
  obtain ⟨hP, -⟩ := drop_over hinner' hn P
  refine ⟨inner'.drop (inner'.length - inner.length), hbound, ?_, ?_⟩
  · have hlength : (inner ++ C).length = inner.length + C.length := List.length_append
    rw [hlength, hC]
  · have hlength : (inner ++ P).length = inner.length + P.length := List.length_append
    rw [hlength, hP]

theorem write_append {name : String} {inner : Locals V} (h : name ∈ inner.map Prod.fst) (v : V)
    (C : Locals V) : write name v (inner ++ C) = write name v inner ++ C := by
  induction inner with
  | nil => cases h
  | cons entry inner ih =>
    obtain ⟨other, u⟩ := entry
    rw [List.cons_append, write, write]
    by_cases hname : other = name
    · rw [if_pos hname, if_pos hname, List.cons_append]
    · rw [if_neg hname, if_neg hname, List.cons_append, ih]
      exact (List.mem_cons.mp h).resolve_left (fun heq => hname heq.symm)

theorem write_names (name : String) (v : V) (s : Locals V) :
    (write name v s).map Prod.fst = s.map Prod.fst := by
  induction s with
  | nil => rfl
  | cons entry s ih =>
    obtain ⟨other, u⟩ := entry
    rw [write]
    split
    · rfl
    · rw [List.map_cons, List.map_cons, ih]

theorem Over.write (h : Over C P bound t t') {name : String} (hname : name ∈ bound) (v : V) :
    Over C P bound (write name v t) (write name v t') := by
  obtain ⟨inner, hinner, rfl, rfl⟩ := h
  have hmem : name ∈ inner.map Prod.fst := hinner.symm ▸ hname
  exact ⟨ScopedTerms.write name v inner, (write_names name v inner).trans hinner,
    write_append hmem v C, write_append hmem v P⟩

theorem lookup_inner {inner : Locals V} {name : String} (h : name ∈ inner.map Prod.fst)
    (C P : Locals V) : (inner ++ C).lookup name = (inner ++ P).lookup name := by
  rw [List.lookup_append, List.lookup_append]
  have hsome : (inner.lookup name).isSome := by
    rw [Option.isSome_iff_ne_none, ne_eq, List.lookup_eq_none_iff]
    intro hall
    obtain ⟨entry, hentry, rfl⟩ := List.mem_map.mp h
    have hne := hall entry hentry
    simp at hne
  obtain ⟨v, hv⟩ := Option.isSome_iff_exists.mp hsome
  rw [hv, Option.some_or, Option.some_or]

theorem lookup_outer {inner : Locals V} {name : String} (h : name ∉ inner.map Prod.fst)
    (C : Locals V) : (inner ++ C).lookup name = C.lookup name := by
  rw [List.lookup_append]
  have hnone : inner.lookup name = none := by
    rw [List.lookup_eq_none_iff]
    intro entry hentry
    refine bne_iff_ne.mpr (fun heq => h ?_)
    exact heq ▸ List.mem_map_of_mem hentry
  rw [hnone, Option.none_or]

/-- A name that is bound, or that both sides know alike. -/
def Alike (C P : Locals V) (bound : List String) (name : String) : Prop :=
  name ∈ bound ∨ C.lookup name = P.lookup name

theorem Alike.lookup {name : String} (h : Alike C P bound name) (hover : Over C P bound t t') :
    t.lookup name = t'.lookup name := by
  obtain ⟨inner, rfl, rfl, rfl⟩ := hover
  by_cases hmem : name ∈ inner.map Prod.fst
  · exact lookup_inner hmem C P
  · rw [lookup_outer hmem, lookup_outer hmem]
    exact h.resolve_left hmem

end Relations

section Simulation
variable {W V : Type} {C P : Locals V} {bound names : List String} {holds : W → Prop}

theorem sim_after {τ τ' : Type} {R R' R'' : τ → τ' → Prop} {c : Run τ W V} {c' : Run τ' W V}
    {f : V → τ → τ} {f' : V → τ' → τ'} (h : Sim holds R R' c c')
    (hf : ∀ v s s', R' s s' → R'' (f v s) (f' v s')) :
    Sim holds R R'' (after f c) (after f' c') := by
  intro t t' w v s u hR hw hrun
  obtain ⟨s₁, hc, rfl⟩ := hrun
  obtain ⟨hu, s', hs', hc'⟩ := h t t' w v s₁ u hR hw hc
  exact ⟨hu, f' v s', hf v s₁ s' hs', s', hc', rfl⟩

theorem sim_binding {c c' : Run (Locals V) W V}
    (h : Sim holds (Over C P (names ++ bound)) (Beyond C P (names ++ bound)) c c') (vs : List V) :
    Sim holds (Over C P bound) (Over C P bound) (binding names c vs) (binding names c' vs) := by
  intro t t' w v s u hR hw hrun
  obtain ⟨hlength, s₁, hc, rfl⟩ := hrun
  obtain ⟨hu, s', hs', hc'⟩ := h _ _ w v s₁ u (hR.bind hlength) hw hc
  exact ⟨hu, _, hs'.mono.drop hR, hlength, s', hc', rfl⟩

theorem sim_block {c c' : Run (Locals V) W V}
    (h : Sim holds (Over C P bound) (Beyond C P bound) c c') :
    Sim holds (Over C P bound) (Over C P bound) (binding [] c []) (binding [] c' []) := by
  have hempty : Sim holds (Over C P ([] ++ bound)) (Beyond C P ([] ++ bound)) c c' := h
  exact sim_binding hempty []

theorem sim_nil (stops : V → Bool) (last : V) :
    Sim holds (Over C P bound) (Beyond C P bound) (seq stops last ([] : List (Run (Locals V) W V)))
      (seq stops last []) := by
  intro t t' w v s u hR hw hrun
  obtain ⟨rfl, rfl, rfl⟩ := hrun
  have hempty : Over C P ([] ++ bound) s t' := hR
  exact ⟨hw, t', hempty.beyond, rfl, rfl, rfl⟩

theorem sim_cons {stops : V → Bool} {c c' : Run (Locals V) W V} {cs cs' : List (Run (Locals V) W V)}
    (hc : Sim holds (Over C P bound) (Over C P (names ++ bound)) c c')
    (hcs : ∀ last, Sim holds (Over C P (names ++ bound)) (Beyond C P (names ++ bound))
      (seq stops last cs) (seq stops last cs')) (last : V) :
    Sim holds (Over C P bound) (Beyond C P bound) (seq stops last (c :: cs))
      (seq stops last (c' :: cs')) := by
  intro t t' w v s u hR hw hrun
  obtain ⟨v₁, t₁, w₁, hfirst, hrest⟩ := hrun
  obtain ⟨hw₁, t₁', hR₁, hfirst'⟩ := hc t t' w v₁ t₁ w₁ hR hw hfirst
  cases hstops : stops v₁ with
  | true =>
    rw [hstops, if_pos rfl] at hrest
    obtain ⟨rfl, rfl, rfl⟩ := hrest
    refine ⟨hw₁, t₁', hR₁.beyond, v, t₁', u, hfirst', ?_⟩
    rw [hstops, if_pos rfl]
    exact ⟨rfl, rfl, rfl⟩
  | false =>
    rw [hstops, if_neg Bool.false_ne_true] at hrest
    obtain ⟨hu, s', hs', hrest'⟩ := hcs v₁ t₁ t₁' w₁ v s u hR₁ hw₁ hrest
    refine ⟨hu, s', hs'.mono, v₁, t₁', w₁, hfirst', ?_⟩
    rw [hstops, if_neg Bool.false_ne_true]
    exact hrest'

theorem body_of_sim {params : List String} {c c' : Run (Locals V) W V} {t t' : Locals V}
    (h : Sim (fun _ => True) (Over C P (params ++ bound)) (Beyond C P (params ++ bound)) c c')
    (hR : Over C P bound t t') {vs : List V} {w : W} {v : V} {u : W}
    (hbody : body params c t vs w v u) : body params c' t' vs w v u := by
  obtain ⟨hlength, s, hc⟩ := hbody
  obtain ⟨-, s', -, hc'⟩ := h _ _ w v s u (hR.bind hlength) trivial hc
  exact ⟨hlength, s', hc'⟩

end Simulation

section Substitution
variable {κ : Type*} {W V : Type} (G : Grammar κ) (M : Meaning κ W V) (C P : Locals V)

/-- Wherever the name is read, its term gives the value that `P` has for it, and changes nothing. -/
def Steady (bound : List String) (holds : W → Prop) (name : String) (term : RoseTree κ) : Prop :=
  ∃ v, P.lookup name = some v ∧ ∀ inner : Locals V, inner.map Prod.fst = bound → ∀ w, holds w →
    ∀ v' s u, eval G M term (inner ++ C) w v' s u ↔ v' = v ∧ s = inner ++ C ∧ u = w

mutual

/-- The term means over `P` what it means over `C` after the substitution: a name that is replaced is
    not bound around the place and has a term that is steady there, any other name is bound around
    the place or known to both sides alike, and assignments are to bound names. What is in a function
    is evaluated in any world. -/
def Fits (terms : List (String × RoseTree κ)) (bound : List String) (holds : W → Prop) : RoseTree κ → Prop
  | .node label children =>
    match G.role label children.length with
    | .read name =>
      match terms.lookup name with
      | some term => name ∉ bound ∧ Steady G M C P bound holds name term
      | none => Alike C P bound name
    | .declare _ =>
      (∀ name ∈ G.looked label, Alike C P bound name) ∧ M.Keeps holds label ∧
        FitsEach terms bound holds (List.replicate children.length []) children
    | .assign =>
      (∀ name ∈ targetName G children, name ∈ bound ∧ terms.lookup name = none) ∧
        (∀ name ∈ G.looked label, Alike C P bound name) ∧ M.Keeps holds label ∧
        FitsEach terms bound holds (List.replicate children.length []) children
    | .lambda params =>
      M.KeepsClosure holds label ∧
        FitsSeq (terms.filter (fun entry => !params.contains entry.1)) (params ++ bound)
          (fun _ => True) children
    | .block => FitsSeq terms bound holds children
    | .each names =>
      (∀ name ∈ G.looked label, Alike C P bound name) ∧ M.Keeps holds label ∧
        FitsEach terms bound holds names children

def FitsEach (terms : List (String × RoseTree κ)) (bound : List String) (holds : W → Prop) :
    List (List String) → List (RoseTree κ) → Prop
  | _, [] => True
  | [], _ :: _ => True
  | names :: rest, t :: ts =>
    Fits terms (names ++ bound) holds t ∧ FitsEach terms bound holds rest ts

def FitsSeq (terms : List (String × RoseTree κ)) (bound : List String) (holds : W → Prop) :
    List (RoseTree κ) → Prop
  | [] => True
  | t :: ts => Fits terms bound holds t ∧ FitsSeq terms (declared G t ++ bound) holds ts

end

/-- The same outcomes over `C` and over `P`. -/
structure Same (holds : W → Prop) (bound bound' : List String) (c c' : Run (Locals V) W V) :
    Prop where
  forth : Sim holds (Over C P bound) (Over C P bound') c c'
  back : Sim holds (Over P C bound) (Over P C bound') c' c

/-- As `Same`, with what was declared on the way still in scope. -/
structure SameBeyond (holds : W → Prop) (bound : List String) (c c' : Run (Locals V) W V) :
    Prop where
  forth : Sim holds (Over C P bound) (Beyond C P bound) c c'
  back : Sim holds (Over P C bound) (Beyond P C bound) c' c

variable {G M C P} {terms : List (String × RoseTree κ)} {bound names : List String} {holds : W → Prop}

theorem targetName_subst {children : List (RoseTree κ)}
    (h : ∀ name ∈ targetName G children, terms.lookup name = none) :
    targetName G (substAll G terms children) = targetName G children := by
  cases children with
  | nil => rfl
  | cons t ts =>
    obtain ⟨label, children⟩ := t
    rw [substAll, subst]
    cases hrole : G.role label children.length with
    | read name =>
      have hname : targetName G (.node label children :: ts) = some name := by
        rw [targetName, hrole]
      have hlookup := h name hname
      simp only [hlookup, targetName, length_substAll, hrole]
    | _ => simp only [targetName, length_substAll, hrole]

theorem values_alike (label : κ) (hlooked : ∀ name ∈ G.looked label, Alike C P bound name)
    {t t' : Locals V} (hR : Over C P bound t t') :
    (G.looked label).map (M.value t) = (G.looked label).map (M.value t') := by
  refine List.map_congr_left (fun name hname => ?_)
  rw [Meaning.value, Meaning.value, (hlooked name hname).lookup hR]

theorem Alike.swap {name : String} (h : Alike C P bound name) : Alike P C bound name :=
  h.imp id Eq.symm

theorem sim_operation {label : κ} (hlooked : ∀ name ∈ G.looked label, Alike C P bound name)
    (hkeeps : M.Keeps holds label) {names : List (List String)} {cs cs' : List (Run (Locals V) W V)}
    (hcs : List.Forall₂
      (fun c c' => ∀ vs, Sim holds (Over C P bound) (Over C P bound) (c vs) (c' vs))
      (List.zipWith binding names cs) (List.zipWith binding names cs')) :
    Sim holds (Over C P bound) (Over C P bound) (operation G M label names cs)
      (operation G M label names cs') := by
  intro t t' w v s u hR hw hrun
  rw [operation, values_alike label hlooked hR] at hrun
  exact hkeeps (Over C P bound) _ _ _ hcs t t' w v s u hR hw hrun

/-- What the induction on a term gives for its children. -/
def Hereditary (G : Grammar κ) (M : Meaning κ W V) (C P : Locals V) (t : RoseTree κ) : Prop :=
  ∀ terms bound holds, Fits G M C P terms bound holds t →
    Same C P holds bound (declared G t ++ bound) (eval G M (subst G terms t)) (eval G M t)

theorem Same.beyond {bound' : List String} {c c' : Run (Locals V) W V}
    (h : Same C P holds bound (bound' ++ bound) c c') : SameBeyond C P holds bound c c' where
  forth t t' w v s u hR hw hrun :=
    let ⟨hu, s', hs', hc'⟩ := h.forth t t' w v s u hR hw hrun
    ⟨hu, s', hs'.beyond, hc'⟩
  back t t' w v s u hR hw hrun :=
    let ⟨hu, s', hs', hc'⟩ := h.back t t' w v s u hR hw hrun
    ⟨hu, s', hs'.beyond, hc'⟩

theorem same_each {children : List (RoseTree κ)} (ih : ∀ t ∈ children, Hereditary G M C P t)
    {names : List (List String)} (h : FitsEach G M C P terms bound holds names children) :
    List.Forall₂ (fun c c' => ∀ vs, Sim holds (Over C P bound) (Over C P bound) (c vs) (c' vs))
        (List.zipWith binding names (evalAll G M (substAll G terms children)))
        (List.zipWith binding names (evalAll G M children)) ∧
      List.Forall₂ (fun c c' => ∀ vs, Sim holds (Over P C bound) (Over P C bound) (c vs) (c' vs))
        (List.zipWith binding names (evalAll G M children))
        (List.zipWith binding names (evalAll G M (substAll G terms children))) := by
  induction children generalizing names with
  | nil =>
    rw [substAll, evalAll, List.zipWith_nil_right]
    exact ⟨List.Forall₂.nil, List.Forall₂.nil⟩
  | cons t ts iht =>
    cases names with
    | nil => exact ⟨List.Forall₂.nil, List.Forall₂.nil⟩
    | cons own rest =>
      obtain ⟨ht, hts⟩ := h
      have hsame := (ih t List.mem_cons_self terms (own ++ bound) holds ht).beyond
      obtain ⟨hforth, hback⟩ := iht (fun t' ht' => ih t' (List.mem_cons_of_mem _ ht')) hts
      rw [substAll, evalAll, evalAll, List.zipWith_cons_cons, List.zipWith_cons_cons]
      exact ⟨List.Forall₂.cons (sim_binding hsame.forth) hforth,
        List.Forall₂.cons (sim_binding hsame.back) hback⟩

theorem same_seq {children : List (RoseTree κ)} (ih : ∀ t ∈ children, Hereditary G M C P t)
    (h : FitsSeq G M C P terms bound holds children) (last : V) :
    SameBeyond C P holds bound (seq M.stops last (evalAll G M (substAll G terms children)))
      (seq M.stops last (evalAll G M children)) := by
  induction children generalizing bound last with
  | nil => exact ⟨sim_nil M.stops last, sim_nil M.stops last⟩
  | cons t ts iht =>
    obtain ⟨ht, hts⟩ := h
    have hsame := ih t List.mem_cons_self terms bound holds ht
    have hrest := iht (fun t' ht' => ih t' (List.mem_cons_of_mem _ ht')) hts
    rw [substAll, evalAll, evalAll]
    exact ⟨sim_cons hsame.forth (fun last => (hrest last).forth) last,
      sim_cons hsame.back (fun last => (hrest last).back) last⟩

theorem same_operation {label : κ} {children : List (RoseTree κ)}
    (ih : ∀ t ∈ children, Hereditary G M C P t)
    (hlooked : ∀ name ∈ G.looked label, Alike C P bound name) (hkeeps : M.Keeps holds label)
    {names : List (List String)} (h : FitsEach G M C P terms bound holds names children) :
    Same C P holds bound bound
      (operation G M label names (evalAll G M (substAll G terms children)))
      (operation G M label names (evalAll G M children)) :=
  ⟨sim_operation hlooked hkeeps (same_each ih h).1,
    sim_operation (fun name hname => (hlooked name hname).swap) hkeeps (same_each ih h).2⟩

theorem Over.assigned {target : Option String} (htarget : ∀ name ∈ target, name ∈ bound) (v : V)
    {s s' : Locals V} (h : Over C P bound s s') :
    Over C P bound (ScopedTerms.assigned M target v s) (ScopedTerms.assigned M target v s') := by
  cases target with
  | none => exact h
  | some name =>
    rw [ScopedTerms.assigned, ScopedTerms.assigned]
    split
    · exact h
    · exact h.write (htarget name rfl) v

theorem sim_lambda {label : κ} {params : List String} {c c' : Run (Locals V) W V}
    (hkeeps : M.KeepsClosure holds label)
    (h : SameBeyond C P (fun _ => True) (params ++ bound) c c') :
    Sim holds (Over C P bound) (Over C P bound)
      (fun t w v s u => M.closure label (body params c t) w v u ∧ s = t)
      (fun t w v s u => M.closure label (body params c' t) w v u ∧ s = t) := by
  rintro t t' w v s u hR hw ⟨hclosure, rfl⟩
  have hbody : body params c s = body params c' t' := by
    funext vs w₁ v₁ u₁
    exact propext ⟨body_of_sim h.forth hR, body_of_sim h.back hR.swap⟩
  refine ⟨hkeeps _ w v u hw hclosure, t', hR, ?_, rfl⟩
  rw [← hbody]
  exact hclosure

theorem SameBeyond.swap {c c' : Run (Locals V) W V} (h : SameBeyond C P holds bound c c') :
    SameBeyond P C holds bound c' c := ⟨h.back, h.forth⟩

/-- A name that is not replaced is read alike. -/
theorem sim_read {name : String} (h : Alike C P bound name) :
    Sim holds (Over C P bound) (Over C P bound)
      (fun t w v s u => M.value t name = some v ∧ s = t ∧ u = w)
      (fun t w v s u => M.value t name = some v ∧ s = t ∧ u = w) := by
  rintro t t' w v s u hR hw ⟨hvalue, rfl, rfl⟩
  refine ⟨hw, t', hR, ?_, rfl, rfl⟩
  rw [Meaning.value, ← h.lookup hR]
  exact hvalue

/-- A steady term is evaluated as the name is read. -/
theorem same_steady {name : String} {term : RoseTree κ} (hname : name ∉ bound)
    (h : Steady G M C P bound holds name term) :
    Same C P holds bound bound (eval G M term)
      (fun t w v s u => M.value t name = some v ∧ s = t ∧ u = w) := by
  obtain ⟨value, hvalue, hterm⟩ := h
  have hread : ∀ inner : Locals V, inner.map Prod.fst = bound →
      M.value (inner ++ P) name = some value := by
    rintro inner rfl
    rw [Meaning.value, lookup_outer hname, hvalue, Option.some_or]
  constructor
  · rintro t t' w v s u ⟨inner, hinner, rfl, rfl⟩ hw hrun
    obtain ⟨rfl, rfl, rfl⟩ := (hterm inner hinner w hw v s u).mp hrun
    exact ⟨hw, inner ++ P, ⟨inner, hinner, rfl, rfl⟩, hread inner hinner, rfl, rfl⟩
  · rintro t t' w v s u ⟨inner, hinner, rfl, rfl⟩ hw ⟨hv, rfl, rfl⟩
    rw [hread inner hinner] at hv
    cases hv
    exact ⟨hw, inner ++ C, ⟨inner, hinner, rfl, rfl⟩,
      (hterm inner hinner _ hw _ _ _).mpr ⟨rfl, rfl, rfl⟩⟩

/-- Substitution: a term that fits has the outcomes over `P` that it has over `C` with the names
    replaced. -/
theorem same_subst (t : RoseTree κ) : Hereditary G M C P t := by
  induction t using RoseTree.induct with
  | hnode label children ih =>
    intro terms bound holds hfits
    rw [Fits] at hfits
    rw [subst, declared]
    cases hrole : G.role label children.length with
    | read name =>
      rw [hrole] at hfits
      dsimp only at hfits ⊢
      have hnode : eval G M (.node label children) =
          fun t w v s u => M.value t name = some v ∧ s = t ∧ u = w := by
        rw [eval, hrole]
      cases hlookup : terms.lookup name with
      | some term =>
        rw [hlookup] at hfits
        rw [hnode]
        exact same_steady hfits.1 hfits.2
      | none =>
        rw [hlookup] at hfits
        dsimp only
        rw [hnode, eval, length_substAll, hrole]
        exact ⟨sim_read hfits, sim_read hfits.swap⟩
    | declare name =>
      rw [hrole] at hfits
      obtain ⟨hlooked, hkeeps, heach⟩ := hfits
      have hsame := same_operation ih hlooked hkeeps heach
      dsimp only
      rw [eval, eval, length_substAll, hrole]
      exact ⟨sim_after hsame.forth (fun v s s' hs => hs.push name v),
        sim_after hsame.back (fun v s s' hs => hs.push name v)⟩
    | assign =>
      rw [hrole] at hfits
      obtain ⟨htarget, hlooked, hkeeps, heach⟩ := hfits
      have hsame := same_operation ih hlooked hkeeps heach
      dsimp only
      rw [eval, eval, length_substAll, hrole,
        targetName_subst (fun name hname => (htarget name hname).2)]
      exact ⟨sim_after hsame.forth
          (fun v s s' hs => hs.assigned (fun name hname => (htarget name hname).1) v),
        sim_after hsame.back
          (fun v s s' hs => hs.assigned (fun name hname => (htarget name hname).1) v)⟩
    | lambda params =>
      rw [hrole] at hfits
      obtain ⟨hkeeps, hseq⟩ := hfits
      have hsame := same_seq ih hseq M.unit
      dsimp only
      rw [eval, eval, length_substAll, hrole]
      exact ⟨sim_lambda hkeeps hsame, sim_lambda hkeeps hsame.swap⟩
    | block =>
      rw [hrole] at hfits
      have hsame := same_seq ih hfits M.unit
      dsimp only
      rw [eval, eval, length_substAll, hrole]
      exact ⟨sim_block hsame.forth, sim_block hsame.back⟩
    | each names =>
      rw [hrole] at hfits
      obtain ⟨hlooked, hkeeps, heach⟩ := hfits
      dsimp only
      rw [eval, eval, length_substAll, hrole]
      exact same_operation ih hlooked hkeeps heach

end Substitution

end NewClLang.ScopedTerms
