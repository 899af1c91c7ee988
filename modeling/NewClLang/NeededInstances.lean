import Mathlib.Data.Set.Finite.Basic
import NewClLang.SettledWalks

set_option autoImplicit false

/-!
# The instances that a program needs

The least set of instances that contains what the ordinary statements and the instances themselves
request, and the runs of `monomorphize` where this set is finite.
-/
namespace NewClLang.Monomorphization
open FallibleRuns ModuleSyntax RoseTrees TypeRefs
variable (tmpls : Templates) (stmts : List Node)

section Needed

/-- The statement that a request generates. -/
def product : Request → Made
  | .type base args => .type base args
  | .function base args =>
    if canErase (tmpls.function base) then .erased base else .function base args

/-- What a request is remembered as. -/
def Request.key : Request → Made
  | .type base args => .type base args
  | .function base args => .function base args

def instanceOf : Made → Node
  | .type base args => structInstance (tmpls.struct base) (instanceName base args) args
  | .function base args => functionInstance (tmpls.function base) (instanceName base args) args
  | .erased base => eraseFunction (tmpls.function base)

def omittedDefaults (argc : ℕ) (fn : Node) : List Node :=
  marked (omittedOf argc fn.label) fn.children

mutual

inductive Needed : Made → Prop where
  | ordinary {stmt : Node} {r : Request} :
    stmt ∈ stmts → AsksFor (walk tmpls false stmt) r → Needed (product tmpls r)
  | generated {p : Made} {r : Request} :
    Needed p → AsksFor (walk tmpls true (instanceOf tmpls p)) r → Needed (product tmpls r)
  | default {call : String × ℕ} {p : Made} {expr : Node} {r : Request} :
    NeededCall call → Needed p → functionName (instanceOf tmpls p).label = some call.1 →
      expr ∈ omittedDefaults call.2 (instanceOf tmpls p) → AsksFor (walk tmpls false expr) r →
        Needed (product tmpls r)

/-- The calls of an ordinary statement or a needed instance after its walk. -/
inductive NeededCall : String × ℕ → Prop where
  | ordinary {stmt out : Node} {asked : List Request} {call : String × ℕ} :
    stmt ∈ stmts → walk tmpls false stmt = .ok (out, asked) → call ∈ calls out → NeededCall call
  | generated {p : Made} {out : Node} {asked : List Request} {call : String × ℕ} :
    Needed p → walk tmpls true (instanceOf tmpls p) = .ok (out, asked) → call ∈ calls out →
      NeededCall call

end

end Needed

section Bounds

/-- The walk of a statement requests needed instances only, and leaves needed calls. -/
def Within (skip : Bool) (stmt : Node) : Prop :=
  ∀ out asked, walk tmpls skip stmt = .ok (out, asked) →
    (∀ r ∈ asked, Needed tmpls stmts (product tmpls r)) ∧
      ∀ call ∈ calls out, NeededCall tmpls stmts call

def DefaultsWithin (fn : Node) : Prop :=
  ∀ call, functionName fn.label = some call.1 → NeededCall tmpls stmts call →
    ∀ expr ∈ omittedDefaults call.2 fn, ∀ r, AsksFor (walk tmpls false expr) r →
      Needed tmpls stmts (product tmpls r)

def isProduct : Made → Bool
  | .function base _ => !canErase (tmpls.function base)
  | _ => true

structure Bounded (m : Machine) : Prop where
  keys : m.made.Nodup
  numbered : m.generated.length = m.made.countP (isProduct tmpls)
  needed : ∀ p ∈ m.made, isProduct tmpls p = true → Needed tmpls stmts p
  ordinary : ∀ stmt ∈ m.ordinary, Within tmpls stmts false stmt
  generated : ∀ stmt ∈ m.generated,
    Within tmpls stmts true stmt ∧ DefaultsWithin tmpls stmts stmt
  functions : ∀ name place, (name, place) ∈ m.functions →
    ∃ fn, m.get place = some fn ∧ functionName fn.label = some name

variable {tmpls stmts}

theorem within_instance {p : Made} (hp : Needed tmpls stmts p) :
    Within tmpls stmts true (instanceOf tmpls p) ∧
      DefaultsWithin tmpls stmts (instanceOf tmpls p) :=
  ⟨fun out asked h => ⟨fun _ hr => .generated hp ⟨out, asked, h, hr⟩, fun _ hcall =>
      .generated hp h hcall⟩,
    fun _ hname hcall _ hexpr _ hr => .default hcall hp hname hexpr hr⟩

theorem within_ordinary {stmt : Node} (h : stmt ∈ stmts) :
    Within tmpls stmts false stmt := fun out asked hout =>
  ⟨fun _ hr => .ordinary h ⟨out, asked, hout, hr⟩, fun _ hcall => .ordinary h hout hcall⟩

/-- A statement that has been walked. -/
theorem Within.walked {skip : Bool} {stmt out : Node} {asked : List Request}
    (h : Within tmpls stmts skip stmt) (hout : walk tmpls skip stmt = .ok (out, asked)) :
    Within tmpls stmts skip out := by
  intro out' asked' hout'
  obtain ⟨rfl, rfl⟩ := settles_walk tmpls skip stmt out asked hout out' asked' hout'
  exact ⟨fun _ hr => absurd hr List.not_mem_nil, (h _ asked hout).2⟩

/-- A finite set of needed instances bounds the number of generated statements. -/
theorem Bounded.length_le {m : Machine} (h : Bounded tmpls stmts m)
    (hfin : {p | Needed tmpls stmts p}.Finite) :
    m.generated.length ≤ hfin.toFinset.card := by
  classical
  have hsubset : (m.made.filter (isProduct tmpls)).toFinset ⊆ hfin.toFinset := by
    intro p hp
    rw [List.mem_toFinset, List.mem_filter] at hp
    exact hfin.mem_toFinset.mpr (h.needed p hp.1 hp.2)
  calc m.generated.length = (m.made.filter (isProduct tmpls)).length := by
        rw [h.numbered, List.countP_eq_length_filter]
    _ = (m.made.filter (isProduct tmpls)).toFinset.card :=
        (List.toFinset_card_of_nodup (h.keys.filter _)).symm
    _ ≤ hfin.toFinset.card := Finset.card_le_card hsubset

/-- The machine after a statement has been generated, with the keys that stand for it. -/
theorem Bounded.add {m : Machine} (h : Bounded tmpls stmts m) {p : Made}
    (hp : Needed tmpls stmts p) {made : List Made} (hkeys : made.Nodup)
    (hcount : made.countP (isProduct tmpls) = m.made.countP (isProduct tmpls) + 1)
    (hneeded : ∀ p ∈ made, isProduct tmpls p = true → Needed tmpls stmts p)
    {functions : List (String × Place)}
    (hfunctions : ∀ name place, (name, place) ∈ functions → (name, place) ∈ m.functions ∨
      place = .generated m.generated.length ∧
        functionName (instanceOf tmpls p).label = some name) :
    Bounded tmpls stmts
      { m with made, functions, generated := m.generated ++ [instanceOf tmpls p] } where
  keys := hkeys
  numbered := by rw [List.length_append, List.length_singleton, h.numbered, hcount]
  needed := hneeded
  ordinary := h.ordinary
  generated := by
    intro stmt hstmt
    rcases List.mem_append.mp hstmt with hstmt | hstmt
    · exact h.generated stmt hstmt
    · rw [List.mem_singleton.mp hstmt]
      exact within_instance hp
  functions := by
    intro name place hmem
    rcases hfunctions name place hmem with hold | ⟨rfl, hname⟩
    · obtain ⟨fn, hget, hname⟩ := h.functions name place hold
      refine ⟨fn, ?_, hname⟩
      cases place with
      | ordinary index => exact hget
      | generated index =>
        have hlt : index < m.generated.length := (List.getElem?_eq_some_iff.mp hget).1
        change (m.generated ++ _)[index]? = some fn
        rw [List.getElem?_append_left hlt]
        exact hget
    · exact ⟨_, List.getElem?_concat_length, hname⟩

theorem addFunction_functions {m : Machine} {inst : Node} {name : String} {place : Place}
    (h : (name, place) ∈ (m.addFunction inst).functions) : (name, place) ∈ m.functions ∨
      place = .generated m.generated.length ∧ functionName inst.label = some name := by
  rcases List.mem_append.mp h with h | h
  · rw [Option.mem_toList, Option.map_eq_some_iff] at h
    obtain ⟨name', hname, heq⟩ := h
    obtain ⟨rfl, rfl⟩ := Prod.mk.inj heq
    exact Or.inr ⟨rfl, hname⟩
  · exact Or.inl h

/-- A request that stands for itself. -/
theorem product_eq_key {r : Request} (h : isProduct tmpls r.key = true) : product tmpls r = r.key := by
  cases r with
  | type base args => rfl
  | function base args =>
    have herase : canErase (tmpls.function base) = false := by
      rw [Request.key, isProduct] at h
      simpa using h
    rw [product, herase, if_neg Bool.false_ne_true, Request.key]

theorem product_isProduct (r : Request) : isProduct tmpls (product tmpls r) = true := by
  cases r with
  | type base args => rfl
  | function base args =>
    rw [product]
    by_cases h : canErase (tmpls.function base) = true
    · rw [if_pos h]
      rfl
    · rw [if_neg h, isProduct]
      simpa using h

variable (tmpls) in
/-- What a request does: nothing when its key has been made; otherwise it makes the key, and
    generates the instance that stands for it where this has not been made. -/
theorem request_cases (m : Machine) (r : Request) :
    (r.key ∈ m.made ∧ m.request tmpls r = m) ∨
    (r.key ∉ m.made ∧ isProduct tmpls r.key = false ∧ product tmpls r ∈ m.made ∧
      m.request tmpls r = { m with made := r.key :: m.made }) ∨
    ∃ keys functions, keys.length ≤ 1 ∧
      (∀ key ∈ keys, key = r.key ∧ key ∉ m.made ∧ isProduct tmpls key = false) ∧
      product tmpls r ∉ keys ++ m.made ∧ r.key ∈ product tmpls r :: keys ∧
      (∀ name place, (name, place) ∈ functions → (name, place) ∈ m.functions ∨
        place = .generated m.generated.length ∧
          functionName (instanceOf tmpls (product tmpls r)).label = some name) ∧
      m.request tmpls r =
        { m with
          made := product tmpls r :: (keys ++ m.made)
          functions
          generated := m.generated ++ [instanceOf tmpls (product tmpls r)] } := by
  cases r with
  | type base args =>
    rw [Machine.request]
    by_cases hmade : .type base args ∈ m.made
    · exact Or.inl ⟨hmade, if_pos hmade⟩
    · exact Or.inr (Or.inr ⟨[], m.functions, Nat.le_succ _, nofun, hmade, List.mem_cons_self,
        fun _ _ hmem => Or.inl hmem, if_neg hmade⟩)
  | function base args =>
    rw [Machine.request]
    by_cases hmade : .function base args ∈ m.made
    · exact Or.inl ⟨hmade, if_pos hmade⟩
    · rw [if_neg hmade]
      refine Or.inr ?_
      by_cases herase : canErase (tmpls.function base) = true
      · have hproduct : product tmpls (.function base args) = .erased base := if_pos herase
        have hkey : isProduct tmpls (.function base args) = false := by
          rw [isProduct, herase]
          rfl
        simp only [herase, if_true, hproduct]
        by_cases herased : .erased base ∈ Made.function base args :: m.made
        · rw [if_pos herased]
          exact Or.inl ⟨hmade, hkey, by simpa using herased, rfl⟩
        · rw [if_neg herased]
          refine Or.inr ⟨[.function base args], _, Nat.le_refl _, ?_, herased,
            List.mem_cons_of_mem _ List.mem_cons_self, fun _ _ hmem => addFunction_functions hmem,
            rfl⟩
          intro key hmem
          cases List.mem_singleton.mp hmem
          exact ⟨rfl, hmade, hkey⟩
      · have hproduct : product tmpls (.function base args) = .function base args := if_neg herase
        simp only [herase, Bool.false_eq_true, if_false, hproduct]
        exact Or.inr ⟨[], _, Nat.le_succ _, nofun, hmade, List.mem_cons_self,
          fun _ _ hmem => addFunction_functions hmem, rfl⟩

theorem Bounded.request {m : Machine} (h : Bounded tmpls stmts m) {r : Request}
    (hr : Needed tmpls stmts (product tmpls r)) : Bounded tmpls stmts (m.request tmpls r) := by
  rcases request_cases tmpls m r with
    ⟨-, heq⟩ | ⟨hnew, hkey, -, heq⟩ | ⟨keys, functions, hlength, hkeys, hproduct, -, hfunctions, heq⟩
  · rw [heq]
    exact h
  · rw [heq]
    have hcount : (r.key :: m.made).countP (isProduct tmpls) = m.made.countP (isProduct tmpls) :=
      List.countP_cons_of_neg (by rw [hkey]; exact Bool.false_ne_true)
    refine ⟨List.nodup_cons.mpr ⟨hnew, h.keys⟩, h.numbered.trans hcount.symm, fun p hp hkept => ?_,
      h.ordinary, h.generated, h.functions⟩
    rcases List.mem_cons.mp hp with rfl | hp
    · rw [hkey] at hkept
      cases hkept
    · exact h.needed p hp hkept
  · rw [heq]
    have hnodup : keys.Nodup := by
      rcases keys with _ | ⟨key, _ | ⟨other, keys⟩⟩
      · exact List.nodup_nil
      · exact List.nodup_singleton key
      · rw [List.length_cons, List.length_cons] at hlength
        omega
    have hcount : keys.countP (isProduct tmpls) = 0 := by
      rw [List.countP_eq_zero]
      intro key hmem
      rw [(hkeys key hmem).2.2]
      exact Bool.false_ne_true
    refine h.add hr (List.nodup_cons.mpr ⟨hproduct, List.nodup_append.mpr ⟨hnodup, h.keys, ?_⟩⟩) ?_ ?_
      hfunctions
    · rintro key hmem other hother rfl
      exact (hkeys key hmem).2.1 hother
    · rw [List.countP_cons_of_pos (product_isProduct r), List.countP_append, hcount, Nat.zero_add]
    · intro p hp hkept
      rcases List.mem_cons.mp hp with rfl | hp
      · exact hr
      · rcases List.mem_append.mp hp with hp | hp
        · rw [(hkeys p hp).2.2] at hkept
          cases hkept
        · exact h.needed p hp hkept

end Bounds

section Steps
variable {tmpls : Templates} {stmts : List Node}

/-- What a pass over requests or calls leaves of a machine. -/
structure Grows (m m' : Machine) : Prop where
  before : m'.before = m.before
  control : m'.control = m.control
  ordinary : m'.ordinary = m.ordinary
  generated : ∃ later, m'.generated = m.generated ++ later

theorem Grows.refl (m : Machine) : Grows m m := ⟨rfl, rfl, rfl, [], (List.append_nil _).symm⟩

theorem Grows.trans {m m' m'' : Machine} (h : Grows m m') (h' : Grows m' m'') : Grows m m'' := by
  obtain ⟨later, hlater⟩ := h.generated
  obtain ⟨last, hlast⟩ := h'.generated
  exact ⟨h'.before.trans h.before, h'.control.trans h.control, h'.ordinary.trans h.ordinary,
    later ++ last, by rw [hlast, hlater, List.append_assoc]⟩

theorem request_grows (m : Machine) (r : Request) : Grows m (m.request tmpls r) := by
  rcases request_cases tmpls m r with
    ⟨-, heq⟩ | ⟨-, -, -, heq⟩ | ⟨keys, functions, -, -, -, -, -, heq⟩
  · rw [heq]
    exact Grows.refl m
  · rw [heq]
    exact ⟨rfl, rfl, rfl, [], (List.append_nil _).symm⟩
  · rw [heq]
    exact ⟨rfl, rfl, rfl, _, rfl⟩

variable (tmpls) in
theorem requests_grow (rs : List Request) (m : Machine) :
    Grows m (rs.foldl (Machine.request tmpls) m) := by
  induction rs generalizing m with
  | nil => exact Grows.refl m
  | cons r rs ih => exact (request_grows m r).trans (ih _)

theorem Bounded.requests {m : Machine} (h : Bounded tmpls stmts m) {rs : List Request}
    (hrs : ∀ r ∈ rs, Needed tmpls stmts (product tmpls r)) :
    Bounded tmpls stmts (rs.foldl (Machine.request tmpls) m) := by
  induction rs generalizing m with
  | nil => exact h
  | cons r rs ih =>
    exact ih (h.request (hrs r List.mem_cons_self))
      (fun r' hr' => hrs r' (List.mem_cons_of_mem r hr'))

/-- A generated statement may be replaced by one that is bounded as it was. -/
theorem Bounded.setGenerated {m : Machine} (h : Bounded tmpls stmts m) {index : ℕ} {fn : Node}
    (fn' : Node) (hget : m.generated[index]? = some fn) (hname : functionName fn'.label = functionName fn.label)
    (hfn : Within tmpls stmts true fn' ∧ DefaultsWithin tmpls stmts fn') (control : Control) :
    Bounded tmpls stmts { m with generated := m.generated.set index fn', control } where
  keys := h.keys
  numbered := (List.length_set).trans h.numbered
  needed := h.needed
  ordinary := h.ordinary
  generated := by
    intro stmt hstmt
    rcases List.mem_or_eq_of_mem_set hstmt with hold | rfl
    · exact h.generated stmt hold
    · exact hfn
  functions := by
    intro name place hmem
    obtain ⟨old, hold, hname'⟩ := h.functions name place hmem
    cases place with
    | ordinary i => exact ⟨old, hold, hname'⟩
    | generated i =>
      change m.generated[i]? = some old at hold
      by_cases hi : index = i
      · subst hi
        rw [hget, Option.some.injEq] at hold
        subst hold
        have hlt := (List.getElem?_eq_some_iff.mp hget).1
        exact ⟨fn', List.getElem?_set_self hlt, hname.trans hname'⟩
      · exact ⟨old, (List.getElem?_set_ne hi).trans hold, hname'⟩

variable (tmpls stmts) in
/-- The ordinary statements after a pass. -/
def Walked (m : Machine) : Prop :=
  ∀ stmt ∈ m.ordinary, (∀ call ∈ calls stmt, NeededCall tmpls stmts call) ∧
    ∀ child ∈ stmt.children, Idle (walk tmpls false child) child

variable (tmpls stmts) in
/-- The generated statements that have been walked in this round. -/
def Called (m : Machine) (index : ℕ) : Prop :=
  ∀ (i : ℕ) stmt, i < index → m.generated[i]? = some stmt →
    ∀ call ∈ calls stmt, NeededCall tmpls stmts call

variable (tmpls stmts) in
structure Going (m : Machine) (index : ℕ) : Prop where
  control : m.control = .generated index
  index_le : index ≤ m.generated.length
  before_le : m.before ≤ m.generated.length
  walked : Walked tmpls stmts m
  called : Called tmpls stmts m index

theorem Going.grows {m m' : Machine} {index : ℕ} (h : Going tmpls stmts m index)
    (hgrows : Grows m m') : Going tmpls stmts m' index := by
  obtain ⟨later, hlater⟩ := hgrows.generated
  have hle : m.generated.length ≤ m'.generated.length := by
    rw [hlater, List.length_append]
    exact Nat.le_add_right _ _
  refine ⟨hgrows.control.trans h.control, h.index_le.trans hle, ?_, ?_, ?_⟩
  · rw [hgrows.before]
    exact h.before_le.trans hle
  · rw [Walked, hgrows.ordinary]
    exact h.walked
  · intro i stmt hi hget
    rw [hlater, List.getElem?_append_left (Nat.lt_of_lt_of_le hi h.index_le)] at hget
    exact h.called i stmt hi hget

theorem round_step {m m' : Machine} (h : Bounded tmpls stmts m) (hcontrol : m.control = .round)
    (hstep : step tmpls m = .ok m') :
    Bounded tmpls stmts m' ∧ Going tmpls stmts m' 0 ∧ m'.before = m.generated.length := by
  rw [step, hcontrol] at hstep
  cases hwalk : each (walk tmpls false) m.ordinary with
  | error e =>
    rw [hwalk] at hstep
    cases hstep
  | ok out =>
    obtain ⟨ordinary, requests⟩ := out
    rw [hwalk] at hstep
    cases hstep
    obtain ⟨hget, hmem, hasks⟩ := each_ok hwalk
    have hbounded : Bounded tmpls stmts
        { m with ordinary, before := m.generated.length, control := .generated 0 } := by
      refine ⟨h.keys, h.numbered, h.needed, fun stmt hstmt => ?_, h.generated, ?_⟩
      · obtain ⟨old, hold, own, hown⟩ := hmem stmt hstmt
        exact (h.ordinary old hold).walked hown
      · intro name place hplace
        obtain ⟨fn, hfn, hname⟩ := h.functions name place hplace
        cases place with
        | generated i => exact ⟨fn, hfn, hname⟩
        | ordinary i =>
          obtain ⟨fn', own, hfn', hown⟩ := hget i fn hfn
          exact ⟨fn', hfn', ((walk_shape tmpls hown).declared).trans hname⟩
    have hgoing : Going tmpls stmts
        { m with ordinary, before := m.generated.length, control := .generated 0 } 0 := by
      refine ⟨rfl, Nat.zero_le _, Nat.le_refl _, fun stmt hstmt => ?_,
        fun i stmt hi => absurd hi (Nat.not_lt_zero i)⟩
      obtain ⟨old, hold, own, hown⟩ := hmem stmt hstmt
      exact ⟨(h.ordinary old hold stmt own hown).2, walk_children tmpls hown⟩
    have hgrows := requests_grow tmpls requests
      { m with ordinary, before := m.generated.length, control := .generated 0 }
    refine ⟨hbounded.requests (fun r hr => ?_), hgoing.grows hgrows, hgrows.before⟩
    obtain ⟨old, hold, out, asked, hout, hr⟩ := (hasks r).mp hr
    exact (h.ordinary old hold out asked hout).1 r hr

theorem generated_step {m m' : Machine} {index : ℕ} {stmt : Node} (h : Bounded tmpls stmts m)
    (hgoing : Going tmpls stmts m index) (hget : m.generated[index]? = some stmt)
    (hstep : step tmpls m = .ok m') :
    Bounded tmpls stmts m' ∧ Going tmpls stmts m' (index + 1) ∧ m'.before = m.before := by
  rw [step, hgoing.control] at hstep
  simp only [hget] at hstep
  cases hwalk : walk tmpls true stmt with
  | error e =>
    rw [hwalk] at hstep
    cases hstep
  | ok out =>
    obtain ⟨stmt', requests⟩ := out
    rw [hwalk] at hstep
    cases hstep
    obtain ⟨hwithin, hdefaults⟩ := h.generated stmt (List.mem_of_getElem? hget)
    have hname := (walk_shape tmpls hwalk).declared
    have hbounded := h.setGenerated stmt' hget hname ⟨hwithin.walked hwalk, fun call hcall hneeded expr
      hexpr => hdefaults call (hname ▸ hcall) hneeded expr (walk_marked tmpls hwalk hexpr)⟩
      (.generated (index + 1))
    have hlt := (List.getElem?_eq_some_iff.mp hget).1
    have hnext : Going tmpls stmts { m with
        generated := m.generated.set index stmt', control := .generated (index + 1) }
        (index + 1) := by
      refine ⟨rfl, ?_, ?_, hgoing.walked, fun i old hi hold => ?_⟩
      · change index + 1 ≤ (m.generated.set index stmt').length
        rw [List.length_set]
        exact hlt
      · change m.before ≤ (m.generated.set index stmt').length
        rw [List.length_set]
        exact hgoing.before_le
      · change (m.generated.set index stmt')[i]? = some old at hold
        by_cases heq : index = i
        · subst heq
          rw [List.getElem?_set_self hlt, Option.some.injEq] at hold
          subst hold
          exact (hwithin _ requests hwalk).2
        · rw [List.getElem?_set_ne heq] at hold
          exact hgoing.called i old (by omega) hold
    have hgrows := requests_grow tmpls requests { m with
      generated := m.generated.set index stmt', control := .generated (index + 1) }
    exact ⟨hbounded.requests (hwithin _ requests hwalk).1, hnext.grows hgrows, hgrows.before⟩

/-- The walk of the omitted defaults of a statement that the machine holds. -/
theorem walkOmitted_bounded {m : Machine} (h : Bounded tmpls stmts m) (hwalked : Walked tmpls stmts m)
    {call : String × ℕ} (hcall : NeededCall tmpls stmts call) {place : Place} {fn fn' : Node}
    (hget : m.get place = some fn) (hname : functionName fn.label = some call.1)
    {requests : List Request} (hok : walkOmitted tmpls call.2 fn = .ok (fn', requests)) :
    Bounded tmpls stmts (m.set fn' place) ∧ Walked tmpls stmts (m.set fn' place) ∧
      ∀ r ∈ requests, Needed tmpls stmts (product tmpls r) := by
  obtain ⟨children, own, rest, hchildren, hrest, rfl⟩ := bind_ok.mp hok
  obtain ⟨rfl, rfl⟩ := pure_ok.mp hrest
  rw [List.append_nil]
  cases place with
  | ordinary index =>
    change m.ordinary[index]? = some fn at hget
    have hidle := (hwalked fn (List.mem_of_getElem? hget)).2
    obtain ⟨rfl, rfl⟩ := walkMarked_idle tmpls hidle children own hchildren
    have hset : m.ordinary.set index (.node fn.label fn.children) = m.ordinary := by
      obtain ⟨hlt, heq⟩ := List.getElem?_eq_some_iff.mp hget
      have hfn : RoseTree.node fn.label fn.children = m.ordinary[index] := by
        rw [heq]
        cases fn
        rfl
      rw [hfn, List.set_getElem_self]
    have hsame : m.set (.node fn.label fn.children) (.ordinary index) = m := by
      rw [Machine.set, hset]
    rw [hsame]
    exact ⟨h, hwalked, fun _ hr => absurd hr List.not_mem_nil⟩
  | generated index =>
    change m.generated[index]? = some fn at hget
    obtain ⟨hwithin, hdefaults⟩ := h.generated fn (List.mem_of_getElem? hget)
    obtain ⟨hasks, hkept, hdrop⟩ := walkMarked_ok tmpls hchildren
    have hfn : Within tmpls stmts true (.node fn.label children) := by
      cases fn with
      | node kind old =>
        cases kind with
        | functionDeclaration head =>
          change children.drop (omitted call.2 head.params).length =
            old.drop (omitted call.2 head.params).length at hdrop
          rw [omitted_length] at hdrop
          intro out asked hout
          obtain ⟨out', hout', hcalls⟩ := walk_defaults tmpls hdrop hout
          rw [← hcalls]
          exact hwithin out' asked hout'
        | _ => cases hname
    refine ⟨h.setGenerated (.node fn.label children) hget rfl
      ⟨hfn, fun c hc hneeded expr hexpr r hr => ?_⟩ m.control, hwalked, fun r hr => ?_⟩
    · rcases hkept _ expr hexpr with hold | hidle
      · exact hdefaults c hc hneeded expr hold r hr
      · exact absurd hr (hidle r)
    · obtain ⟨expr, hexpr, hr⟩ := hasks r hr
      exact hdefaults call hname hcall expr hexpr r hr

theorem set_grows (m : Machine) (fn : Node) (place : Place) :
    (m.set fn place).before = m.before ∧ (m.set fn place).control = m.control ∧
      (m.set fn place).generated.length = m.generated.length := by
  cases place with
  | ordinary index => exact ⟨rfl, rfl, rfl⟩
  | generated index => exact ⟨rfl, rfl, List.length_set⟩

theorem requestOmittedDefaults_bounded {m m' : Machine} (h : Bounded tmpls stmts m)
    (hwalked : Walked tmpls stmts m) {call : String × ℕ} (hcall : NeededCall tmpls stmts call)
    (hok : requestOmittedDefaults tmpls m call = .ok m') :
    Bounded tmpls stmts m' ∧ Walked tmpls stmts m' ∧ m'.before = m.before ∧
      m.generated.length ≤ m'.generated.length := by
  rw [requestOmittedDefaults] at hok
  cases hplace : m.functions.lookup call.1 with
  | none =>
    simp only [hplace] at hok
    cases hok
    exact ⟨h, hwalked, rfl, Nat.le_refl _⟩
  | some place =>
    simp only [hplace] at hok
    have hmem : (call.1, place) ∈ m.functions := by
      obtain ⟨before, after, hfunctions, -⟩ := List.lookup_eq_some_iff.mp hplace
      rw [hfunctions]
      exact List.mem_append_right before List.mem_cons_self
    obtain ⟨fn, hget, hname⟩ := h.functions call.1 place hmem
    simp only [hget] at hok
    cases hwalk : walkOmitted tmpls call.2 fn with
    | error e =>
      simp only [hwalk] at hok
      cases hok
    | ok out =>
      obtain ⟨fn', requests⟩ := out
      simp only [hwalk] at hok
      cases hok
      obtain ⟨hbounded, hkept, hrequests⟩ :=
        walkOmitted_bounded h hwalked hcall hget hname hwalk
      have hgrows := requests_grow tmpls requests (m.set fn' place)
      obtain ⟨hbefore, -, hlength⟩ := set_grows m fn' place
      obtain ⟨later, hlater⟩ := hgrows.generated
      refine ⟨hbounded.requests hrequests, ?_, hgrows.before.trans hbefore, ?_⟩
      · rw [Walked, hgrows.ordinary]
        exact hkept
      · rw [hlater, List.length_append, hlength]
        exact Nat.le_add_right _ _

theorem requestCallDefaults_bounded {m m' : Machine} (h : Bounded tmpls stmts m)
    (hwalked : Walked tmpls stmts m) {called : List (String × ℕ)}
    (hcalled : ∀ call ∈ called, NeededCall tmpls stmts call)
    (hok : requestCallDefaults tmpls called m = .ok m') :
    Bounded tmpls stmts m' ∧ m'.before = m.before ∧
      m.generated.length ≤ m'.generated.length := by
  induction called generalizing m with
  | nil =>
    cases hok
    exact ⟨h, rfl, Nat.le_refl _⟩
  | cons call rest ih =>
    rw [requestCallDefaults] at hok
    cases hcall : requestOmittedDefaults tmpls m call with
    | error e =>
      rw [hcall] at hok
      cases hok
    | ok m₁ =>
      rw [hcall] at hok
      obtain ⟨hbounded, hkept, hbefore, hlength⟩ :=
        requestOmittedDefaults_bounded h hwalked (hcalled call List.mem_cons_self) hcall
      obtain ⟨hbounded', hbefore', hlength'⟩ := ih hbounded hkept
        (fun c hc => hcalled c (List.mem_cons_of_mem call hc)) hok
      exact ⟨hbounded', hbefore'.trans hbefore, hlength.trans hlength'⟩

theorem calls_step {m m' : Machine} {index : ℕ} (h : Bounded tmpls stmts m)
    (hgoing : Going tmpls stmts m index) (hget : m.generated[index]? = none)
    (hstep : step tmpls m = .ok m') :
    Bounded tmpls stmts m' ∧ (m'.control = .finished ∨
      m'.control = .round ∧ m.before < m'.generated.length) := by
  rw [step, hgoing.control] at hstep
  simp only [hget] at hstep
  have hcalled : ∀ call ∈ (m.ordinary ++ m.generated).flatMap calls,
      NeededCall tmpls stmts call := by
    intro call hcall
    obtain ⟨stmt, hstmt, hcall⟩ := List.mem_flatMap.mp hcall
    rcases List.mem_append.mp hstmt with hstmt | hstmt
    · exact (hgoing.walked stmt hstmt).1 call hcall
    · obtain ⟨i, hi⟩ := List.mem_iff_getElem?.mp hstmt
      have hlt := (List.getElem?_eq_some_iff.mp hi).1
      have hle := List.getElem?_eq_none_iff.mp hget
      exact hgoing.called i stmt (hlt.trans_le hle) hi call hcall
  cases hcalls : requestCallDefaults tmpls ((m.ordinary ++ m.generated).flatMap calls) m with
  | error e =>
    rw [hcalls] at hstep
    cases hstep
  | ok m₁ =>
    rw [hcalls] at hstep
    cases hstep
    obtain ⟨hbounded, hbefore, hlength⟩ :=
      requestCallDefaults_bounded h hgoing.walked hcalled hcalls
    refine ⟨⟨hbounded.keys, hbounded.numbered, hbounded.needed, hbounded.ordinary,
      hbounded.generated, hbounded.functions⟩, ?_⟩
    have hle := hgoing.before_le
    by_cases hsame : m₁.generated.length = m₁.before
    · exact Or.inl (if_pos hsame)
    · refine Or.inr ⟨if_neg hsame, ?_⟩
      change m.before < m₁.generated.length
      omega

/-- The rounds that are left, and the generated statements that are left in this round. -/
def measure (bound : ℕ) (m : Machine) : ℕ :=
  match m.control with
  | .round => (bound + 1 - m.generated.length) * (bound + 3) + (bound + 2)
  | .generated index => (bound + 1 - m.before) * (bound + 3) + (bound + 1 - index)
  | .finished => 0

/-- Where finitely many instances are needed, `monomorphize` ends. -/
theorem stops_of_finite {m : Machine} (h : Bounded tmpls stmts m) (hcontrol : m.control = .round)
    (hfin : {p | Needed tmpls stmts p}.Finite) : Stops (step tmpls) Machine.finished m := by
  refine stops_of_measure (I := fun m => Bounded tmpls stmts m ∧
    ∀ index, m.control = .generated index → Going tmpls stmts m index)
    (measure hfin.toFinset.card) ?_ m ⟨h, fun index hindex => by rw [hcontrol] at hindex; cases hindex⟩
  rintro m m' ⟨h, hgoing⟩ hunfinished hstep
  have hbound := fun (m : Machine) (h : Bounded tmpls stmts m) => h.length_le hfin
  cases hcontrol : m.control with
  | round =>
    obtain ⟨hbounded, hnext, hbefore⟩ := round_step h hcontrol hstep
    refine ⟨⟨hbounded, fun index hindex => ?_⟩, ?_⟩
    · rw [hnext.control] at hindex
      cases hindex
      exact hnext
    · rw [measure, measure, hcontrol, hnext.control, hbefore]
      simp only
      omega
  | generated index =>
    have hgoing := hgoing index hcontrol
    cases hget : m.generated[index]? with
    | some stmt =>
      obtain ⟨hbounded, hnext, hbefore⟩ := generated_step h hgoing hget hstep
      refine ⟨⟨hbounded, fun i hi => ?_⟩, ?_⟩
      · rw [hnext.control] at hi
        cases hi
        exact hnext
      · rw [measure, measure, hcontrol, hnext.control, hbefore]
        have hlt := (List.getElem?_eq_some_iff.mp hget).1
        have hle := hbound m h
        simp only
        omega
    | none =>
      obtain ⟨hbounded, hend⟩ := calls_step h hgoing hget hstep
      have hle := hbound m h
      have hindex := hgoing.index_le
      rcases hend with hend | ⟨hend, hmore⟩
      · refine ⟨⟨hbounded, fun i hi => by rw [hend] at hi; cases hi⟩, ?_⟩
        rw [measure, measure, hcontrol, hend]
        simp only
        omega
      · refine ⟨⟨hbounded, fun i hi => by rw [hend] at hi; cases hi⟩, ?_⟩
        rw [measure, measure, hcontrol, hend]
        simp only
        have hle' := hbound m' hbounded
        have hrounds : (hfin.toFinset.card + 1 - m'.generated.length + 1) *
            (hfin.toFinset.card + 3) ≤
            (hfin.toFinset.card + 1 - m.before) * (hfin.toFinset.card + 3) :=
          Nat.mul_le_mul_right _ (by omega)
        rw [Nat.add_mul] at hrounds
        omega
  | finished => exact absurd hcontrol hunfinished

end Steps

end NewClLang.Monomorphization
