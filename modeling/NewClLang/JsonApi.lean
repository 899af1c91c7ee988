import NewClLang.ExceptOutcomes
import NewClLang.JsonBuilding
import NewClLang.Reachability

set_option autoImplicit false

/-!
# Calls of the json API

A client holds the values it has obtained and calls the public functions on any of them. Whatever it
calls, every value has one of the six kinds and no object has a key twice.
-/
namespace NewClLang.JsonApi
open ExceptOutcomes JsonModule JsonTrees JsonBuilding Reachability

section Calls
variable {F : Type}

structure Client (F : Type) where
  heap : Heap F
  values : List (Value F)

/-- One call. A call that raises leaves the client with what it has. -/
inductive Call (fl : Floats F) (c : Client F) : Client F → Prop where
  | null : Call fl c ⟨c.heap, null fl :: c.values⟩
  | boolValue (b : Bool) : Call fl c ⟨c.heap, boolValue fl b :: c.values⟩
  | number (x : F) : Call fl c ⟨c.heap, number x :: c.values⟩
  | string (s : Bytes) : Call fl c ⟨c.heap, string fl s :: c.values⟩
  | array : Call fl c ⟨(array fl c.heap).2, (array fl c.heap).1 :: c.values⟩
  | object : Call fl c ⟨(object fl c.heap).2, (object fl c.heap).1 :: c.values⟩
  | arrayAt {v item : Value F} {i : ℤ} (hv : v ∈ c.values)
      (h : arrayAt c.heap v i = .ok item) : Call fl c ⟨c.heap, item :: c.values⟩
  | arrayAppend {v item : Value F} {heap : Heap F} (hv : v ∈ c.values) (hitem : item ∈ c.values)
      (h : arrayAppend c.heap v item = .ok heap) : Call fl c ⟨heap, c.values⟩
  | objectGet {v item : Value F} {key : Bytes} (hv : v ∈ c.values)
      (h : objectGet c.heap v key = .ok item) : Call fl c ⟨c.heap, item :: c.values⟩
  | objectSet {v item : Value F} {key : Bytes} {heap : Heap F} (hv : v ∈ c.values)
      (hitem : item ∈ c.values) (h : objectSet c.heap v key item = .ok heap) :
      Call fl c ⟨heap, c.values⟩
  | parse {s : Bytes} {v : Value F} {heap : Heap F} (h : parse fl s c.heap = .ok (v, heap)) :
      Call fl c ⟨heap, v :: c.values⟩

/-- What a client can come to hold, from nothing. -/
def Obtained (fl : Floats F) (c : Client F) : Prop :=
  Reachable (Call fl) {⟨⟨[], []⟩, []⟩} c

end Calls

section Soundness
variable {F : Type} {fl : Floats F} {h h' : Heap F} {v item : Value F}

theorem arrayAppend_sound (hs : Sound h) (hitem : WellFormed item)
    (happend : arrayAppend h v item = .ok h') : Sound h' := by
  unfold arrayAppend at happend
  split at happend
  · cases happend
  · split at happend
    · split at happend
      · rename_i hitems
        cases happend
        exact hs.appendItem hitem hitems
      · cases happend
    · cases happend

theorem objectSet_sound (hs : Sound h) (hitem : WellFormed item) {key : Bytes}
    (hset : objectSet h v key item = .ok h') : Sound h' := by
  unfold objectSet at hset
  split at hset
  · cases hset
  · split at hset
    · split at hset
      · rename_i hentries
        cases hset
        exact hs.setKey hitem key hentries
      · cases hset
    · cases hset

theorem arrayAt_sound (hs : Sound h) {i : ℤ} (hat : arrayAt h v i = .ok item) :
    WellFormed item := by
  unfold arrayAt at hat
  by_cases hkind : v.kindValue ≠ 4
  · rw [if_pos hkind] at hat
    cases hat
  rw [if_neg hkind] at hat
  cases hptr : v.arrValue with
  | none =>
    rw [hptr] at hat
    cases hat
  | some a =>
    rw [hptr] at hat
    dsimp only at hat
    cases hitems : h.arrays[a]? with
    | none =>
      rw [hitems] at hat
      cases hat
    | some items =>
      rw [hitems] at hat
      dsimp only at hat
      by_cases hrange : i < 0 ∨ i ≥ len items
      · rw [if_pos hrange] at hat
        cases hat
      rw [if_neg hrange] at hat
      cases hfound : items[i.toNat]? with
      | none =>
        rw [hfound] at hat
        cases hat
      | some found =>
        rw [hfound] at hat
        cases hat
        exact hs.items items (List.mem_of_getElem? hitems) _ (List.mem_of_getElem? hfound)

theorem objectGet_found {key : Bytes} (hget : objectGet h v key = .ok item) :
    ∃ entries ∈ h.objects, findEntry entries key = .ok item := by
  unfold objectGet at hget
  -- the search stays closed while the pointer is looked up
  generalize (findEntry : List (Bytes × Value F) → Bytes → Except Stop (Value F)) = search at hget ⊢
  by_cases hkind : v.kindValue ≠ 5
  · rw [if_pos hkind] at hget
    cases hget
  rw [if_neg hkind] at hget
  cases hptr : v.objValue with
  | none =>
    rw [hptr] at hget
    cases hget
  | some o =>
    rw [hptr] at hget
    dsimp only at hget
    cases hentries : h.objects[o]? with
    | none =>
      rw [hentries] at hget
      cases hget
    | some entries =>
      rw [hentries] at hget
      exact ⟨entries, List.mem_of_getElem? hentries, hget⟩

theorem objectGet_sound (hs : Sound h) {key : Bytes} (hget : objectGet h v key = .ok item) :
    WellFormed item := by
  obtain ⟨entries, hentries, hfound⟩ := objectGet_found hget
  unfold findEntry at hfound
  cases hfind : (counted entries).find? (fun e => e.1 == key) with
  | none =>
    rw [hfind] at hfound
    cases hfound
  | some e =>
    rw [hfind] at hfound
    cases hfound
    exact hs.entries entries hentries e (mem_counted (List.mem_of_find?_eq_some hfind))

/-- The parser leaves a sound heap and a well-formed value, whatever the text. -/
def KeepsSound (value : ValueParser F) : Prop :=
  ∀ p, Sound p.heap →
    Ends (fun _ => True) (fun out => Sound out.2.heap ∧ WellFormed out.1) (value p)

theorem ends_any {α : Type} (x : Except Stop α) : Ends (fun _ => True) (fun _ => True) x :=
  ends_of_ok (fun _ _ => trivial)

theorem failed_any {α : Type} {Q : α → Prop} : Ends (fun _ => True) Q failed := .error trivial

variable {s : Bytes} {value : ValueParser F} {out : Value F}

theorem elementsLoop_sound (hvalue : KeepsSound value) (hout : WellFormed out) (turns : ℕ) :
    KeepsSound (elementsLoop s value out turns) := by
  induction turns with
  | zero => exact fun p _ => .error trivial
  | succ turns ih =>
    intro p hp
    refine (hvalue p hp).bind ?_
    rintro ⟨item, p₁⟩ ⟨hp₁, hitem⟩
    refine (ends_of_ok (fun heap happend => arrayAppend_sound hp₁ hitem happend)).bind ?_
    intro heap hheap
    refine (ends_any _).bind ?_
    intro i _
    refine (ends_any _).bind ?_
    rintro ⟨closed, i⟩ _
    cases closed with
    | true => exact .ok ⟨hheap, hout⟩
    | false =>
      refine (ends_any _).bind ?_
      rintro ⟨comma, i⟩ _
      cases comma with
      | true => exact ih ⟨i, heap⟩ hheap
      | false => exact failed_any

theorem membersLoop_sound (hvalue : KeepsSound value) (hout : WellFormed out) (turns : ℕ) :
    KeepsSound (membersLoop s value out turns) := by
  induction turns with
  | zero => exact fun p _ => .error trivial
  | succ turns ih =>
    intro p hp
    refine (ends_any _).bind ?_
    intro i _
    refine (ends_any _).bind ?_
    intro quoted _
    cases quoted with
    | false => exact failed_any
    | true =>
      refine (ends_any _).bind ?_
      rintro ⟨key, i⟩ _
      refine (ends_any _).bind ?_
      intro i _
      refine (ends_any _).bind ?_
      rintro ⟨colon, i⟩ _
      cases colon with
      | false => exact failed_any
      | true =>
        refine (hvalue ⟨i, p.heap⟩ hp).bind ?_
        rintro ⟨item, p₁⟩ ⟨hp₁, hitem⟩
        refine (ends_of_ok (fun heap hset => objectSet_sound hp₁ hitem hset)).bind ?_
        intro heap hheap
        refine (ends_any _).bind ?_
        intro i _
        refine (ends_any _).bind ?_
        rintro ⟨closed, i⟩ _
        cases closed with
        | true => exact .ok ⟨hheap, hout⟩
        | false =>
          refine (ends_any _).bind ?_
          rintro ⟨comma, i⟩ _
          cases comma with
          | true => exact ih ⟨i, heap⟩ hheap
          | false => exact failed_any

theorem array_wellFormed : WellFormed (array fl h).1 :=
  Or.inr (Or.inr (Or.inr (Or.inr (Or.inl ⟨rfl, _, rfl⟩))))

theorem object_wellFormed : WellFormed (object fl h).1 :=
  Or.inr (Or.inr (Or.inr (Or.inr (Or.inr ⟨rfl, _, rfl⟩))))

theorem parseArray_sound (hvalue : KeepsSound value) : KeepsSound (parseArray fl s value) := by
  intro p hp
  have hnew := hp.newArray fl
  refine (ends_any _).bind ?_
  intro i _
  refine (ends_any _).bind ?_
  rintro ⟨closed, i⟩ _
  cases closed with
  | true => exact .ok ⟨hnew, array_wellFormed⟩
  | false => exact elementsLoop_sound hvalue array_wellFormed _ ⟨i, _⟩ hnew

theorem parseObject_sound (hvalue : KeepsSound value) : KeepsSound (parseObject fl s value) := by
  intro p hp
  have hnew := hp.newObject fl
  refine (ends_any _).bind ?_
  intro i _
  refine (ends_any _).bind ?_
  rintro ⟨closed, i⟩ _
  cases closed with
  | true => exact .ok ⟨hnew, object_wellFormed⟩
  | false => exact membersLoop_sound hvalue object_wellFormed _ ⟨i, _⟩ hnew

theorem plain_sound {α : Type} {x : Except Stop α} {f : α → Value F × Cursor F}
    (hf : ∀ a, Sound (f a).2.heap ∧ WellFormed (f a).1) :
    Ends (fun _ => True) (fun out => Sound out.2.heap ∧ WellFormed out.1)
      (x >>= fun a => .ok (f a)) :=
  (ends_any x).bind (fun a _ => .ok (hf a))

theorem valueStep_sound (hvalue : KeepsSound value) : KeepsSound (valueStep fl s value) := by
  intro p hp
  refine (ends_any _).bind ?_
  intro i _
  split
  · exact failed_any
  · refine (ends_any _).bind ?_
    intro b _
    split
    · exact plain_sound (fun _ => ⟨hp, Or.inl rfl⟩)
    split
    · exact plain_sound (fun _ => ⟨hp, Or.inr (Or.inl rfl)⟩)
    split
    · exact plain_sound (fun _ => ⟨hp, Or.inr (Or.inl rfl)⟩)
    split
    · refine (ends_any _).bind ?_
      rintro ⟨text, i⟩ _
      exact .ok ⟨hp, Or.inr (Or.inr (Or.inr (Or.inl rfl)))⟩
    split
    · exact parseArray_sound hvalue ⟨i, p.heap⟩ hp
    split
    · exact parseObject_sound hvalue ⟨i, p.heap⟩ hp
    split
    · refine (ends_any _).bind ?_
      rintro ⟨x, i⟩ _
      exact .ok ⟨hp, Or.inr (Or.inr (Or.inl rfl))⟩
    · exact failed_any

theorem parseValue_sound (depth : ℕ) : KeepsSound (parseValue fl s depth) := by
  induction depth with
  | zero => exact fun p _ => .error trivial
  | succ depth ih => exact valueStep_sound ih

theorem parse_sound (hs : Sound h) (hparse : parse fl s h = .ok (v, h')) :
    Sound h' ∧ WellFormed v := by
  have hends : Ends (fun _ => True) (fun out => Sound out.2 ∧ WellFormed out.1) (parse fl s h) := by
    refine (ends_any _).bind ?_
    intro i _
    refine (parseValue_sound _ ⟨i, h⟩ hs).bind ?_
    rintro ⟨v, p⟩ hp
    refine (ends_any _).bind ?_
    intro i _
    split
    · exact failed_any
    · exact .ok hp
  exact hends.result hparse

def Client.Good (c : Client F) : Prop := Sound c.heap ∧ ∀ v ∈ c.values, WellFormed v

theorem Client.Good.cons {c : Client F} (hc : c.Good) (hs : Sound h) (hv : WellFormed v) :
    Client.Good ⟨h, v :: c.values⟩ := by
  refine ⟨hs, ?_⟩
  intro u hu
  rcases List.mem_cons.mp hu with rfl | hu
  · exact hv
  · exact hc.2 u hu

theorem call_good {c c' : Client F} (hc : c.Good) (hcall : Call fl c c') : c'.Good := by
  cases hcall with
  | null => exact hc.cons hc.1 (Or.inl rfl)
  | boolValue b => exact hc.cons hc.1 (Or.inr (Or.inl rfl))
  | number x => exact hc.cons hc.1 (Or.inr (Or.inr (Or.inl rfl)))
  | string s => exact hc.cons hc.1 (Or.inr (Or.inr (Or.inr (Or.inl rfl))))
  | array => exact hc.cons (hc.1.newArray fl) array_wellFormed
  | object => exact hc.cons (hc.1.newObject fl) object_wellFormed
  | arrayAt _ hat => exact hc.cons hc.1 (arrayAt_sound hc.1 hat)
  | arrayAppend _ hitem happend => exact ⟨arrayAppend_sound hc.1 (hc.2 _ hitem) happend, hc.2⟩
  | objectGet _ hget => exact hc.cons hc.1 (objectGet_sound hc.1 hget)
  | objectSet _ hitem hset => exact ⟨objectSet_sound hc.1 (hc.2 _ hitem) hset, hc.2⟩
  | parse hparse =>
    obtain ⟨hs, hv⟩ := parse_sound hc.1 hparse
    exact hc.cons hs hv

/-- Whatever calls were made, the heap is sound and the values held are well formed. -/
theorem obtained_good {c : Client F} (hc : Obtained fl c) : c.Good := by
  refine hc.mem_of_closed (S := {c : Client F | c.Good}) ?_
    (fun c hc c' hcall => call_good hc hcall)
  intro r hr
  cases hr
  refine ⟨⟨?_, ?_, ?_⟩, ?_⟩ <;>
  · intro x hx
    cases hx

end Soundness

end NewClLang.JsonApi
