import Mathlib.Data.List.Induction
import Mathlib.Tactic.Common

set_option autoImplicit false

/-!
# Association lists in the order of their keys' first occurrences
-/
namespace NewClLang.AssociationLists

section Keys
variable {α β : Type}

def keys (entries : List (α × β)) : List α := entries.map Prod.fst

theorem keys_cons (e : α × β) (entries : List (α × β)) :
    keys (e :: entries) = e.1 :: keys entries := rfl

theorem keys_concat (entries : List (α × β)) (e : α × β) :
    keys (entries ++ [e]) = keys entries ++ [e.1] := List.map_append

theorem length_keys (entries : List (α × β)) : (keys entries).length = entries.length :=
  List.length_map _

end Keys

section Lookups
variable {α β : Type} [BEq α] [LawfulBEq α] {entries entries' : List (α × β)} {key : α} {item : β}

theorem mem_of_lookup (h : entries.lookup key = some item) : (key, item) ∈ entries := by
  obtain ⟨before, after, rfl, -⟩ := List.lookup_eq_some_iff.mp h
  exact List.mem_append_right before List.mem_cons_self

theorem lookup_of_not_mem (h : key ∉ keys entries) : entries.lookup key = none := by
  cases hlookup : entries.lookup key with
  | none => rfl
  | some b => exact absurd (List.mem_map_of_mem (mem_of_lookup hlookup)) h

theorem lookup_isSome_iff : (entries.lookup key).isSome ↔ key ∈ keys entries := by
  constructor
  · intro h
    obtain ⟨item, hitem⟩ := Option.isSome_iff_exists.mp h
    exact List.mem_map_of_mem (mem_of_lookup hitem)
  · intro h
    by_contra hnone
    have hlookup := Option.not_isSome_iff_eq_none.mp hnone
    obtain ⟨e, he, rfl⟩ := List.mem_map.mp h
    exact absurd rfl (bne_iff_ne.mp (List.lookup_eq_none_iff.mp hlookup e he))

theorem lookup_of_mem (hnodup : (keys entries).Nodup) (h : (key, item) ∈ entries) :
    entries.lookup key = some item := by
  induction entries with
  | nil => cases h
  | cons e entries ih =>
    obtain ⟨key', item'⟩ := e
    have hrest := List.nodup_cons.mp hnodup
    rcases List.mem_cons.mp h with heq | hmem
    · cases heq
      exact List.lookup_cons_self
    · have hne : key ≠ key' := by
        rintro rfl
        exact hrest.1 (List.mem_map.mpr ⟨(key, item), hmem, rfl⟩)
      rw [List.lookup_cons, beq_eq_false_iff_ne.mpr hne]
      exact ih hrest.2 hmem

/-- With one entry for each key the order of the entries does not matter. -/
theorem lookup_perm (hnodup : (keys entries).Nodup) (h : entries.Perm entries') (key : α) :
    entries.lookup key = entries'.lookup key := by
  have hnodup' : (keys entries').Nodup := (h.map Prod.fst).nodup_iff.mp hnodup
  cases hlookup : entries.lookup key with
  | some item => exact (lookup_of_mem hnodup' (h.mem_iff.mp (mem_of_lookup hlookup))).symm
  | none =>
    cases hlookup' : entries'.lookup key with
    | none => rfl
    | some item =>
      rw [lookup_of_mem hnodup (h.mem_iff.mpr (mem_of_lookup hlookup'))] at hlookup
      cases hlookup

end Lookups

section Puts
variable {α β : Type} [DecidableEq α] {entries : List (α × β)} {key : α}

/-- The value of the first entry with the key. -/
def valueOf (entries : List (α × β)) (key : α) : Option β :=
  (entries.find? fun e => e.1 = key).map Prod.snd

/-- The value of the key's entry is replaced, or there is a new entry at the end. -/
def put (entries : List (α × β)) (key : α) (item : β) : List (α × β) :=
  if key ∈ keys entries then entries.map fun e => if e.1 = key then (key, item) else e
  else entries ++ [(key, item)]

theorem keys_replaced (entries : List (α × β)) (key : α) (item : β) :
    keys (entries.map fun e => if e.1 = key then (key, item) else e) = keys entries := by
  induction entries with
  | nil => rfl
  | cons e entries ih =>
    rw [List.map_cons, keys_cons, ih, keys_cons]
    split
    · rename_i h
      rw [h]
    · rfl

theorem keys_put (entries : List (α × β)) (key : α) (item : β) :
    keys (put entries key item) =
      if key ∈ keys entries then keys entries else keys entries ++ [key] := by
  unfold put
  split
  · exact keys_replaced entries key item
  · exact keys_concat entries (key, item)

theorem length_put_le (entries : List (α × β)) (key : α) (item : β) :
    (put entries key item).length ≤ entries.length + 1 := by
  rw [← length_keys, keys_put, ← length_keys entries]
  split
  · exact Nat.le_succ _
  · exact Nat.le_of_eq List.length_append

theorem valueOf_cons (e : α × β) (entries : List (α × β)) (key : α) :
    valueOf (e :: entries) key = if e.1 = key then some e.2 else valueOf entries key := by
  unfold valueOf
  by_cases h : e.1 = key
  · rw [List.find?_cons_of_pos (by simpa using h), if_pos h]
    rfl
  · rw [List.find?_cons_of_neg (by simpa using h), if_neg h]

theorem valueOf_none (h : key ∉ keys entries) : valueOf entries key = none := by
  induction entries with
  | nil => rfl
  | cons e entries ih =>
    rw [keys_cons, List.mem_cons, not_or] at h
    rw [valueOf_cons, if_neg (Ne.symm h.1), ih h.2]

theorem valueOf_replaced (entries : List (α × β)) (key other : α) (item : β) :
    valueOf (entries.map fun e => if e.1 = key then (key, item) else e) other =
      if other = key then (if key ∈ keys entries then some item else none)
      else valueOf entries other := by
  induction entries with
  | nil => split <;> rfl
  | cons e entries ih =>
    simp only [List.map_cons, valueOf_cons, ih, keys_cons, List.mem_cons]
    by_cases he : e.1 = key
    · by_cases ho : other = key
      · simp [he, ho]
      · simp [he, ho, Ne.symm ho]
    · by_cases ho : other = key
      · simp [he, ho, Ne.symm he]
      · simp [he, ho]

theorem valueOf_append (entries : List (α × β)) (e : α × β) (key : α) :
    valueOf (entries ++ [e]) key =
      if key ∈ keys entries then valueOf entries key else if e.1 = key then some e.2 else none := by
  induction entries with
  | nil => rw [List.nil_append, valueOf_cons]; rfl
  | cons d entries ih =>
    simp only [List.cons_append, valueOf_cons, ih, keys_cons, List.mem_cons]
    by_cases hd : d.1 = key
    · simp [hd]
    · simp [hd, Ne.symm hd]

theorem valueOf_put (entries : List (α × β)) (key other : α) (item : β) :
    valueOf (put entries key item) other =
      if other = key then some item else valueOf entries other := by
  unfold put
  split
  · rename_i h
    rw [valueOf_replaced, if_pos h]
  · rename_i h
    rw [valueOf_append]
    by_cases ho : other = key
    · rw [ho, if_neg h, if_pos rfl, if_pos rfl]
    · rw [if_neg ho, if_neg (Ne.symm ho)]
      split
      · rfl
      · rename_i hnot
        exact (valueOf_none hnot).symm

theorem isSome_valueOf {entries : List (α × β)} {key : α} :
    (valueOf entries key).isSome = true ↔ key ∈ keys entries := by
  induction entries with
  | nil => simp [valueOf, keys]
  | cons e entries ih =>
    rw [valueOf_cons, keys_cons, List.mem_cons]
    by_cases h : e.1 = key
    · simp [h]
    · simp [h, Ne.symm h, ih]

end Puts

section Sequences
variable {α β : Type} [DecidableEq α]

/-- Each element at its first occurrence. -/
def firsts : List α → List α
  | [] => []
  | a :: as => a :: (firsts as).filter (· ≠ a)

/-- The entries have the keys of the members in the order of their first occurrences, each with the
value of its last occurrence. -/
structure FirstLast (members entries : List (α × β)) : Prop where
  order : keys entries = firsts (keys members)
  value : ∀ key, valueOf entries key = valueOf members.reverse key

def putAll (members : List (α × β)) : List (α × β) :=
  members.foldl (fun entries m => put entries m.1 m.2) []

theorem mem_firsts {a : α} {as : List α} : a ∈ firsts as ↔ a ∈ as := by
  induction as with
  | nil => exact Iff.rfl
  | cons b as ih =>
    rw [firsts, List.mem_cons, List.mem_filter, ih, List.mem_cons]
    by_cases h : a = b
    · simp [h]
    · simp [h]

theorem firsts_concat (as : List α) (a : α) :
    firsts (as ++ [a]) = if a ∈ as then firsts as else firsts as ++ [a] := by
  induction as with
  | nil => rfl
  | cons b as ih =>
    simp only [List.cons_append, firsts, ih, List.mem_cons]
    by_cases hab : a = b
    · subst hab
      rw [if_pos (Or.inl rfl)]
      split
      · rfl
      · simp
    · by_cases ha : a ∈ as
      · rw [if_pos ha, if_pos (Or.inr ha)]
      · rw [if_neg ha, if_neg (not_or.mpr ⟨hab, ha⟩)]
        simp [hab]

theorem putAll_concat (members : List (α × β)) (m : α × β) :
    putAll (members ++ [m]) = put (putAll members) m.1 m.2 := by
  rw [putAll, List.foldl_append]
  rfl

/-- Putting the members one after the other keeps the first position and the last value. -/
theorem putAll_firstLast (members : List (α × β)) : FirstLast members (putAll members) := by
  induction members using List.reverseRecOn with
  | nil => exact ⟨rfl, fun key => rfl⟩
  | append_singleton members m ih =>
    rw [putAll_concat]
    constructor
    · rw [keys_put, ih.order, keys_concat, firsts_concat]
      simp only [mem_firsts]
    · intro key
      rw [valueOf_put, List.reverse_concat, valueOf_cons, ih.value]
      by_cases h : key = m.1
      · rw [if_pos h, if_pos h.symm]
      · rw [if_neg h, if_neg (Ne.symm h)]

theorem length_putAll_le (members : List (α × β)) : (putAll members).length ≤ members.length := by
  induction members using List.reverseRecOn with
  | nil => exact Nat.le_refl 0
  | append_singleton members m ih =>
    have hput := length_put_le (putAll members) m.1 m.2
    rw [putAll_concat, List.length_append, List.length_singleton]
    omega

end Sequences

end NewClLang.AssociationLists
