import NewClLang.TypeRefs

set_option autoImplicit false

/-!
# Root slots of named values

`root_slots_for_type` registers the words of a local, parameter or field that may point into a GC
block. A word is named by the path of field indices that leads to it.
-/
namespace NewClLang.RootSlots
open TypeRefs

abbrev Path := List ℕ

/-- `root_slots_for_type`, with the test order of the source. -/
def rootSlotsForType (tbl : TypeTable) (ptr : Path) (t : NcType) : List Path :=
  if isName t.ref "str" then [ptr ++ [0]]
  else if isName t.ref "error" then [ptr ++ [0, 0]]
  else if isName t.ref "nc_map" || isMap t.ref then [ptr ++ [1]]
  else if isSlice t.ref then [ptr ++ [0]]
  else if t.isString && isPointer t.ref then [ptr]
  else if isFn t.ref then [ptr ++ [1]]
  else if tbl.isIface t.ref then [ptr ++ [1]]
  else if t.isString && tbl.isStruct t.ref then
    (tbl.fieldsOf t.ref).zipIdx.attach.flatMap
      (fun f => rootSlotsForType tbl (ptr ++ [f.1.2]) f.1.1.2)
  else if isArray t.ref then [ptr]
  else []
termination_by rankOf tbl.rank t.ref
decreasing_by exact tbl.fieldsOf_rank _ (List.fst_mem_of_mem_zipIdx f.2)

/-- The words of a value of a type that can hold the address of, or into, a GC block: the buffer
    of a string, an error's message or a slice, a map's table, a pointer, a closure's environment,
    an interface's data, an array's storage, and those of a struct's fields. -/
def gcWords (tbl : TypeTable) (ptr : Path) (ref : TypeRef) : List Path :=
  if isName ref "str" then [ptr ++ [0]]
  else if isName ref "error" then [ptr ++ [0, 0]]
  else if isName ref "nc_map" || isMap ref then [ptr ++ [1]]
  else if isSlice ref then [ptr ++ [0]]
  else if isPointer ref then [ptr]
  else if isFn ref then [ptr ++ [1]]
  else if tbl.isIface ref then [ptr ++ [1]]
  else if tbl.isStruct ref then
    (tbl.fieldsOf ref).zipIdx.attach.flatMap
      (fun f => gcWords tbl (ptr ++ [f.1.2]) f.1.1.2.ref)
  else if isArray ref then [ptr]
  else []
termination_by rankOf tbl.rank ref
decreasing_by exact tbl.fieldsOf_rank _ (List.fst_mem_of_mem_zipIdx f.2)

/-- The types that reach the struct branch. -/
def isPlainStruct (tbl : TypeTable) (ref : TypeRef) : Bool :=
  tbl.isStruct ref && !isName ref "str" && !isName ref "error" && !isName ref "nc_map" &&
    !tbl.isIface ref

def FieldOf (tbl : TypeTable) (t t' : NcType) : Prop :=
  isPlainStruct tbl t.ref = true ∧ ∃ f ∈ tbl.fieldsOf t.ref, f.2 = t'

/-- `t'` is `t` or the type of a field nested in it by value. -/
def Within (tbl : TypeTable) : NcType → NcType → Prop := Relation.ReflTransGen (FieldOf tbl)

/-- The types whose branch tests `isinstance(nc_type, str)`, as far as they hold GC words. -/
def NeedsString (tbl : TypeTable) (ref : TypeRef) : Prop :=
  isPointer ref = true ∨ (isPlainStruct tbl ref = true ∧ gcWords tbl [] ref ≠ [])

/-- Wherever the string form matters, it is the form in hand. -/
def Recognised (tbl : TypeTable) (t : NcType) : Prop :=
  ∀ t', Within tbl t t' → NeedsString tbl t'.ref → t'.isString = true

def Covers (tbl : TypeTable) (ptr : Path) (t : NcType) : Prop :=
  ∀ p ∈ gcWords tbl ptr t.ref, p ∈ rootSlotsForType tbl ptr t

section Branches
variable {tbl : TypeTable} {ptr : Path}

theorem flatMap_attach {α β : Type} (l : List α) (f : α → List β) :
    l.attach.flatMap (fun x => f x.1) = l.flatMap f := by
  rw [List.flatMap_def, List.flatMap_def, List.attach_map_val]

theorem pointer_eq {ref : TypeRef} (h : isPointer ref = true) :
    ∃ inner nullable, ref = .pointer inner nullable := by
  cases ref with
  | pointer inner nullable => exact ⟨inner, nullable, rfl⟩
  | named n => cases h
  | slice elem => cases h
  | array length elem => cases h
  | function params ret fallible => cases h
  | generic base args => cases h

theorem gcWords_pointer {ref : TypeRef} (h : isPointer ref = true) :
    gcWords tbl ptr ref = [ptr] := by
  obtain ⟨inner, nullable, rfl⟩ := pointer_eq h
  rw [gcWords]
  rfl

theorem rootSlots_pointer {t : NcType} (h : isPointer t.ref = true) :
    rootSlotsForType tbl ptr t = if t.isString then [ptr] else [] := by
  obtain ⟨inner, nullable, hp⟩ := pointer_eq h
  rw [rootSlotsForType]
  simp [hp, isName, isMap, isSlice, isPointer, isFn, isArray, TypeTable.isIface,
    TypeTable.isStruct]

theorem struct_named {ref : TypeRef} (h : isPlainStruct tbl ref = true) :
    tbl.isStruct ref = true ∧ isName ref "str" = false ∧ isName ref "error" = false ∧
      isName ref "nc_map" = false ∧ tbl.isIface ref = false ∧ ∃ n, ref = .named n := by
  simp only [isPlainStruct, Bool.and_eq_true, Bool.not_eq_true'] at h
  obtain ⟨⟨⟨⟨hstruct, hstr⟩, herror⟩, hmap⟩, hiface⟩ := h
  refine ⟨hstruct, hstr, herror, hmap, hiface, ?_⟩
  cases ref with
  | named n => exact ⟨n, rfl⟩
  | pointer inner nullable => cases hstruct
  | slice elem => cases hstruct
  | array length elem => cases hstruct
  | function params ret fallible => cases hstruct
  | generic base args => cases hstruct

/-- A struct is named, so that none of the tests for other forms of types holds of it. -/
theorem named_forms {ref : TypeRef} {n : String} (h : ref = .named n) :
    isMap ref = false ∧ isSlice ref = false ∧ isPointer ref = false ∧ isFn ref = false ∧
      isArray ref = false := by
  subst h
  exact ⟨rfl, rfl, rfl, rfl, rfl⟩

theorem gcWords_struct {ref : TypeRef} (h : isPlainStruct tbl ref = true) :
    gcWords tbl ptr ref =
      (tbl.fieldsOf ref).zipIdx.flatMap (fun f => gcWords tbl (ptr ++ [f.2]) f.1.2.ref) := by
  obtain ⟨hstruct, hstr, herror, hmap, hiface, n, hn⟩ := struct_named h
  have hflat := flatMap_attach (tbl.fieldsOf ref).zipIdx
    (fun f => gcWords tbl (ptr ++ [f.2]) f.1.2.ref)
  obtain ⟨hmapForm, hslice, hpointer, hfn, -⟩ := named_forms hn
  rw [gcWords]
  simp only [hstr, herror, hmap, hiface, hstruct, hmapForm, hslice, hpointer, hfn,
    Bool.false_eq_true, if_false, if_true, Bool.false_or]
  exact hflat

theorem rootSlots_struct {t : NcType} (h : isPlainStruct tbl t.ref = true) :
    rootSlotsForType tbl ptr t =
      if t.isString then
        (tbl.fieldsOf t.ref).zipIdx.flatMap (fun f => rootSlotsForType tbl (ptr ++ [f.2]) f.1.2)
      else [] := by
  obtain ⟨hstruct, hstr, herror, hmap, hiface, n, hn⟩ := struct_named h
  have hflat := flatMap_attach (tbl.fieldsOf t.ref).zipIdx
    (fun f => rootSlotsForType tbl (ptr ++ [f.2]) f.1.2)
  obtain ⟨hmapForm, hslice, hpointer, hfn, harray⟩ := named_forms hn
  rw [rootSlotsForType]
  simp only [hstr, herror, hmap, hiface, hstruct, hmapForm, hslice, hpointer, hfn, harray,
    Bool.false_eq_true, if_false, Bool.false_or, Bool.and_true, Bool.and_false]
  rw [hflat]

/-- In every other branch the two forms of a type register the same words, and all of them. -/
theorem rootSlots_other {t : NcType} (hpointer : isPointer t.ref = false)
    (hstruct : isPlainStruct tbl t.ref = false) :
    rootSlotsForType tbl ptr t = gcWords tbl ptr t.ref := by
  rw [rootSlotsForType, gcWords]
  simp only [hpointer, Bool.and_false, Bool.false_eq_true, if_false]
  by_cases hstr : isName t.ref "str" = true
  · simp only [hstr, if_true]
  · by_cases herror : isName t.ref "error" = true
    · simp only [herror, if_true]
    · by_cases hmap : isName t.ref "nc_map" = true
      · simp only [hmap, Bool.true_or, if_true]
      · by_cases hiface : tbl.isIface t.ref = true
        · simp only [hiface, if_true]
        · have hplain : tbl.isStruct t.ref = false := by
            simpa [isPlainStruct, hstr, herror, hmap, hiface] using hstruct
          simp only [hplain, Bool.and_false, Bool.false_eq_true, if_false]

/-- A type that is not a struct has at most one word, which stands at the same place wherever the
    value is. -/
theorem gcWords_other {ref : TypeRef} (hstruct : isPlainStruct tbl ref = false) :
    ∃ word : Option Path, ∀ ptr, gcWords tbl ptr ref = word.toList.map (ptr ++ ·) := by
  by_cases hstr : isName ref "str" = true
  · exact ⟨some [0], fun ptr => by rw [gcWords, if_pos hstr]; rfl⟩
  by_cases herror : isName ref "error" = true
  · exact ⟨some [0, 0], fun ptr => by rw [gcWords, if_neg hstr, if_pos herror]; rfl⟩
  by_cases hmap : (isName ref "nc_map" || isMap ref) = true
  · exact ⟨some [1], fun ptr => by rw [gcWords, if_neg hstr, if_neg herror, if_pos hmap]; rfl⟩
  have hrest : ∀ ptr, gcWords tbl ptr ref =
      if isSlice ref then [ptr ++ [0]]
      else if isPointer ref then [ptr]
      else if isFn ref then [ptr ++ [1]]
      else if tbl.isIface ref then [ptr ++ [1]]
      else if isArray ref then [ptr]
      else [] := by
    intro ptr
    rw [gcWords, if_neg hstr, if_neg herror, if_neg hmap]
    by_cases hiface : tbl.isIface ref = true
    · rw [if_pos hiface, if_pos hiface]
    · have hnot : ¬tbl.isStruct ref = true := by
        rw [Bool.or_eq_true, not_or] at hmap
        intro hs
        simp [isPlainStruct, hstr, herror, hmap.1, hiface, hs] at hstruct
      rw [if_neg hnot]
  by_cases hslice : isSlice ref = true
  · exact ⟨some [0], fun ptr => by rw [hrest, if_pos hslice]; rfl⟩
  by_cases hpointer : isPointer ref = true
  · exact ⟨some [], fun ptr => by
      rw [hrest, if_neg hslice, if_pos hpointer, Option.toList_some, List.map_singleton,
        List.append_nil]⟩
  by_cases hfn : isFn ref = true
  · exact ⟨some [1], fun ptr => by rw [hrest, if_neg hslice, if_neg hpointer, if_pos hfn]; rfl⟩
  by_cases hiface : tbl.isIface ref = true
  · exact ⟨some [1], fun ptr => by
      rw [hrest, if_neg hslice, if_neg hpointer, if_neg hfn, if_pos hiface]
      rfl⟩
  by_cases harray : isArray ref = true
  · exact ⟨some [], fun ptr => by
      rw [hrest, if_neg hslice, if_neg hpointer, if_neg hfn, if_neg hiface, if_pos harray,
        Option.toList_some, List.map_singleton, List.append_nil]⟩
  · exact ⟨none, fun ptr => by
      rw [hrest, if_neg hslice, if_neg hpointer, if_neg hfn, if_neg hiface, if_neg harray]
      rfl⟩

end Branches

section Coverage
variable {tbl : TypeTable}

theorem not_needsString {ref : TypeRef} (hpointer : isPointer ref = false)
    (hstruct : isPlainStruct tbl ref = false) : ¬ NeedsString tbl ref := by
  simp [NeedsString, hpointer, hstruct]

theorem pointer_not_struct (tbl : TypeTable) {ref : TypeRef} (h : isPointer ref = true) :
    isPlainStruct tbl ref = false := by
  obtain ⟨inner, nullable, rfl⟩ := pointer_eq h
  rfl

theorem field_prefix_eq {ptr p : Path} {i j : ℕ} (hi : ptr ++ [i] <+: p)
    (hj : ptr ++ [j] <+: p) : i = j := by
  have hlength : (ptr ++ [i]).length = (ptr ++ [j]).length := by simp
  have heq := List.prefix_of_prefix_length_le hi hj (Nat.le_of_eq hlength)
  have hself := List.IsPrefix.eq_of_length heq hlength
  simpa using hself

theorem gcWords_below (ref : TypeRef) (ptr : Path) {p : Path} (hp : p ∈ gcWords tbl ptr ref) :
    ptr <+: p := by
  induction hn : rankOf tbl.rank ref using Nat.strongRecOn generalizing ref ptr with
  | _ n ih =>
    cases hstruct : isPlainStruct tbl ref with
    | true =>
      rw [gcWords_struct hstruct, List.mem_flatMap] at hp
      obtain ⟨f, hf, hpf⟩ := hp
      have hrank := tbl.fieldsOf_rank f.1 (List.fst_mem_of_mem_zipIdx hf)
      have hprefix := ih _ (hn ▸ hrank) f.1.2.ref (ptr ++ [f.2]) hpf rfl
      exact (List.prefix_append ptr [f.2]).trans hprefix
    | false =>
      obtain ⟨word, hword⟩ := gcWords_other hstruct
      rw [hword, List.mem_map] at hp
      obtain ⟨suffix, -, rfl⟩ := hp
      exact List.prefix_append ptr suffix

theorem rootSlots_subset (t : NcType) (ptr : Path) {p : Path}
    (hp : p ∈ rootSlotsForType tbl ptr t) : p ∈ gcWords tbl ptr t.ref := by
  induction hn : rankOf tbl.rank t.ref using Nat.strongRecOn generalizing t ptr with
  | _ n ih =>
    cases hpointer : isPointer t.ref with
    | true =>
      rw [rootSlots_pointer hpointer] at hp
      rw [gcWords_pointer hpointer]
      split_ifs at hp
      · exact hp
      · cases hp
    | false =>
      cases hstruct : isPlainStruct tbl t.ref with
      | false => rwa [rootSlots_other hpointer hstruct] at hp
      | true =>
        rw [rootSlots_struct hstruct] at hp
        rw [gcWords_struct hstruct, List.mem_flatMap]
        split_ifs at hp
        · obtain ⟨f, hf, hpf⟩ := List.mem_flatMap.mp hp
          have hrank := tbl.fieldsOf_rank f.1 (List.fst_mem_of_mem_zipIdx hf)
          exact ⟨f, hf, ih _ (hn ▸ hrank) f.1.2 (ptr ++ [f.2]) hpf rfl⟩
        · cases hp

theorem gcWords_nil_iff (ref : TypeRef) (ptr ptr' : Path) :
    gcWords tbl ptr ref = [] ↔ gcWords tbl ptr' ref = [] := by
  induction hn : rankOf tbl.rank ref using Nat.strongRecOn generalizing ref ptr ptr' with
  | _ n ih =>
    cases hstruct : isPlainStruct tbl ref with
    | true =>
      rw [gcWords_struct hstruct, gcWords_struct hstruct, List.flatMap_eq_nil_iff,
        List.flatMap_eq_nil_iff]
      refine forall₂_congr (fun f hf => ?_)
      have hrank := tbl.fieldsOf_rank f.1 (List.fst_mem_of_mem_zipIdx hf)
      exact ih _ (hn ▸ hrank) f.1.2.ref (ptr ++ [f.2]) (ptr' ++ [f.2]) rfl
    | false =>
      obtain ⟨word, hword⟩ := gcWords_other hstruct
      rw [hword, hword, List.map_eq_nil_iff, List.map_eq_nil_iff]

theorem covers_struct_iff {t : NcType} (ptr : Path) (hstruct : isPlainStruct tbl t.ref = true) :
    Covers tbl ptr t ↔
      if t.isString then
        ∀ f ∈ (tbl.fieldsOf t.ref).zipIdx, Covers tbl (ptr ++ [f.2]) f.1.2
      else gcWords tbl ptr t.ref = [] := by
  unfold Covers
  rw [rootSlots_struct hstruct]
  split_ifs with hstring
  · rw [gcWords_struct hstruct]
    constructor
    · intro h f hf p hp
      obtain ⟨f', hf', hp'⟩ := List.mem_flatMap.mp (h p (List.mem_flatMap.mpr ⟨f, hf, hp⟩))
      -- The word lies below the place of both fields, so they are one field.
      have hindex := field_prefix_eq (gcWords_below _ _ hp)
        (gcWords_below _ _ (rootSlots_subset _ _ hp'))
      have hfield : f = f' := by
        obtain ⟨x, i⟩ := f
        obtain ⟨x', i'⟩ := f'
        simp only at hindex
        subst hindex
        rw [List.mem_zipIdx_iff_getElem?] at hf hf'
        rw [hf] at hf'
        simpa using hf'
      exact hfield ▸ hp'
    · intro h p hp
      obtain ⟨f, hf, hpf⟩ := List.mem_flatMap.mp hp
      exact List.mem_flatMap.mpr ⟨f, hf, h f hf p hpf⟩
  · constructor
    · exact fun h => List.eq_nil_iff_forall_not_mem.mpr (fun p hp => by cases h p hp)
    · intro h p hp
      rw [h] at hp
      cases hp

theorem within_nil {t t' : NcType} (h : Within tbl t t') (hnil : gcWords tbl [] t.ref = []) :
    gcWords tbl [] t'.ref = [] := by
  induction h with
  | refl => exact hnil
  | @tail u _ _ hfield ih =>
    obtain ⟨hstruct, f, hf, rfl⟩ := hfield
    rw [gcWords_struct hstruct, List.flatMap_eq_nil_iff] at ih
    obtain ⟨i, hi, hif⟩ := List.mem_iff_getElem.mp hf
    have hmem : (f, i) ∈ (tbl.fieldsOf u.ref).zipIdx := by
      rw [List.mem_zipIdx_iff_getElem?, List.getElem?_eq_getElem hi, hif]
    exact (gcWords_nil_iff _ _ _).mp (ih (f, i) hmem)

theorem within_of_not_struct {t t' : NcType} (h : Within tbl t t')
    (hstruct : isPlainStruct tbl t.ref = false) : t' = t := by
  rcases Relation.ReflTransGen.cases_head h with heq | ⟨_, ⟨hs, -⟩, -⟩
  · exact heq.symm
  · rw [hs] at hstruct
    cases hstruct

/-- `root_slots_for_type` registers all GC words of a value exactly when every pointer, and every
    struct that holds GC words, in the type and the fields nested in it is carried as a string. -/
theorem covers_iff_recognised (t : NcType) (ptr : Path) : Covers tbl ptr t ↔ Recognised tbl t := by
  induction hn : rankOf tbl.rank t.ref using Nat.strongRecOn generalizing t ptr with
  | _ n ih =>
    cases hpointer : isPointer t.ref with
    | true =>
      have hstruct := pointer_not_struct tbl hpointer
      unfold Covers
      rw [gcWords_pointer hpointer, rootSlots_pointer hpointer]
      constructor
      · intro h t' hwithin _
        rw [within_of_not_struct hwithin hstruct]
        by_contra hstring
        rw [if_neg hstring] at h
        cases h ptr (List.mem_singleton.mpr rfl)
      · intro h p hp
        rwa [if_pos (h t .refl (Or.inl hpointer))]
    | false =>
      cases hstruct : isPlainStruct tbl t.ref with
      | false =>
        unfold Covers
        rw [rootSlots_other hpointer hstruct]
        refine iff_of_true (fun p hp => hp) (fun t' hwithin hneeds => ?_)
        rw [within_of_not_struct hwithin hstruct] at hneeds
        exact absurd hneeds (not_needsString hpointer hstruct)
      | true =>
        rw [covers_struct_iff ptr hstruct]
        split_ifs with hstring
        · constructor
          · intro h t' hwithin hneeds
            rcases Relation.ReflTransGen.cases_head hwithin with rfl | ⟨u, ⟨-, f, hf, rfl⟩, hrest⟩
            · exact hstring
            · obtain ⟨i, hi, hif⟩ := List.mem_iff_getElem.mp hf
              have hmem : (f, i) ∈ (tbl.fieldsOf t.ref).zipIdx := by
                rw [List.mem_zipIdx_iff_getElem?, List.getElem?_eq_getElem hi, hif]
              have hrank := tbl.fieldsOf_rank f hf
              exact (ih _ (hn ▸ hrank) f.2 (ptr ++ [i]) rfl).mp (h (f, i) hmem) t' hrest hneeds
          · intro h f hf
            have hmem := List.fst_mem_of_mem_zipIdx hf
            have hrank := tbl.fieldsOf_rank f.1 hmem
            refine (ih _ (hn ▸ hrank) f.1.2 (ptr ++ [f.2]) rfl).mpr (fun t' hwithin => ?_)
            exact h t' (Relation.ReflTransGen.head ⟨hstruct, f.1, hmem, rfl⟩ hwithin)
        · rw [gcWords_nil_iff t.ref ptr []]
          constructor
          · intro hnil t' hwithin hneeds
            have hnil' := within_nil hwithin hnil
            rcases hneeds with hp | ⟨-, hne⟩
            · rw [gcWords_pointer hp] at hnil'
              cases hnil'
            · exact absurd hnil' hne
          · intro h
            by_contra hne
            exact hstring (h t .refl (Or.inr ⟨hstruct, hne⟩))

end Coverage

/-- Coverage in each form, and in both with one result: for all types but pointers and structs
    that hold GC words. -/
theorem root_slots_cover_iff (tbl : TypeTable) :
    (∀ (t : NcType) (ptr : Path), Covers tbl ptr t ↔ Recognised tbl t) ∧
    ∀ ref : TypeRef,
      (∀ ptr : Path, Covers tbl ptr (.canonical ref) ∧ Covers tbl ptr (.object ref) ∧
        rootSlotsForType tbl ptr (.canonical ref) = rootSlotsForType tbl ptr (.object ref)) ↔
      ¬ NeedsString tbl ref := by
  refine ⟨covers_iff_recognised, fun ref => ⟨fun h hneeds => ?_, fun hneeds ptr => ?_⟩⟩
  · have hobject := (covers_iff_recognised (.object ref) []).mp (h []).2.1
    cases hobject (.object ref) .refl hneeds
  · cases hstruct : isPlainStruct tbl ref with
    | false =>
      have hpointer : isPointer ref = false := by
        rw [Bool.eq_false_iff]
        exact fun hp => hneeds (Or.inl hp)
      have hcanonical : rootSlotsForType tbl ptr (.canonical ref) = gcWords tbl ptr ref :=
        rootSlots_other hpointer hstruct
      have hobject : rootSlotsForType tbl ptr (.object ref) = gcWords tbl ptr ref :=
        rootSlots_other hpointer hstruct
      refine ⟨fun p hp => ?_, fun p hp => ?_, hcanonical.trans hobject.symm⟩
      · rwa [hcanonical]
      · rwa [hobject]
    | true =>
      have hnil : gcWords tbl ptr ref = [] := by
        by_contra hne
        exact hneeds (Or.inr ⟨hstruct, fun h => hne ((gcWords_nil_iff ref [] ptr).mp h)⟩)
      have hempty : ∀ t : NcType, t.ref = ref → rootSlotsForType tbl ptr t = [] := by
        intro t ht
        refine List.eq_nil_iff_forall_not_mem.mpr (fun p hp => ?_)
        have hmem := rootSlots_subset t ptr hp
        rw [ht, hnil] at hmem
        cases hmem
      refine ⟨fun p hp => ?_, fun p hp => ?_, (hempty _ rfl).trans (hempty _ rfl).symm⟩
      · simp only [NcType.ref, hnil] at hp
        cases hp
      · simp only [NcType.ref, hnil] at hp
        cases hp

/-- A parameter `p: *i32`, whose type is a `PointerType` object, is not registered. -/
theorem pointer_object_uncovered :
    ¬ Covers TypeTable.empty [] (.object (.pointer (.named "i32") false)) := by
  intro h
  have hword := h [] (by rw [gcWords_pointer rfl]; exact List.mem_singleton.mpr rfl)
  rw [rootSlots_pointer rfl] at hword
  cases hword

end NewClLang.RootSlots
