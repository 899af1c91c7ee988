import NewClLang.LayoutAgreement

set_option autoImplicit false

/-!
# Alignment of heap objects

The payload of a block that `__nc_gc_alloc` returns, and where the values of an object stand in it.
-/
namespace NewClLang.HeapAlignment
open DataLayouts ExceptOutcomes TypeLayouts LayoutAgreement
open TypeRefs (TypeRef)

section Blocks

/-- `next`, `size` and `marked` of `__nc_gc_block`. -/
def headerFields : List Layout := [⟨8, 8⟩, ⟨8, 8⟩, ⟨4, 4⟩]

/-- The offset of `payload`, an array of bytes behind them. -/
def payloadOffset : ℕ := alignTo (fieldsEnd 0 headerFields) 1

/-- What `__nc_gc_alloc` returns for a block. -/
def gcAlloc (block : ℕ) : ℕ := block + payloadOffset

example : payloadOffset = 20 := by decide

/-- The objects that are allocated: `malloc_struct`, `malloc_array` (slices and arrays), the entries
of a map and `emit_closure_env`. -/
inductive HeapObject where
  | struct (name : String)
  | elements (elem : TypeRef) (count : ℕ)
  | entries (key value : TypeRef) (cap : ℕ)
  | closureEnv (captures : List TypeRef)

end Blocks

section Places
variable {D : TypeTables}

/-- Where the fields of these types stand in a struct of LLVM. -/
def FieldAt (D : TypeTables) (ts : List TypeRef) (o : ℕ) (t : TypeRef) : Prop :=
  ∃ (ls : List Layout) (i : ℕ), List.Forall₂ (HasLayout D) ts ls ∧ ts[i]? = some t ∧
    (fieldOffsets 0 ls)[i]? = some o

/-- A value of the second type stands at the offset in a value of the first. -/
inductive Within (D : TypeTables) : TypeRef → ℕ → TypeRef → Prop where
  | self (t : TypeRef) : Within D t 0 t
  | field {name : String} {fields : List (String × TypeRef)} {o off : ℕ} {t u : TypeRef}
    (h : fieldsOf D name = some fields) (ho : FieldAt D (fields.map (·.2)) o t)
    (hu : Within D t off u) : Within D (.named name) (o + off) u

/-- A value of the type stands at the offset in the payload of the object. Elements follow each
other at the allocation size of their type, entries at `entry_size`. -/
inductive Place (D : TypeTables) : HeapObject → ℕ → TypeRef → Prop where
  | struct {name : String} {o : ℕ} {u : TypeRef} (h : Within D (.named name) o u) :
    Place D (.struct name) o u
  | element {elem u : TypeRef} {count i o : ℕ} {l : Layout} (hi : i < count)
    (hl : HasLayout D elem l) (h : Within D elem o u) :
    Place D (.elements elem count) (i * l.size + o) u
  | key {key value u : TypeRef} {cap i o : ℕ} {desc : MapDesc} (hi : i < cap)
    (hdesc : Settles (fun fuel => mapDesc D fuel key value) (.ok desc)) (h : Within D key o u) :
    Place D (.entries key value cap) (i * desc.entrySize + desc.keyOffset + o) u
  | value {key value u : TypeRef} {cap i o : ℕ} {desc : MapDesc} (hi : i < cap)
    (hdesc : Settles (fun fuel => mapDesc D fuel key value) (.ok desc)) (h : Within D value o u) :
    Place D (.entries key value cap) (i * desc.entrySize + desc.valueOffset + o) u
  | capture {captures : List TypeRef} {o off : ℕ} {t u : TypeRef} (ho : FieldAt D captures o t)
    (h : Within D t off u) : Place D (.closureEnv captures) (o + off) u

/-- `alignof_type` of the type. -/
def AlignOf (D : TypeTables) (t : TypeRef) (n : ℕ) : Prop :=
  Settles (fun fuel => alignofType D fuel t) (.ok n)

/-- Each value in the object stands at a multiple of its alignment, in every block that `calloc` may
return. -/
def Aligned (D : TypeTables) (object : HeapObject) : Prop :=
  ∀ block o u n, 16 ∣ block → Place D object o u → AlignOf D u n → n ∣ gcAlloc block + o

/-- No value in the object has an alignment of more than 4. -/
def Narrow (D : TypeTables) (object : HeapObject) : Prop :=
  ∀ o u n, Place D object o u → AlignOf D u n → n ≤ 4

end Places

section Alignments
variable {D : TypeTables} {t u : TypeRef} {n m : ℕ}

theorem eachOk_iff {α β ε : Type} {f : α → Except ε β} {as : List α} {bs : List β} :
    eachOk f as = .ok bs ↔ List.Forall₂ (fun a b => f a = .ok b) as bs := by
  induction as generalizing bs with
  | nil =>
    constructor
    · rintro ⟨⟩
      exact .nil
    · rintro ⟨⟩
      rfl
  | cons a as ih =>
    simp only [eachOk, bind_eq_ok]
    constructor
    · rintro ⟨b, hb, cs, hcs, hok⟩
      cases hok
      exact .cons hb (ih.mp hcs)
    · intro h
      cases h with
      | @cons _ b _ cs hb hcs => exact ⟨b, hb, cs, ih.mpr hcs, rfl⟩

theorem builtin_aligns : ∀ row ∈ builtins, row.2.2.align ∈ [1, 2, 4, 8] := by simp [builtins]

theorem shadowed_alignof {alignof : TypeRef → Except Unsupported ℕ} {name : String}
    (hname : name ∈ shadowed) (henum : D.enums name = true) :
    alignofNamed D alignof name = .ok 4 := by
  simp only [shadowed, List.mem_cons, List.not_mem_nil, or_false] at hname
  rcases hname with rfl | rfl | rfl | rfl | rfl | rfl <;> simp [alignofNamed, henum]

theorem reserved_cases {name : String} (h : name ∈ reserved) :
    (∃ row ∈ builtins, row.1 = name) ∨ name = "void" ∨ name = "raw" := by
  rcases List.mem_append.mp h with h | h
  · exact Or.inl (List.mem_map.mp h)
  · simp only [List.mem_cons, List.not_mem_nil, or_false] at h
    exact Or.inr h

theorem reserved_alignof {alignof : TypeRef → Except Unsupported ℕ} {name : String}
    (hname : name ∈ reserved) (h : alignofNamed D alignof name = .ok n) :
    n ∈ [1, 2, 4, 8] ∧ ∀ other, alignofNamed D other name = .ok n := by
  rcases reserved_cases hname with ⟨row, hrow, rfl⟩ | rfl | rfl
  · by_cases hfree : row.1 ∈ shadowed → D.enums row.1 = false
    · cases h.symm.trans (builtin_alignof alignof row hrow hfree)
      exact ⟨builtin_aligns row hrow, fun other => builtin_alignof other row hrow hfree⟩
    · obtain ⟨hmem, henum⟩ := Classical.not_imp.mp hfree
      have henum : D.enums row.1 = true := Bool.not_eq_false _ ▸ henum
      cases h.symm.trans (shadowed_alignof hmem henum)
      exact ⟨by decide, fun other => shadowed_alignof hmem henum⟩
  · cases h
  · have hraised : alignofNamed D alignof "raw" = .error (.alignof (.named "raw")) := by
      simp [alignofNamed, D.raw_enum, D.raw_iface, D.raw_struct]
    cases h.symm.trans hraised

/-- `alignof_type` of a name is one of four numbers, or the greatest of those of the fields. -/
theorem alignofNamed_cases {alignof : TypeRef → Except Unsupported ℕ} {name : String}
    (h : alignofNamed D alignof name = .ok n) :
    (n ∈ [1, 2, 4, 8] ∧ ∀ other, alignofNamed D other name = .ok n) ∨
      ∃ fields aligns, name ∉ reserved ∧ D.structs name = some fields ∧
        eachOk alignof (fields.map (·.2)) = .ok aligns ∧ n = aligns.max?.getD 1 := by
  by_cases hname : name ∈ reserved
  · exact Or.inl (reserved_alignof hname h)
  · have hother (other : TypeRef → Except Unsupported ℕ) := declared_alignof (D := D) hname other
    rw [hother] at h
    simp only [hother]
    by_cases henum : D.enums name = true
    · rw [if_pos henum] at h
      cases h
      exact Or.inl ⟨by decide, fun _ => if_pos henum⟩
    · simp only [if_neg henum] at h ⊢
      by_cases hiface : D.ifaces name = true
      · rw [if_pos hiface] at h
        cases h
        exact Or.inl ⟨by decide, fun _ => if_pos hiface⟩
      · rw [if_neg hiface] at h
        cases hfields : D.structs name with
        | none =>
          rw [hfields] at h
          cases h
        | some fields =>
          rw [hfields] at h
          obtain ⟨aligns, haligns, rfl⟩ := map_eq_ok.mp h
          exact Or.inr ⟨fields, aligns, hname, rfl, haligns, rfl⟩

/-- A power of two up to 8. -/
def Small (n : ℕ) : Prop := IsPow n ∧ n ≤ 8

theorem small_of_mem (h : n ∈ [1, 2, 4, 8]) : Small n := by
  simp only [List.mem_cons, List.not_mem_nil, or_false] at h
  rcases h with rfl | rfl | rfl | rfl
  · exact ⟨⟨0, rfl⟩, by decide⟩
  · exact ⟨⟨1, rfl⟩, by decide⟩
  · exact ⟨⟨2, rfl⟩, by decide⟩
  · exact ⟨⟨3, rfl⟩, by decide⟩

theorem small_max {ns : List ℕ} (h : ∀ n ∈ ns, Small n) : Small (ns.max?.getD 1) := by
  cases hmax : ns.max? with
  | none => exact small_of_mem (by decide)
  | some n => exact h n (List.max?_mem hmax)

theorem le_max {ns : List ℕ} (h : n ∈ ns) : n ≤ ns.max?.getD 1 := by
  cases hmax : ns.max? with
  | none =>
    rw [List.max?_eq_none_iff] at hmax
    rw [hmax] at h
    cases h
  | some m => exact (List.max?_le_iff hmax).mp (Nat.le_refl m) n h

theorem max_le {ns : List ℕ} (hone : 1 ≤ m) (h : ∀ n ∈ ns, n ≤ m) : ns.max?.getD 1 ≤ m := by
  cases hmax : ns.max? with
  | none => exact hone
  | some n => exact h n (List.max?_mem hmax)

theorem mem_right {α β : Type} {R : α → β → Prop} {as : List α} {bs : List β} {b : β}
    (h : List.Forall₂ R as bs) (hb : b ∈ bs) : ∃ a ∈ as, R a b := by
  induction h with
  | nil => cases hb
  | cons hr _ ih =>
    rcases List.mem_cons.mp hb with rfl | hb
    · exact ⟨_, List.mem_cons_self, hr⟩
    · obtain ⟨a, ha, hab⟩ := ih hb
      exact ⟨a, List.mem_cons_of_mem _ ha, hab⟩

theorem mem_left {α β : Type} {R : α → β → Prop} {as : List α} {bs : List β} {a : α}
    (h : List.Forall₂ R as bs) (ha : a ∈ as) : ∃ b ∈ bs, R a b := by
  obtain ⟨b, hb, hr⟩ := mem_right h.flip ha
  exact ⟨b, hb, hr⟩

theorem getElem_left {α β : Type} {R : α → β → Prop} {as : List α} {bs : List β} {i : ℕ} {a : α}
    (h : List.Forall₂ R as bs) (ha : as[i]? = some a) : ∃ b, bs[i]? = some b ∧ R a b := by
  induction h generalizing i with
  | nil => cases ha
  | cons hr _ ih =>
    cases i with
    | zero =>
      cases ha
      exact ⟨_, rfl, hr⟩
    | succ i => exact ih ha

theorem alignof_small {fuel : ℕ} (h : alignofType D fuel t = .ok n) : Small n := by
  induction fuel generalizing t n with
  | zero => cases h
  | succ fuel ih =>
    have height : Small 8 := small_of_mem (by decide)
    cases t with
    | named name =>
      rcases alignofNamed_cases h with ⟨hn, -⟩ | ⟨fields, aligns, -, -, haligns, rfl⟩
      · exact small_of_mem hn
      · refine small_max fun m hm => ?_
        obtain ⟨u, -, hu⟩ := mem_right (eachOk_iff.mp haligns) hm
        exact ih hu
    | generic base args =>
      change (if isMap base args = true then _ else _) = _ at h
      split at h
      · cases h
        exact height
      · cases h
    | pointer inner nullable =>
      cases h
      exact height
    | function params ret fallible =>
      cases h
      exact height
    | slice elem =>
      cases h
      exact height
    | array length elem =>
      cases h
      exact height

/-- A name of which the fields are known is neither an enum nor an interface. -/
theorem fieldsOf_cases {name : String} {fields : List (String × TypeRef)}
    (h : fieldsOf D name = some fields) :
    name ∉ reserved ∧ D.structs name = some fields ∧ D.enums name = false ∧
      D.ifaces name = false := by
  unfold fieldsOf at h
  split at h
  · cases h
  · exact ⟨‹_›, h, not_enum_of_struct h, not_iface_of_struct h⟩

theorem struct_alignof {name : String} {fields : List (String × TypeRef)} {fuel : ℕ}
    (h : fieldsOf D name = some fields) :
    alignofType D (fuel + 1) (.named name) =
      (eachOk (alignofType D fuel) (fields.map (·.2))).map fun aligns => aligns.max?.getD 1 := by
  obtain ⟨hname, hfields, henum, hiface⟩ := fieldsOf_cases h
  change alignofNamed D _ name = _
  rw [declared_alignof hname, henum, hiface, hfields]
  rfl

theorem alignof_succ {fuel : ℕ} (h : alignofType D fuel t = .ok n) :
    alignofType D (fuel + 1) t = .ok n := by
  induction fuel generalizing t n with
  | zero => cases h
  | succ fuel ih =>
    cases t with
    | named name =>
      rcases alignofNamed_cases h with ⟨-, hother⟩ | ⟨fields, aligns, hname, hfields, haligns, rfl⟩
      · exact hother _
      · have hknown : fieldsOf D name = some fields := by rw [fieldsOf, if_neg hname, hfields]
        have hlater := eachOk_iff.mpr ((eachOk_iff.mp haligns).imp fun t m => ih)
        rw [struct_alignof hknown, hlater]
        rfl
    | _ => exact h

theorem alignof_mono {fuel fuel' : ℕ} (h : alignofType D fuel t = .ok n) (hle : fuel ≤ fuel') :
    alignofType D fuel' t = .ok n := by
  induction hle with
  | refl => exact h
  | step _ ih => exact alignof_succ ih

theorem alignOf_iff : AlignOf D t n ↔ ∃ fuel, alignofType D fuel t = .ok n := by
  constructor
  · rintro ⟨fuel, h⟩
    exact ⟨fuel, h fuel (Nat.le_refl fuel)⟩
  · rintro ⟨fuel, h⟩
    exact ⟨fuel, fun fuel' hle => alignof_mono h hle⟩

theorem AlignOf.small (h : AlignOf D t n) : Small n := by
  obtain ⟨fuel, h⟩ := alignOf_iff.mp h
  exact alignof_small h

/-- The alignment of a struct is a multiple of those of its fields. -/
theorem field_align {name : String} {fields : List (String × TypeRef)}
    (h : fieldsOf D name = some fields) (ht : t ∈ fields.map (·.2))
    (hm : AlignOf D (.named name) m) : ∃ n, AlignOf D t n ∧ n ∣ m := by
  obtain ⟨fuel, hfuel⟩ := alignOf_iff.mp hm
  cases fuel with
  | zero => cases hfuel
  | succ fuel =>
    rw [struct_alignof h] at hfuel
    obtain ⟨aligns, haligns, rfl⟩ := map_eq_ok.mp hfuel
    obtain ⟨n, hn, hmem⟩ := mem_left (eachOk_iff.mp haligns) ht
    exact ⟨n, alignOf_iff.mpr ⟨fuel, hmem⟩,
      (alignof_small hmem).1.dvd_of_le hm.small.1 (le_max hn)⟩

theorem within_align {o : ℕ} (h : Within D t o u) (hn : AlignOf D u n) (hm : AlignOf D t m) :
    n ∣ m := by
  induction h generalizing m with
  | self t =>
    cases hn.unique hm
    exact Nat.dvd_refl n
  | field h ho _ ih =>
    obtain ⟨ls, i, -, ht, -⟩ := ho
    obtain ⟨k, hk, hdvd⟩ := field_align h (List.mem_of_getElem? ht) hm
    exact Nat.dvd_trans (ih hn hk) hdvd

end Alignments

section Offsets
variable {D : TypeTables} {t u : TypeRef} {l : Layout} {n o : ℕ}

theorem hasLayout_unique {k : Layout} (h : HasLayout D t l) (hk : HasLayout D t k) : l = k := by
  obtain ⟨llvm, fuel, hllvm, hl⟩ := h
  obtain ⟨llvm', fuel', hllvm', hk⟩ := hk
  cases hllvm.symm.trans hllvm'
  exact layout_unique hl hk

theorem builtin_hasLayout : ∀ row ∈ builtins, HasLayout D (.named row.1) row.2.2 :=
  fun row hrow => ⟨row.2.1, 3, builtin_llvm row hrow, builtin_layout _ row hrow⟩

theorem builtin_wide : ∀ row ∈ builtins, row.1 ∈ shadowed → row.2.2.align = 8 := by
  simp [builtins, shadowed]

theorem reserved_align {name : String} {fuel : ℕ} (hname : name ∈ reserved)
    (hn : alignofType D (fuel + 1) (.named name) = .ok n) (hl : HasLayout D (.named name) l) :
    n ≤ l.align := by
  change alignofNamed D _ name = _ at hn
  rcases reserved_cases hname with ⟨row, hrow, rfl⟩ | rfl | rfl
  · obtain rfl := hasLayout_unique hl (builtin_hasLayout row hrow)
    by_cases hfree : row.1 ∈ shadowed → D.enums row.1 = false
    · cases hn.symm.trans (builtin_alignof _ row hrow hfree)
      exact Nat.le_refl _
    · obtain ⟨hmem, henum⟩ := Classical.not_imp.mp hfree
      cases hn.symm.trans (shadowed_alignof hmem (Bool.not_eq_false _ ▸ henum))
      rw [builtin_wide row hrow hmem]
      decide
  · cases hn
  · exact absurd (hn.symm.trans (raw_alignof fuel)) (by rintro ⟨⟩)

/-- What `llvm_type` makes of a declared name: an interface, an enum or a struct. -/
theorem declared_cases {name : String} (hname : name ∉ reserved)
    (hl : HasLayout D (.named name) l) :
    (l = ⟨16, 8⟩ ∧ D.ifaces name = true) ∨ (l = ⟨4, 4⟩ ∧ D.enums name = true) ∨
      ∃ fields ls, fieldsOf D name = some fields ∧ l = structLayout ls ∧
        (∀ l ∈ ls, l.Regular) ∧ List.Forall₂ (HasLayout D) (fields.map (·.2)) ls := by
  obtain ⟨llvm, fuel, hllvm, h⟩ := hl
  change llvmNamed D name = .ok llvm at hllvm
  rw [declared_llvm hname] at hllvm
  by_cases hiface : D.ifaces name = true
  · rw [if_pos hiface] at hllvm
    cases hllvm
    exact Or.inl ⟨layout_unique h
      (show layout (bodies D) 2 (.literal [.pointer, .pointer]) = some ⟨16, 8⟩ from rfl), hiface⟩
  · rw [if_neg hiface] at hllvm
    by_cases henum : D.enums name = true
    · rw [if_pos henum] at hllvm
      cases hllvm
      exact Or.inr (Or.inl ⟨layout_unique h
        (show layout (bodies D) 1 (.int 32) = some ⟨4, 4⟩ from rfl), henum⟩)
    · rw [if_neg henum] at hllvm
      cases hfields : D.structs name with
      | none =>
        rw [hfields] at hllvm
        cases hllvm
      | some fields =>
        rw [hfields] at hllvm
        cases hllvm
        obtain ⟨ls, rfl, hregular, hls⟩ := struct_layouts hfields (layout_succ h)
        have hknown : fieldsOf D name = some fields := by rw [fieldsOf, if_neg hname, hfields]
        refine Or.inr (Or.inr ⟨fields, ls, hknown, rfl, hregular, hls.imp ?_⟩)
        rintro t k ⟨llvm, hllvm, hk⟩
        exact ⟨llvm, fuel, hllvm, hk⟩

/-- The alignment of LLVM is at least that of `alignof_type`. -/
theorem align_le {fuel : ℕ} (hn : alignofType D fuel t = .ok n) (hl : HasLayout D t l) :
    n ≤ l.align := by
  induction fuel generalizing t n l with
  | zero => cases hn
  | succ fuel ih =>
    cases t with
    | named name =>
      by_cases hname : name ∈ reserved
      · exact reserved_align hname hn hl
      · rcases declared_cases hname hl with
          ⟨rfl, -⟩ | ⟨rfl, henum⟩ | ⟨fields, ls, h, rfl, hregular, hls⟩
        · exact (alignof_small hn).2
        · change alignofNamed D _ name = _ at hn
          rw [declared_alignof hname, if_pos henum] at hn
          cases hn
          exact Nat.le_refl 4
        · rw [struct_alignof h] at hn
          obtain ⟨aligns, haligns, rfl⟩ := map_eq_ok.mp hn
          refine max_le (one_le_maxAlign ls) fun n hmem => ?_
          obtain ⟨t, ht, hn⟩ := mem_right (eachOk_iff.mp haligns) hmem
          obtain ⟨l, hl, hlayout⟩ := mem_left hls ht
          exact Nat.le_trans (ih hn hlayout)
            (Nat.le_of_dvd (one_le_maxAlign ls) (align_dvd_maxAlign hregular hl))
    | _ =>
      obtain ⟨llvm, depth, hllvm, hdepth⟩ := hl
      obtain ⟨k, hk⟩ := sized_compound (by rintro name ⟨⟩) hllvm hdepth
      have halign : AlignOf D _ l.align :=
        ⟨k, fun fuel hfuel => (knows_of_settled (hk fuel hfuel)).2⟩
      cases (alignOf_iff.mpr ⟨_, hn⟩).unique halign
      exact Nat.le_refl _

theorem AlignOf.dvd_align (hn : AlignOf D t n) (hl : HasLayout D t l) : n ∣ l.align := by
  obtain ⟨fuel, h⟩ := alignOf_iff.mp hn
  exact hn.small.1.dvd_of_le hl.regular.pow (align_le h hl)

/-- The alignment of a struct in LLVM is a multiple of those of its fields. -/
theorem field_layout {name : String} {fields : List (String × TypeRef)}
    (h : fieldsOf D name = some fields) (ht : t ∈ fields.map (·.2))
    (hl : HasLayout D (.named name) l) : ∃ k, HasLayout D t k ∧ k.align ∣ l.align := by
  obtain ⟨hname, -, henum, hiface⟩ := fieldsOf_cases h
  rcases declared_cases hname hl with
    ⟨-, hiface'⟩ | ⟨-, henum'⟩ | ⟨fields', ls, h', rfl, hregular, hls⟩
  · cases hiface.symm.trans hiface'
  · cases henum.symm.trans henum'
  · cases h.symm.trans h'
    obtain ⟨k, hk, hlayout⟩ := mem_left hls ht
    exact ⟨k, hlayout, align_dvd_maxAlign hregular hk⟩

theorem within_layout (h : Within D t o u) (hn : AlignOf D u n) (hl : HasLayout D t l) :
    n ∣ l.align := by
  induction h generalizing l with
  | self t => exact hn.dvd_align hl
  | field h ho _ ih =>
    obtain ⟨ls, i, -, ht, -⟩ := ho
    obtain ⟨k, hk, hdvd⟩ := field_layout h (List.mem_of_getElem? ht) hl
    exact Nat.dvd_trans (ih hn hk) hdvd

/-- A field stands at a multiple of what it contains. -/
theorem fieldAt_dvd {ts : List TypeRef} {off : ℕ} (ho : FieldAt D ts o t) (h : Within D t off u)
    (hn : AlignOf D u n) : n ∣ o := by
  obtain ⟨ls, i, hls, ht, hoff⟩ := ho
  have hregular : ∀ l ∈ ls, l.Regular := fun l hl => by
    obtain ⟨t, -, hlayout⟩ := mem_right hls hl
    exact hlayout.regular
  obtain ⟨l, hl, hlayout⟩ := getElem_left hls ht
  exact Nat.dvd_trans (within_layout h hn hlayout) (field_placed hregular hl hoff).1

theorem within_dvd (h : Within D t o u) (hn : AlignOf D u n) : n ∣ o := by
  induction h with
  | self t => exact Nat.dvd_zero n
  | field _ ho hu ih => exact Nat.dvd_add (fieldAt_dvd ho hu hn) (ih hn)

end Offsets

section Objects
variable {D : TypeTables} {object : HeapObject} {u : TypeRef} {n o : ℕ}

/-- The numbers of `map_desc` that the alignments of key and value divide. -/
theorem mapDesc_aligned {key value : TypeRef} {desc : MapDesc}
    (h : Settles (fun fuel => mapDesc D fuel key value) (.ok desc)) :
    ∃ k v, AlignOf D key k ∧ AlignOf D value v ∧ k ∣ desc.keyOffset ∧ k ∣ desc.entrySize ∧
      v ∣ desc.valueOffset ∧ v ∣ desc.entrySize := by
  obtain ⟨fuel, h⟩ := h
  have h := h fuel (Nat.le_refl fuel)
  change mapDesc D fuel key value = _ at h
  rw [mapDesc] at h
  obtain ⟨keySize, -, h⟩ := bind_eq_ok.mp h
  obtain ⟨valueSize, -, h⟩ := bind_eq_ok.mp h
  obtain ⟨k, hk, h⟩ := bind_eq_ok.mp h
  obtain ⟨v, hv, h⟩ := bind_eq_ok.mp h
  cases h
  have hkpow := (alignof_small hk).1
  have hvpow := (alignof_small hv).1
  have hentry := isPow_max (isPow_max (isPow_max pow_eight hkpow) hvpow) pow_four
  refine ⟨k, v, alignOf_iff.mpr ⟨fuel, hk⟩, alignOf_iff.mpr ⟨fuel, hv⟩, Nat.dvd_zero k, ?_,
    dvd_alignTo _ _, ?_⟩
  · exact Nat.dvd_trans (hkpow.dvd_of_le hentry (by omega)) (dvd_alignTo _ _)
  · exact Nat.dvd_trans (hvpow.dvd_of_le hentry (by omega)) (dvd_alignTo _ _)

/-- The offsets from the payload on are multiples of the alignments. -/
theorem place_dvd (h : Place D object o u) (hn : AlignOf D u n) : n ∣ o := by
  cases h with
  | struct h => exact within_dvd h hn
  | element hi hl h =>
    have hsize := Nat.dvd_trans (within_layout h hn hl) hl.regular.dvd
    exact Nat.dvd_add (Nat.dvd_mul_left_of_dvd hsize _) (within_dvd h hn)
  | key hi hdesc h =>
    obtain ⟨k, v, hk, -, hoffset, hentry, -, -⟩ := mapDesc_aligned hdesc
    have hdvd := within_align h hn hk
    exact Nat.dvd_add (Nat.dvd_add (Nat.dvd_mul_left_of_dvd (Nat.dvd_trans hdvd hentry) _)
      (Nat.dvd_trans hdvd hoffset)) (within_dvd h hn)
  | value hi hdesc h =>
    obtain ⟨k, v, -, hv, -, -, hoffset, hentry⟩ := mapDesc_aligned hdesc
    have hdvd := within_align h hn hv
    exact Nat.dvd_add (Nat.dvd_add (Nat.dvd_mul_left_of_dvd (Nat.dvd_trans hdvd hentry) _)
      (Nat.dvd_trans hdvd hoffset)) (within_dvd h hn)
  | capture ho h => exact Nat.dvd_add (fieldAt_dvd ho h hn) (within_dvd h hn)

theorem small_dvd_twenty (h : Small n) : n ∣ 20 ↔ n ≤ 4 := by
  obtain ⟨⟨k, rfl⟩, hle⟩ := h
  have hk : k ≤ 3 := (Nat.pow_le_pow_iff_right (by decide : 1 < 2)).mp hle
  obtain rfl | rfl | rfl | rfl : k = 0 ∨ k = 1 ∨ k = 2 ∨ k = 3 := by omega
  all_goals decide

theorem small_dvd_sixteen (h : Small n) : n ∣ 16 :=
  h.1.dvd_of_le ⟨4, rfl⟩ (Nat.le_trans h.2 (by decide))

/-- The payload starts 20 bytes into its block, so the values of an object are aligned if and only
if none of them wants more than 4. -/
theorem heap_aligned (D : TypeTables) (object : HeapObject) :
    Aligned D object ↔ Narrow D object := by
  constructor
  · intro h o u n hplace hn
    have hsum := h 16 o u n (Nat.dvd_refl 16) hplace hn
    have hpayload : n ∣ gcAlloc 16 := (Nat.dvd_add_iff_left (place_dvd hplace hn)).mpr hsum
    have htwenty : n ∣ 20 := (Nat.dvd_add_right (small_dvd_sixteen hn.small)).mp hpayload
    exact (small_dvd_twenty hn.small).mp htwenty
  · intro h block o u n hblock hplace hn
    have htwenty := (small_dvd_twenty hn.small).mpr (h o u n hplace hn)
    have hpayload := Nat.dvd_add (Nat.dvd_trans (small_dvd_sixteen hn.small) hblock) htwenty
    exact Nat.dvd_add hpayload (place_dvd hplace hn)

/-- A slice of one `i64`. -/
theorem heap_i64 : ¬ ∀ (D : TypeTables) (object : HeapObject), Aligned D object := by
  intro h
  have hi64 : HasLayout noTables (.named "i64") ⟨8, 8⟩ := ⟨.int 64, 1, rfl, rfl⟩
  have hplace : Place noTables (.elements (.named "i64") 1) (0 * 8 + 0) (.named "i64") :=
    .element Nat.one_pos hi64 (.self _)
  have halign : AlignOf noTables (.named "i64") 8 := alignOf_iff.mpr ⟨1, rfl⟩
  have hdvd := h noTables _ 16 _ _ 8 (Nat.dvd_refl 16) hplace halign
  revert hdvd
  decide

end Objects

end NewClLang.HeapAlignment
