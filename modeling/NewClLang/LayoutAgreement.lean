import NewClLang.TypeLayouts
import NewClLang.ExceptOutcomes

set_option autoImplicit false

/-!
# The computed layouts are those of LLVM

The compiler computes sizes and alignments by a recursion of its own over the types.
-/
namespace NewClLang.LayoutAgreement
open DataLayouts ExceptOutcomes TypeLayouts
open TypeRefs (TypeRef)

section Names
variable {D : TypeTables}

/-- The names that mean the same in every program, with the layouts of their types. -/
def builtins : List (String × IRType × Layout) :=
  [("i8", .int 8, ⟨1, 1⟩), ("u8", .int 8, ⟨1, 1⟩), ("bool", .int 1, ⟨1, 1⟩),
    ("i16", .int 16, ⟨2, 2⟩), ("u16", .int 16, ⟨2, 2⟩),
    ("i32", .int 32, ⟨4, 4⟩), ("u32", .int 32, ⟨4, 4⟩), ("rune", .int 32, ⟨4, 4⟩),
    ("f32", .float, ⟨4, 4⟩),
    ("i64", .int 64, ⟨8, 8⟩), ("u64", .int 64, ⟨8, 8⟩), ("f64", .double, ⟨8, 8⟩),
    ("str", strType, ⟨16, 8⟩), ("error", errorType, ⟨40, 8⟩), ("nc_map", mapType, ⟨40, 8⟩)]

def reserved : List String := builtins.map (·.1) ++ ["void", "raw"]

/-- The names that `sizeof_type` and `alignof_type` look up among the enums first. -/
def shadowed : List String := ["i64", "u64", "f64", "str", "error", "nc_map"]

theorem builtin_llvm : ∀ row ∈ builtins, llvmNamed D row.1 = .ok row.2.1 := by
  simp [builtins, llvmNamed, intBits]

theorem builtin_layout (bodies : String → Option (List IRType)) :
    ∀ row ∈ builtins, layout bodies 3 row.2.1 = some row.2.2 := by
  rw [builtins]
  repeat refine List.forall_mem_cons.mpr ⟨rfl, ?_⟩
  exact fun _ h => absurd h List.not_mem_nil

theorem builtin_sizeof (sizeof alignof : TypeRef → Except Unsupported ℕ) :
    ∀ row ∈ builtins, (row.1 ∈ shadowed → D.enums row.1 = false) →
      sizeofNamed D sizeof alignof row.1 = .ok row.2.2.size := by
  intro row hrow hfree
  rw [builtins] at hrow
  repeat
    rcases List.mem_cons.mp hrow with rfl | hrow
    · simp [sizeofNamed, shadowed] at hfree ⊢
      try simp [hfree]
  cases hrow

theorem builtin_alignof (alignof : TypeRef → Except Unsupported ℕ) :
    ∀ row ∈ builtins, (row.1 ∈ shadowed → D.enums row.1 = false) →
      alignofNamed D alignof row.1 = .ok row.2.2.align := by
  intro row hrow hfree
  rw [builtins] at hrow
  repeat
    rcases List.mem_cons.mp hrow with rfl | hrow
    · simp [alignofNamed, shadowed] at hfree ⊢
      try simp [hfree]
  cases hrow

theorem not_builtin {name : String} (h : name ∉ reserved) :
    intBits name = none ∧ name ≠ "f32" ∧ name ≠ "f64" ∧ name ≠ "str" ∧ name ≠ "error" ∧
      name ≠ "nc_map" ∧ name ≠ "void" ∧ name ≠ "raw" := by
  simp only [reserved, builtins, List.map_cons, List.map_nil, List.cons_append, List.nil_append,
    List.mem_cons, List.not_mem_nil, or_false, not_or] at h
  simp [intBits, h]

theorem declared_llvm {name : String} (h : name ∉ reserved) :
    llvmNamed D name =
      if D.ifaces name then .ok (.literal [.pointer, .pointer])
      else if D.enums name then .ok (.int 32)
      else if (D.structs name).isSome then .ok (.identified name)
      else .error (.llvm (.named name)) := by
  obtain ⟨hint, hf32, hf64, hstr, herror, hmap, hvoid, hraw⟩ := not_builtin h
  simp [llvmNamed, hint, hf32, hf64, hstr, herror, hmap, hvoid, hraw]

theorem declared_sizeof {name : String} (h : name ∉ reserved)
    (sizeof alignof : TypeRef → Except Unsupported ℕ) :
    sizeofNamed D sizeof alignof name =
      if D.enums name = true then .ok 4
      else if D.ifaces name = true then .ok 16
      else match D.structs name with
        | some fields => sizeofLoop sizeof alignof 0 1 (fields.map (·.2))
        | none => .error (.sizeof (.named name)) := by
  simp only [reserved, builtins, List.map_cons, List.map_nil, List.cons_append, List.nil_append,
    List.mem_cons, List.not_mem_nil, or_false, not_or] at h
  cases hfields : D.structs name <;> simp [sizeofNamed, h, hfields]

theorem declared_alignof {name : String} (h : name ∉ reserved)
    (alignof : TypeRef → Except Unsupported ℕ) :
    alignofNamed D alignof name =
      if D.enums name = true then .ok 4
      else if D.ifaces name = true then .ok 8
      else match D.structs name with
        | some fields => (eachOk alignof (fields.map (·.2))).map fun aligns => aligns.max?.getD 1
        | none => .error (.alignof (.named name)) := by
  simp only [reserved, builtins, List.map_cons, List.map_nil, List.cons_append, List.nil_append,
    List.mem_cons, List.not_mem_nil, or_false, not_or] at h
  cases hfields : D.structs name with
  | none => simp [alignofNamed, h, hfields]
  | some fields =>
    simp [alignofNamed, h, hfields]
    rfl

end Names

section Fields
variable {sizeof alignof : TypeRef → Except Unsupported ℕ} {ts : List TypeRef} {ls : List Layout}

/-- The two functions know the layout of the type. -/
def Knows (sizeof alignof : TypeRef → Except Unsupported ℕ) (t : TypeRef) (l : Layout) : Prop :=
  sizeof t = .ok l.size ∧ alignof t = .ok l.align

theorem sizeofLoop_eq (h : List.Forall₂ (Knows sizeof alignof) ts ls) (offset : ℕ) {largest : ℕ}
    (hpos : 0 < largest) :
    sizeofLoop sizeof alignof offset largest ts =
      .ok (alignTo (fieldsEnd offset ls) (max largest (maxAlign ls))) := by
  induction h generalizing offset largest with
  | nil => rw [sizeofLoop, fieldsEnd, maxAlign, Nat.max_eq_left hpos]
  | @cons t l ts ls hl hrest ih =>
    obtain ⟨hsize, halign⟩ := hl
    have hlarger : 0 < max largest l.align := by omega
    rw [sizeofLoop, bind_ok halign, bind_ok hsize, ih _ hlarger, fieldsEnd, maxAlign, Nat.max_assoc]

theorem eachOk_aligns (h : List.Forall₂ (Knows sizeof alignof) ts ls) :
    eachOk alignof ts = .ok (ls.map (·.align)) := by
  induction h with
  | nil => rfl
  | cons hl hrest ih => rw [eachOk, bind_ok hl.2, bind_ok ih, List.map_cons]

theorem max_aligns (h : ∀ l ∈ ls, l.Regular) :
    (ls.map (·.align)).max?.getD 1 = maxAlign ls := by
  induction ls with
  | nil => rfl
  | cons l ls ih =>
    have hlater := ih fun k hk => h k (List.mem_cons_of_mem l hk)
    have hpos := (h l List.mem_cons_self).pow.pos
    rw [List.map_cons, List.max?_cons, maxAlign, ← hlater, Option.getD_some]
    cases (ls.map (·.align)).max? with
    | none => exact (Nat.max_eq_left hpos).symm
    | some m => rfl

end Fields

section Types
variable {D : TypeTables} {t u : TypeRef} {l : Layout}

def fieldsOf (D : TypeTables) (name : String) : Option (List (String × TypeRef)) :=
  if name ∈ reserved then none else D.structs name

/-- The types of which values stand inside of a value of the type. -/
inductive Inlined (D : TypeTables) : TypeRef → TypeRef → Prop where
  | self (t : TypeRef) : Inlined D t t
  | field {name f : String} {fields : List (String × TypeRef)} {t u : TypeRef}
    (h : fieldsOf D name = some fields) (hf : (f, t) ∈ fields) (hu : Inlined D t u) :
    Inlined D (.named name) u

/-- The type is not `raw`, and it is not a builtin that an enum is named after. -/
def Plain (D : TypeTables) (t : TypeRef) : Prop :=
  t ≠ .named "raw" ∧ ∀ name ∈ shadowed, t = .named name → D.enums name = false

/-- A computation that comes to its end with enough fuel. -/
def Settles {α : Type} (f : ℕ → α) (x : α) : Prop := ∃ n, ∀ fuel ≥ n, f fuel = x

theorem Settles.unique {α : Type} {f : ℕ → α} {x y : α} (hx : Settles f x) (hy : Settles f y) :
    x = y := by
  obtain ⟨n, hn⟩ := hx
  obtain ⟨m, hm⟩ := hy
  exact (hn (n + m) (Nat.le_add_right n m)).symm.trans (hm (n + m) (Nat.le_add_left m n))

/-- What the data layout gives to `llvm_type`. -/
def HasLayout (D : TypeTables) (t : TypeRef) (l : Layout) : Prop :=
  ∃ llvm fuel, llvmType D t = .ok llvm ∧ layout (bodies D) fuel llvm = some l

/-- The functions of the compiler give the layout. -/
def Sized (D : TypeTables) (t : TypeRef) (l : Layout) : Prop :=
  Settles (fun fuel => (sizeofType D fuel t, alignofType D fuel t)) (.ok l.size, .ok l.align)

theorem Sized.of_all (h : ∀ fuel, Knows (sizeofType D (fuel + 1)) (alignofType D (fuel + 1)) t l) :
    Sized D t l := by
  refine ⟨1, fun fuel hfuel => ?_⟩
  obtain ⟨fuel, rfl⟩ : ∃ n, fuel = n + 1 := ⟨fuel - 1, by omega⟩
  exact Prod.ext (h fuel).1 (h fuel).2

theorem knows_of_settled {fuel : ℕ}
    (h : (sizeofType D fuel t, alignofType D fuel t) = (.ok l.size, .ok l.align)) :
    Knows (sizeofType D fuel) (alignofType D fuel) t l :=
  ⟨congrArg Prod.fst h, congrArg Prod.snd h⟩

theorem sized_all {ts : List TypeRef} {ls : List Layout} (h : List.Forall₂ (Sized D) ts ls) :
    ∃ n, ∀ fuel ≥ n, List.Forall₂ (Knows (sizeofType D fuel) (alignofType D fuel)) ts ls := by
  induction h with
  | nil => exact ⟨0, fun _ _ => .nil⟩
  | cons hl _ ih =>
    obtain ⟨n, hn⟩ := hl
    obtain ⟨m, hm⟩ := ih
    refine ⟨n + m, fun fuel hfuel => .cons (knows_of_settled (hn fuel (by omega))) ?_⟩
    exact hm fuel (by omega)

theorem sizeofFields_eq {fuel : ℕ} {ts : List TypeRef} {ls : List Layout}
    (h : List.Forall₂ (Knows (sizeofType D fuel) (alignofType D fuel)) ts ls) :
    sizeofFields D fuel ts = .ok (structLayout ls).size := by
  have hloop := sizeofLoop_eq h 0 Nat.one_pos
  rw [Nat.max_eq_right (one_le_maxAlign ls)] at hloop
  exact hloop

theorem Inlined.trans {v : TypeRef} (h : Inlined D t u) (hu : Inlined D u v) : Inlined D t v := by
  induction h with
  | self => exact hu
  | field h hf _ ih => exact .field h hf (ih hu)

theorem llvmTypes_each {ts : List TypeRef} {elems : List IRType}
    (h : llvmTypes D ts = .ok elems) :
    List.Forall₂ (fun t llvm => llvmType D t = .ok llvm) ts elems := by
  induction ts generalizing elems with
  | nil =>
    cases h
    exact .nil
  | cons t ts ih =>
    rw [llvmTypes] at h
    obtain ⟨llvm, hllvm, h⟩ := bind_eq_ok.mp h
    obtain ⟨rest, hrest, h⟩ := bind_eq_ok.mp h
    cases h
    exact .cons hllvm (ih hrest)

theorem Forall₂.comp {α β γ : Type} {R : α → β → Prop} {S : β → γ → Prop} {as : List α}
    {bs : List β} {cs : List γ} (h : List.Forall₂ R as bs) (hs : List.Forall₂ S bs cs) :
    List.Forall₂ (fun a c => ∃ b, R a b ∧ S b c) as cs := by
  induction h generalizing cs with
  | nil =>
    cases hs
    exact .nil
  | cons hr _ ih =>
    cases hs with
    | cons hs hrest => exact .cons ⟨_, hr, hs⟩ (ih hrest)

/-- The types of the fields of an identified type have layouts of their own. -/
theorem struct_layouts {name : String} {fields : List (String × TypeRef)} {fuel : ℕ}
    (hfields : D.structs name = some fields)
    (h : layout (bodies D) (fuel + 1) (.identified name) = some l) :
    ∃ ls, l = structLayout ls ∧ (∀ l ∈ ls, l.Regular) ∧
      List.Forall₂ (fun t l => ∃ llvm, llvmType D t = .ok llvm ∧
        layout (bodies D) fuel llvm = some l) (fields.map (·.2)) ls := by
  obtain ⟨elems, hbody, h⟩ := Option.bind_eq_some_iff.mp h
  obtain ⟨ls, hls, rfl⟩ := Option.map_eq_some_iff.mp h
  rw [bodies, hfields, Option.bind_some] at hbody
  have htypes : llvmTypes D (fields.map (·.2)) = .ok elems := by
    cases hllvm : llvmTypes D (fields.map (·.2)) with
    | error e =>
      rw [hllvm] at hbody
      cases hbody
    | ok elems' =>
      rw [hllvm] at hbody
      cases hbody
      rfl
  exact ⟨ls, rfl, forall_of_each (fun _ _ h => layout_regular h) hls,
    Forall₂.comp (llvmTypes_each htypes) (each_iff.mp hls)⟩

theorem settled_fixed {size align : ℕ} (hsize : ∀ fuel, sizeofType D (fuel + 1) t = .ok size)
    (halign : ∀ fuel, alignofType D (fuel + 1) t = .ok align) : Sized D t ⟨size, align⟩ :=
  .of_all fun fuel => ⟨hsize fuel, halign fuel⟩

theorem not_enum_of_struct {name : String} {fields : List (String × TypeRef)}
    (h : D.structs name = some fields) : D.enums name = false := by
  cases henum : D.enums name with
  | false => rfl
  | true => cases h.symm.trans (D.enum_once name henum).2

theorem not_iface_of_struct {name : String} {fields : List (String × TypeRef)}
    (h : D.structs name = some fields) : D.ifaces name = false := by
  cases hiface : D.ifaces name with
  | false => rfl
  | true => cases h.symm.trans (D.iface_once name hiface)

theorem sized_struct {name : String} {fields : List (String × TypeRef)} {ls : List Layout}
    (hname : name ∉ reserved) (hfields : D.structs name = some fields)
    (hregular : ∀ l ∈ ls, l.Regular) (h : List.Forall₂ (Sized D) (fields.map (·.2)) ls) :
    Sized D (.named name) (structLayout ls) := by
  obtain ⟨n, hn⟩ := sized_all h
  refine ⟨n + 1, fun fuel hfuel => ?_⟩
  obtain ⟨fuel, rfl⟩ : ∃ m, fuel = m + 1 := ⟨fuel - 1, by omega⟩
  have hknows := hn fuel (by omega)
  refine Prod.ext ?_ ?_
  · change sizeofNamed D _ _ name = _
    rw [declared_sizeof hname, not_enum_of_struct hfields, not_iface_of_struct hfields, hfields]
    exact sizeofFields_eq hknows
  · change alignofNamed D _ name = _
    rw [declared_alignof hname, not_enum_of_struct hfields, not_iface_of_struct hfields, hfields]
    change (eachOk (alignofType D fuel) (fields.map (·.2))).map _ = _
    rw [eachOk_aligns hknows]
    exact congrArg Except.ok (max_aligns hregular)

theorem not_enum_of_iface {name : String} (h : D.ifaces name = true) : D.enums name = false := by
  cases henum : D.enums name with
  | false => rfl
  | true =>
    have hnone := (D.enum_once name henum).1
    rw [h] at hnone
    cases hnone

theorem sized_iface {name : String} (hname : name ∉ reserved) (h : D.ifaces name = true) :
    Sized D (.named name) ⟨16, 8⟩ := by
  refine settled_fixed (fun fuel => ?_) (fun fuel => ?_)
  · change sizeofNamed D _ _ name = _
    rw [declared_sizeof hname, not_enum_of_iface h, h]
    rfl
  · change alignofNamed D _ name = _
    rw [declared_alignof hname, not_enum_of_iface h, h]
    rfl

theorem sized_enum {name : String} (hname : name ∉ reserved) (h : D.enums name = true) :
    Sized D (.named name) ⟨4, 4⟩ := by
  refine settled_fixed (fun fuel => ?_) (fun fuel => ?_)
  · change sizeofNamed D _ _ name = _
    rw [declared_sizeof hname, if_pos h]
  · change alignofNamed D _ name = _
    rw [declared_alignof hname, if_pos h]

/-- The types that are not named have one layout for each constructor. -/
theorem sized_compound {fuel : ℕ} {llvm : IRType} (hnamed : ∀ name, t ≠ .named name)
    (hllvm : llvmType D t = .ok llvm) (h : layout (bodies D) fuel llvm = some l) :
    Sized D t l := by
  cases t with
  | named name => exact absurd rfl (hnamed name)
  | pointer inner nullable =>
    obtain ⟨_, _, hok⟩ := bind_eq_ok.mp hllvm
    cases hok
    obtain rfl := layout_unique h (show layout (bodies D) 1 .pointer = some ⟨8, 8⟩ from rfl)
    exact settled_fixed (fun _ => rfl) (fun _ => rfl)
  | slice elem =>
    obtain ⟨_, _, hok⟩ := bind_eq_ok.mp hllvm
    cases hok
    obtain rfl := layout_unique h
      (show layout (bodies D) 2 (.literal [.pointer, .int 64, .int 64]) = some ⟨24, 8⟩ from rfl)
    exact settled_fixed (fun _ => rfl) (fun _ => rfl)
  | array length elem =>
    obtain ⟨_, _, hok⟩ := bind_eq_ok.mp hllvm
    cases hok
    obtain rfl := layout_unique h (show layout (bodies D) 1 .pointer = some ⟨8, 8⟩ from rfl)
    exact settled_fixed (fun _ => rfl) (fun _ => rfl)
  | function params ret fallible =>
    obtain ⟨_, _, hok⟩ := bind_eq_ok.mp hllvm
    obtain ⟨_, _, hok⟩ := bind_eq_ok.mp hok
    cases hok
    obtain rfl := layout_unique h
      (show layout (bodies D) 2 (.literal [.pointer, .pointer]) = some ⟨16, 8⟩ from rfl)
    exact settled_fixed (fun _ => rfl) (fun _ => rfl)
  | generic base args =>
    rw [llvmType] at hllvm
    by_cases hmap : isMap base args = true
    · rw [if_pos hmap] at hllvm
      cases hllvm
      obtain rfl := layout_unique h
        (show layout (bodies D) 2 mapType = some ⟨40, 8⟩ from rfl)
      exact settled_fixed (fun _ => if_pos hmap) (fun _ => if_pos hmap)
    · rw [if_neg hmap] at hllvm
      cases hllvm

/-- Where no `raw` and no enum of a builtin's name stands inside of a type, the compiler computes
its layout. -/
theorem sized_of_plain {fuel : ℕ} {llvm : IRType} (hllvm : llvmType D t = .ok llvm)
    (h : layout (bodies D) fuel llvm = some l) (hplain : ∀ u, Inlined D t u → Plain D u) :
    Sized D t l := by
  induction fuel generalizing t llvm l with
  | zero => cases h
  | succ fuel ih =>
    cases t with
    | named name =>
      change llvmNamed D name = .ok llvm at hllvm
      have hself := hplain _ (.self _)
      by_cases hbuiltin : name ∈ builtins.map (·.1)
      · obtain ⟨row, hrow, rfl⟩ := List.mem_map.mp hbuiltin
        rw [builtin_llvm row hrow] at hllvm
        cases hllvm
        obtain rfl := layout_unique h (builtin_layout _ row hrow)
        have hfree : row.1 ∈ shadowed → D.enums row.1 = false := fun hmem => hself.2 _ hmem rfl
        exact settled_fixed (fun _ => builtin_sizeof _ _ row hrow hfree)
          (fun _ => builtin_alignof _ row hrow hfree)
      · by_cases hvoid : name = "void"
        · subst hvoid
          cases hllvm
          cases h
        · have hname : name ∉ reserved := by
            intro hmem
            rcases List.mem_append.mp hmem with hmem | hmem
            · exact hbuiltin hmem
            · rcases List.mem_cons.mp hmem with rfl | hmem
              · exact hvoid rfl
              · exact hself.1 (congrArg TypeRef.named (List.mem_singleton.mp hmem))
          rw [declared_llvm hname] at hllvm
          by_cases hiface : D.ifaces name = true
          · rw [if_pos hiface] at hllvm
            cases hllvm
            obtain rfl := layout_unique h
              (show layout (bodies D) 2 (.literal [.pointer, .pointer]) = some ⟨16, 8⟩ from rfl)
            exact sized_iface hname hiface
          · rw [if_neg hiface] at hllvm
            by_cases henum : D.enums name = true
            · rw [if_pos henum] at hllvm
              cases hllvm
              obtain rfl := layout_unique h
                (show layout (bodies D) 1 (.int 32) = some ⟨4, 4⟩ from rfl)
              exact sized_enum hname henum
            · rw [if_neg henum] at hllvm
              cases hfields : D.structs name with
              | none =>
                rw [hfields] at hllvm
                cases hllvm
              | some fields =>
                rw [hfields] at hllvm
                cases hllvm
                obtain ⟨ls, rfl, hregular, hls⟩ := struct_layouts hfields h
                have hinlined : fieldsOf D name = some fields := by
                  rw [fieldsOf, if_neg hname, hfields]
                have hparts : ∀ u ∈ fields.map (·.2), ∀ v, Inlined D u v → Plain D v := by
                  intro u hu v hv
                  obtain ⟨field, hfield, rfl⟩ := List.mem_map.mp hu
                  exact hplain v (.field hinlined hfield hv)
                refine sized_struct hname hfields hregular ?_
                refine ((List.forall₂_and_left _ _).mpr ⟨hparts, hls⟩).imp ?_
                rintro u k ⟨hu, llvm, hllvm, hk⟩
                exact ih hllvm hk hu
    | _ => exact sized_compound (by rintro name ⟨⟩) hllvm h

end Types

section Agreement
variable {D : TypeTables} {t u : TypeRef} {ts : List TypeRef}

/-- The size, the alignment and the padded size of a type are those of the data layout. -/
def Matches (D : TypeTables) (t : TypeRef) : Prop :=
  ∀ l, HasLayout D t l → Settles (fun fuel => sizeofType D fuel t) (.ok l.size) ∧
    Settles (fun fuel => alignofType D fuel t) (.ok l.align) ∧
    Settles (fun fuel => alignedSizeofType D fuel t) (.ok l.size)

/-- `sizeof_fields` gives the size of the struct of the types. -/
def FieldsMatch (D : TypeTables) (ts : List TypeRef) : Prop :=
  ∀ elems fuel l, llvmTypes D ts = .ok elems → layout (bodies D) fuel (.literal elems) = some l →
    Settles (fun fuel => sizeofFields D fuel ts) (.ok l.size)

/-- The regions of an entry, when `map_desc` describes it. -/
structure Regions (desc : MapDesc) (key value : Layout) : Prop where
  key_size : desc.keySize = key.size
  value_size : desc.valueSize = value.size
  key_value : desc.keyOffset + key.size ≤ desc.valueOffset
  value_state : desc.valueOffset + value.size ≤ desc.stateOffset
  inside : desc.stateOffset + 4 ≤ desc.entrySize
  key_aligned : key.align ∣ desc.keyOffset
  value_aligned : value.align ∣ desc.valueOffset
  state_aligned : 4 ∣ desc.stateOffset
  entry_key : key.align ∣ desc.entrySize
  entry_value : value.align ∣ desc.entrySize
  entry_state : 4 ∣ desc.entrySize

def MapMatches (D : TypeTables) (key value : TypeRef) : Prop :=
  ∀ k v, HasLayout D key k → HasLayout D value v →
    ∃ desc, Settles (fun fuel => mapDesc D fuel key value) (.ok desc) ∧ Regions desc k v

/-- The layouts of the types, of what stands inside of them, of the struct of all of them and of the
maps between them. -/
structure Agrees (D : TypeTables) (ts : List TypeRef) : Prop where
  types : ∀ t ∈ ts, ∀ u, Inlined D t u → Matches D u
  fields : FieldsMatch D ts
  maps : ∀ key ∈ ts, ∀ value ∈ ts, MapMatches D key value

theorem HasLayout.regular {l : Layout} (h : HasLayout D t l) : l.Regular := by
  obtain ⟨llvm, fuel, -, hl⟩ := h
  exact layout_regular hl

theorem HasLayout.sized {l : Layout} (h : HasLayout D t l)
    (hplain : ∀ u, Inlined D t u → Plain D u) : Sized D t l := by
  obtain ⟨llvm, fuel, hllvm, hl⟩ := h
  exact sized_of_plain hllvm hl hplain

theorem matches_of_plain (hplain : ∀ u, Inlined D t u → Plain D u) : Matches D t := by
  intro l hl
  obtain ⟨n, hn⟩ := hl.sized hplain
  have hregular := hl.regular
  refine ⟨⟨n, fun fuel hfuel => (knows_of_settled (hn fuel hfuel)).1⟩,
    ⟨n, fun fuel hfuel => (knows_of_settled (hn fuel hfuel)).2⟩, ⟨n, fun fuel hfuel => ?_⟩⟩
  obtain ⟨hsize, halign⟩ := knows_of_settled (hn fuel hfuel)
  change alignedSizeofType D fuel t = _
  rw [alignedSizeofType, bind_ok hsize, bind_ok halign,
    alignTo_of_dvd hregular.pow.pos hregular.dvd]

theorem fieldsMatch_of_plain (hplain : ∀ t ∈ ts, ∀ u, Inlined D t u → Plain D u) :
    FieldsMatch D ts := by
  intro elems fuel l hts hl
  cases fuel with
  | zero => cases hl
  | succ fuel =>
    obtain ⟨ls, hls, rfl⟩ := Option.map_eq_some_iff.mp hl
    have hlayouts := Forall₂.comp (llvmTypes_each hts) (each_iff.mp hls)
    have hsized : List.Forall₂ (Sized D) ts ls := by
      refine ((List.forall₂_and_left _ _).mpr ⟨hplain, hlayouts⟩).imp ?_
      rintro u k ⟨hu, llvm, hllvm, hk⟩
      exact sized_of_plain hllvm hk hu
    obtain ⟨n, hn⟩ := sized_all hsized
    exact ⟨n, fun fuel hfuel => sizeofFields_eq (hn fuel hfuel)⟩

theorem pow_eight : IsPow 8 := ⟨3, rfl⟩

theorem pow_four : IsPow 4 := ⟨2, rfl⟩

/-- What `map_desc` makes of the two layouts. -/
def entryDesc (key value : Layout) : MapDesc :=
  let valueOffset := alignTo (0 + key.size) value.align
  let stateOffset := alignTo (valueOffset + value.size) 4
  let entrySize := alignTo (stateOffset + 4) (max (max (max 8 key.align) value.align) 4)
  ⟨key.size, value.size, entrySize, 0, valueOffset, stateOffset⟩

theorem entryDesc_regions {key value : Layout} (hkey : key.Regular) (hvalue : value.Regular) :
    Regions (entryDesc key value) key value := by
  have hentry := isPow_max (isPow_max (isPow_max pow_eight hkey.pow) hvalue.pow) pow_four
  refine ⟨rfl, rfl, le_alignTo _ hvalue.pow.pos, le_alignTo _ (by decide),
    le_alignTo _ hentry.pos, Nat.dvd_zero _, dvd_alignTo _ _, dvd_alignTo _ _, ?_, ?_, ?_⟩
  · exact Nat.dvd_trans (hkey.pow.dvd_of_le hentry (by omega)) (dvd_alignTo _ _)
  · exact Nat.dvd_trans (hvalue.pow.dvd_of_le hentry (by omega)) (dvd_alignTo _ _)
  · exact Nat.dvd_trans (pow_four.dvd_of_le hentry (by omega)) (dvd_alignTo _ _)

theorem mapMatches_of_plain {key value : TypeRef} (hkey : ∀ u, Inlined D key u → Plain D u)
    (hvalue : ∀ u, Inlined D value u → Plain D u) : MapMatches D key value := by
  intro k v hk hv
  obtain ⟨n, hn⟩ := hk.sized hkey
  obtain ⟨m, hm⟩ := hv.sized hvalue
  refine ⟨entryDesc k v, ⟨n + m, fun fuel hfuel => ?_⟩, entryDesc_regions hk.regular hv.regular⟩
  obtain ⟨hksize, hkalign⟩ := knows_of_settled (hn fuel (by omega))
  obtain ⟨hvsize, hvalign⟩ := knows_of_settled (hm fuel (by omega))
  change mapDesc D fuel key value = _
  rw [mapDesc, bind_ok hksize, bind_ok hvsize, bind_ok hkalign, bind_ok hvalign]
  rfl

theorem raw_alignof (fuel : ℕ) :
    alignofType D (fuel + 1) (.named "raw") = .error (.alignof (.named "raw")) := by
  change alignofNamed D _ "raw" = _
  simp [alignofNamed, D.raw_enum, D.raw_iface, D.raw_struct]

theorem raw_layout : HasLayout D (.named "raw") ⟨8, 8⟩ := by
  refine ⟨.pointer, 1, ?_, rfl⟩
  change llvmNamed D "raw" = _
  simp [llvmNamed, intBits, D.raw_iface]

theorem shadowed_builtin :
    ∀ name ∈ shadowed, ∃ row ∈ builtins, row.1 = name ∧ row.2.2.size ≠ 4 := by
  simp [shadowed, builtins]

theorem shadowed_sizeof {name : String} (hname : name ∈ shadowed) (henum : D.enums name = true)
    (fuel : ℕ) : sizeofType D (fuel + 1) (.named name) = .ok 4 := by
  change sizeofNamed D _ _ name = _
  simp only [shadowed, List.mem_cons, List.not_mem_nil, or_false] at hname
  rcases hname with rfl | rfl | rfl | rfl | rfl | rfl <;> simp [sizeofNamed, henum]

/-- `alignof_type` does not know `raw`, and an enum hides the builtin of its name. -/
theorem plain_of_matches (h : Matches D t) : Plain D t := by
  constructor
  · rintro rfl
    have hraised : Settles (fun fuel => alignofType D fuel (.named "raw"))
        (.error (.alignof (.named "raw"))) := by
      refine ⟨1, fun fuel hfuel => ?_⟩
      obtain ⟨fuel, rfl⟩ : ∃ n, fuel = n + 1 := ⟨fuel - 1, by omega⟩
      exact raw_alignof fuel
    cases (h _ raw_layout).2.1.unique hraised
  · intro name hname ht
    subst ht
    by_contra hnot
    have henum : D.enums name = true := by
      cases henum : D.enums name with
      | true => rfl
      | false => exact absurd henum hnot
    obtain ⟨row, hrow, rfl, hsize⟩ := shadowed_builtin name hname
    have hlayout : HasLayout D (.named row.1) row.2.2 :=
      ⟨row.2.1, 3, builtin_llvm row hrow, builtin_layout _ row hrow⟩
    have hfour : Settles (fun fuel => sizeofType D fuel (.named row.1)) (.ok 4) := by
      refine ⟨1, fun fuel hfuel => ?_⟩
      obtain ⟨fuel, rfl⟩ : ∃ n, fuel = n + 1 := ⟨fuel - 1, by omega⟩
      exact shadowed_sizeof hname henum fuel
    exact hsize (Except.ok.inj ((h _ hlayout).1.unique hfour))

/-- The computed layouts are those of LLVM if and only if no `raw`, and no builtin that an enum
hides, stands inside of the types. -/
theorem layouts_agree (D : TypeTables) (ts : List TypeRef) :
    Agrees D ts ↔ ∀ t ∈ ts, ∀ u, Inlined D t u → Plain D u := by
  constructor
  · exact fun h t ht u hu => plain_of_matches (h.types t ht u hu)
  · intro hplain
    refine ⟨fun t ht u hu => matches_of_plain fun v hv => hplain t ht v (hu.trans hv),
      fieldsMatch_of_plain hplain, fun key hkey value hvalue =>
        mapMatches_of_plain (hplain key hkey) (hplain value hvalue)⟩

/-- A program without declarations. -/
def noTables : TypeTables where
  enums := fun _ => false
  ifaces := fun _ => false
  structs := fun _ => none
  enum_once := fun _ h => absurd h Bool.false_ne_true
  iface_once := fun _ h => absurd h Bool.false_ne_true
  raw_enum := rfl
  raw_iface := rfl
  raw_struct := rfl

/-- `map[i32]raw`. -/
theorem layouts_raw : ¬ ∀ (D : TypeTables) (ts : List TypeRef), Agrees D ts := by
  intro h
  have hagrees := h noTables [.named "i32", .named "raw"]
  exact (plain_of_matches (hagrees.types (.named "raw") (by simp) _ (.self _))).1 rfl

end Agreement

end NewClLang.LayoutAgreement
