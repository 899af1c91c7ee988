import NewClLang.MapKeyFunctions
import NewClLang.MatchSelection
import NewClLang.TypePropertySearch

set_option autoImplicit false

/-!
# Laws of keys

The code that is emitted for the hash and for the equality of keys goes by the values of the
language that the keys stand for. Two keys are equal if their values are, wherever their bytes stand.
-/
namespace NewClLang.MapKeyCoherence
open ExceptOutcomes TypeRefs TypeSyntax TypeTexts TypeProperties TypePropertySearch MapKeyFunctions Comparisons
  ComparableValues OrderedComparisons
open AssociationLists (mem_of_lookup)
open MatchSelection (strEq_iff_eq)

section Strings
variable {m : Memory}

theorem length_bytesAt (ptr len : BitVec 64) : (bytesAt m ptr len).length = len.toNat := by
  rw [bytesAt, List.length_map, List.length_range]

/-- Only the bytes of a string matter, and none where its length is zero. -/
theorem strEqAt_iff {ptr len ptr' len' : BitVec 64} :
    strEqAt m ptr len ptr' len' ≠ 0 ↔ bytesAt m ptr len = bytesAt m ptr' len' := by
  rw [← strEq_iff_eq, strEqAt, strEq, length_bytesAt, length_bytesAt]
  by_cases hlen : len = len'
  · subst hlen
    have hzero : len = 0 ↔ len.toNat = 0 := by
      rw [← BitVec.toNat_inj]
      rfl
    simp only [ne_eq, not_true_eq_false, if_false, hzero]
  · have hnat : len.toNat ≠ len'.toNat := fun h => hlen (BitVec.eq_of_toNat_eq h)
    rw [if_pos hlen, if_pos hnat]

def mixByte (h : BitVec 64) (byte : UInt8) : BitVec 64 := emitMapHashMix h byte.toBitVec

theorem hashStr_step (ptr len idx h : BitVec 64) :
    hashStr m ptr len idx h =
      if idx < len then hashStr m ptr len (idx + 1) (mixByte h (m (ptr + idx))) else h := by
  rw [hashStr]
  rfl

/-- The loop goes through the bytes that are left. -/
theorem hashStr_from (ptr len : BitVec 64) (n i : ℕ) (hi : i + n = len.toNat) (h : BitVec 64) :
    hashStr m ptr len (BitVec.ofNat 64 i) h =
      ((List.range' i n).map (fun i => m (ptr + BitVec.ofNat 64 i))).foldl mixByte h := by
  have hbound := len.isLt
  induction n generalizing i h with
  | zero =>
    have hend : ¬ BitVec.ofNat 64 i < len := by
      rw [BitVec.lt_def, BitVec.toNat_ofNat]
      omega
    rw [hashStr_step, if_neg hend]
    rfl
  | succ n ih =>
    have hless : BitVec.ofNat 64 i < len := by
      rw [BitVec.lt_def, BitVec.toNat_ofNat]
      omega
    have hnext : BitVec.ofNat 64 i + 1 = BitVec.ofNat 64 (i + 1) := (BitVec.ofNat_add ..).symm
    rw [hashStr_step, if_pos hless, hnext, ih (i + 1) (by omega), List.range'_succ, List.map_cons,
      List.foldl_cons]

theorem hashStr_eq (ptr len h : BitVec 64) :
    hashStr m ptr len 0 h = (bytesAt m ptr len).foldl mixByte h := by
  have hall := hashStr_from (m := m) ptr len len.toNat 0 (Nat.zero_add _) h
  rw [← List.range_eq_range'] at hall
  exact hall

end Strings

section Values
variable {c : Declarations} {r : TypeRef} {hash : HashCode} {eq : EqCode} {layout : KeyLayout}

/-- An answer that tells whether something holds. -/
def Decides (answer : Option Bool) (p : Prop) : Prop := ∃ e, answer = some e ∧ (e = true ↔ p)

theorem decides_some {p : Prop} {e : Bool} (h : e = true ↔ p) : Decides (some e) p := ⟨e, rfl, h⟩

/-- The code that is emitted for a type goes by the values that keys stand for. -/
structure ByValue (c : Declarations) (r : TypeRef) (hash : HashCode) (eq : EqCode)
    (layout : KeyLayout) : Prop where
  hashed : ∀ offsets m a h, ∃ h', runHash m hash (load offsets m layout a) h = some h'
  hash_eq : ∀ offsets m m' a b h, keyAt m offsets layout a = keyAt m' offsets layout b →
    runHash m hash (load offsets m layout a) h = runHash m' hash (load offsets m' layout b) h
  eq : ∀ offsets m a b, Decides (mapEqFn m offsets eq layout a b)
    (keyAt m offsets layout a = keyAt m offsets layout b)
  language : ∀ offsets m a b,
    Decides (emitEqValues c r (keyAt m offsets layout a) (keyAt m offsets layout b))
      (keyAt m offsets layout a = keyAt m offsets layout b)

theorem str_byValue : ByValue c str .str .str .str where
  hashed offsets m a h := ⟨_, rfl⟩
  hash_eq offsets m m' a b h hsame := by
    simp only [keyAt, load, meaning, Value.str.injEq] at hsame
    simp only [load, runHash, hashStr_eq, hsame]
  eq offsets m a b := by
    simp only [mapEqFn, keyAt, load, runEq, meaning]
    refine decides_some ?_
    rw [decide_eq_true_iff, strEqAt_iff, Value.str.injEq]
  language offsets m a b := by
    simp only [keyAt, load, meaning]
    rw [emitEqValues_str]
    refine decides_some ?_
    rw [decide_eq_true_iff, strEq_iff_eq, Value.str.injEq]

theorem int_byValue {width : ℕ} (ht : llvmType c r = .int width) :
    ByValue c r .mix .icmp (.int width) where
  hashed offsets m a h := ⟨_, rfl⟩
  hash_eq offsets m m' a b h hsame := by
    simp only [keyAt, load, meaning, Value.int.injEq, heq_eq_eq, true_and] at hsame
    simp only [load, runHash, hsame]
  eq offsets m a b := by
    simp only [mapEqFn, load, runEq, dif_pos]
    refine decides_some ?_
    simp [keyAt, load, meaning]
  language offsets m a b := by
    rw [emitEqValues_layout (by simp [ht]) (by simp [ht])]
    simp only [keyAt, load, meaning]
    rw [emitBinaryValues_int ht]
    refine decides_some ?_
    split_ifs <;> simp [Predicate.holds, BitVec.toNat_inj, BitVec.toInt_inj]

theorem pointer_byValue (ht : llvmType c r = .pointer) : ByValue c r .mix .icmp .pointer where
  hashed offsets m a h := ⟨_, rfl⟩
  hash_eq offsets m m' a b h hsame := by
    simp only [keyAt, load, meaning, Value.pointer.injEq, BitVec.toNat_inj] at hsame
    simp only [load, runHash, hsame]
  eq offsets m a b := by
    simp only [mapEqFn, load, runEq]
    refine decides_some ?_
    simp [keyAt, load, meaning, BitVec.toNat_inj]
  language offsets m a b := by
    rw [emitEqValues_layout (by simp [ht]) (by simp [ht])]
    simp only [keyAt, load, meaning]
    rw [emitBinaryValues_pointer ht]
    refine decides_some ?_
    simp [Predicate.holds]

end Values

section Structs
variable {c : Declarations} {field : String × TypeRef} {fields : List (String × TypeRef)}
  {hash : HashCode} {eq : EqCode} {layout : KeyLayout} {hashes : List HashCode} {eqs : List EqCode}
  {layouts : List KeyLayout}

/-- A loop whose result is a conjunction. -/
def Accumulates (run : Bool → Option Bool) (p : Prop) : Prop :=
  ∃ e, (∀ result, run result = some (result && e)) ∧ (e = true ↔ p)

/-- The code for the fields of a struct goes by their values. -/
structure FieldsByValue (c : Declarations) (fields : List (String × TypeRef))
    (hashes : List HashCode) (eqs : List EqCode) (layouts : List KeyLayout) : Prop where
  hashed : ∀ offsets m offset i a h,
    ∃ h', runHashFields m hashes (loadFields offsets m offset layouts i a) h = some h'
  hash_eq : ∀ offsets m m' offset i a b h,
    meanings m (loadFields offsets m offset layouts i a) =
        meanings m' (loadFields offsets m' offset layouts i b) →
      runHashFields m hashes (loadFields offsets m offset layouts i a) h =
        runHashFields m' hashes (loadFields offsets m' offset layouts i b) h
  eq : ∀ offsets m offset i a b,
    Accumulates (runEqFields m eqs (loadFields offsets m offset layouts i a)
        (loadFields offsets m offset layouts i b))
      (meanings m (loadFields offsets m offset layouts i a) =
        meanings m (loadFields offsets m offset layouts i b))
  language : ∀ offsets m offset i a b,
    Accumulates (emitStructEq c fields (meanings m (loadFields offsets m offset layouts i a))
        (meanings m (loadFields offsets m offset layouts i b)))
      (meanings m (loadFields offsets m offset layouts i a) =
        meanings m (loadFields offsets m offset layouts i b))

theorem fieldsByValue_nil : FieldsByValue c [] [] [] [] where
  hashed _ _ _ _ _ h := ⟨h, rfl⟩
  hash_eq _ _ _ _ _ _ _ _ _ := rfl
  eq _ _ _ _ _ _ := ⟨true, fun result => by rw [Bool.and_true]; rfl, by simp [loadFields]⟩
  language _ _ _ _ _ _ := ⟨true, fun result => by rw [Bool.and_true]; rfl, by simp [loadFields]⟩

/-- One more conjunct. -/
theorem Accumulates.cons {answer : Option Bool} {run loop : Bool → Option Bool} {p q : Prop}
    (hanswer : Decides answer p) (hloop : Accumulates loop q)
    (hrun : ∀ e, answer = some e → ∀ result, run result = loop (result && e)) :
    Accumulates run (p ∧ q) := by
  obtain ⟨e, he, hep⟩ := hanswer
  obtain ⟨e', he', heq⟩ := hloop
  refine ⟨e && e', ?_, ?_⟩
  · intro result
    rw [hrun e he, he', Bool.and_assoc]
  · rw [Bool.and_eq_true, hep, heq]

theorem fieldsByValue_cons (hfield : ByValue c field.2 hash eq layout)
    (hfields : FieldsByValue c fields hashes eqs layouts) :
    FieldsByValue c (field :: fields) (hash :: hashes) (eq :: eqs) (layout :: layouts) where
  hashed offsets m offset i a h := by
    obtain ⟨h₁, hone⟩ := hfield.hashed offsets m (a + offset i) h
    rw [loadFields, runHashFields, hone]
    exact hfields.hashed offsets m offset (i + 1) a h₁
  hash_eq offsets m m' offset i a b h hsame := by
    simp only [loadFields, meanings, List.cons.injEq] at hsame
    rw [loadFields, loadFields, runHashFields, runHashFields,
      hfield.hash_eq offsets m m' (a + offset i) (b + offset i) h hsame.1]
    obtain ⟨h₁, hone⟩ := hfield.hashed offsets m' (b + offset i) h
    rw [hone]
    exact hfields.hash_eq offsets m m' offset (i + 1) a b h₁ hsame.2
  eq offsets m offset i a b := by
    simp only [loadFields, meanings, List.cons.injEq]
    refine .cons (hfield.eq offsets m (a + offset i) (b + offset i))
      (hfields.eq offsets m offset (i + 1) a b) ?_
    intro e he result
    rw [mapEqFn] at he
    rw [runEqFields, he]
  language offsets m offset i a b := by
    simp only [loadFields, meanings, List.cons.injEq]
    refine .cons (hfield.language offsets m (a + offset i) (b + offset i))
      (hfields.language offsets m offset (i + 1) a b) ?_
    intro e he result
    rw [keyAt, keyAt] at he
    rw [emitStructEq, he]

theorem Accumulates.start {run : Bool → Option Bool} {p : Prop} (h : Accumulates run p) :
    Decides (run true) p := by
  obtain ⟨e, he, hp⟩ := h
  exact ⟨e, by rw [he, Bool.true_and], hp⟩

theorem struct_byValue {r : TypeRef} (hr : structFields c r = some fields)
    (h : FieldsByValue c fields hashes eqs layouts) :
    ByValue c r (.struct hashes) (.struct eqs) (.struct layouts) where
  hashed offsets m a h' := h.hashed offsets m (offsets layouts) 0 a h'
  hash_eq offsets m m' a b h' hsame := by
    simp only [keyAt, load, meaning, Value.struct.injEq] at hsame
    exact h.hash_eq offsets m m' (offsets layouts) 0 a b h' hsame
  eq offsets m a b := by
    simp only [mapEqFn, keyAt, load, runEq, meaning, Value.struct.injEq]
    exact (h.eq offsets m (offsets layouts) 0 a b).start
  language offsets m a b := by
    simp only [keyAt, load, meaning, Value.struct.injEq, emitEqValues, hr]
    exact (h.language offsets m (offsets layouts) 0 a b).start

end Structs

section Emitted
variable {c : Declarations}

/-- The names of the declared types are identifiers. -/
def Identifiers (c : Declarations) : Prop := ∀ name, c.declared name ≠ none → IsTypeName name

theorem named_of_key {r : TypeRef} (h : IsTypeName (typeKey r)) : r = .named (typeKey r) := by
  by_contra hne
  have hcompound : ∀ name, r ≠ .named name := by
    rintro name rfl
    exact hne rfl
  exact typeKey_ne_name hcompound h rfl

theorem named_of_declared (hnames : Identifiers c) {r : TypeRef} {decl : Declaration}
    (h : c.declared (typeKey r) = some decl) :
    ∃ name, r = .named name ∧ c.declared name = some decl := by
  have hname : IsTypeName (typeKey r) := by
    refine hnames _ ?_
    rw [h]
    exact fun h => nomatch h
  exact ⟨typeKey r, named_of_key hname, h⟩

theorem comparedTypes_fields {key : String} {fields : List (String × TypeRef)}
    (h : (comparedTypes c).structFields key = some fields) :
    c.declared key = some (.struct fields) := by
  simp only [comparedTypes] at h
  split at h
  · next hdeclared =>
    cases h
    exact hdeclared
  · cases h

theorem comparedTypes_enum {key : String} (h : (comparedTypes c).enumVariants key = true) :
    ∃ variants, c.declared key = some (.enum variants) := by
  simp only [comparedTypes] at h
  split at h
  · next variants hdeclared => exact ⟨variants, hdeclared⟩
  · cases h

theorem head_of_pointerText {key : String} (h : isPointerText (.text key) = true) :
    ∃ ch ∈ ['*', '?'], ∃ rest, key.toList = ch :: rest := by
  rw [isPointerText, Bool.or_eq_true, List.isPrefixOf_iff_prefix, List.isPrefixOf_iff_prefix] at h
  rcases h with ⟨rest, h⟩ | ⟨rest, h⟩
  · exact ⟨'*', by decide, rest, h.symm⟩
  · exact ⟨'?', by decide, '*' :: rest, h.symm⟩

/-- No name begins with the mark of a pointer. -/
theorem head_of_name {name : String} (hname : IsTypeName name) {ch : Char} (hch : ch ∈ ['*', '?'])
    {t rest : List Char} : name.toList ++ t ≠ ch :: rest := by
  obtain ⟨first, tail, heq⟩ := List.exists_cons_of_ne_nil hname.1
  have hmem : first ∈ name.toList := heq ▸ List.mem_cons_self
  have hplain := (wordChar_ne (hname.2 first hmem)).2
  intro h
  rw [heq, List.cons_append] at h
  obtain ⟨rfl, _⟩ := List.cons.inj h
  refine hplain ?_
  simp only [List.mem_cons, List.not_mem_nil, or_false] at hch ⊢
  tauto

theorem pointer_of_text {r : TypeRef} (hr : WellNamed r)
    (h : isPointerText (.text (typeKey r)) = true) :
    ∃ inner nullable, r = .pointer inner nullable := by
  obtain ⟨ch, hch, rest, hkey⟩ := head_of_pointerText h
  have htext : (typeKey r).toList = text r := rfl
  rw [htext, text_eq] at hkey
  have hmark : ch = '*' ∨ ch = '?' := by simpa using hch
  cases hr with
  | @pointer inner nullable _ => exact ⟨inner, nullable, rfl⟩
  | @named name hname => exact absurd hkey (head_of_name hname hch)
  | @generic name args hname _ =>
    have hbody : body (.generic (.named name) args) =
        name.toList ++ '[' :: (commas (args.map text) ++ [']']) := rfl
    rw [hbody, List.append_assoc] at hkey
    exact absurd hkey (head_of_name hname hch)
  | slice _ | array _ | function _ _ =>
    obtain ⟨heq, _⟩ := List.cons.inj hkey
    subst heq
    exact absurd hmark (by decide)

/-- The code for a type for which a hash is emitted goes by the values of keys. -/
theorem byValue_of_hash (hnames : Identifiers c) {fuel : ℕ} {t : TypeForm} {r : TypeRef}
    {hash : HashCode} (ht : IsForm r t) (hr : ∀ s, t = .text s → WellNamed r)
    (h : emitMapHashValue (comparedTypes c) fuel t = .ok hash) :
    ∃ eq layout, emitMapEqValue (comparedTypes c) fuel t = .ok eq ∧
      keyLayout c fuel r = .ok layout ∧ ByValue c r hash eq layout := by
  induction fuel generalizing t r hash with
  | zero => cases h
  | succ fuel ih =>
    have hkey := ht.spelled
    rw [emitMapHashValue] at h
    by_cases hstr : t.spelled = "str"
    · rw [if_pos hstr] at h
      cases h
      rw [hkey] at hstr
      have hstrName : ∀ name ∈ ["str"], IsTypeName name := typeNames_of_test (by decide)
      have hname : IsTypeName (typeKey r) := by
        rw [hstr]
        exact hstrName _ List.mem_cons_self
      have hr' := named_of_key hname
      rw [hstr] at hr'
      subst hr'
      exact ⟨.str, .str, by rw [emitMapEqValue, if_pos (hkey.trans hstr)], rfl, str_byValue⟩
    rw [if_neg hstr] at h
    cases hfields : (comparedTypes c).structFields t.spelled with
    | some fields =>
      rw [hfields] at h
      obtain ⟨hashes, hhashes, rfl⟩ := map_eq_ok.mp h
      obtain ⟨name, rfl, hdeclared⟩ :=
        named_of_declared hnames (hkey ▸ comparedTypes_fields hfields)
      have hstruct : structFields c (.named name) = some fields := by
        rw [structFields, hdeclared]
      have hparts : ∃ eqs layouts,
          emitFields (fun t => emitMapEqValue (comparedTypes c) fuel (.object t)) fields = .ok eqs ∧
          emitFields (keyLayout c fuel) fields = .ok layouts ∧
          FieldsByValue c fields hashes eqs layouts := by
        have hall := emitFields_ok.mp hhashes
        clear hhashes h hfields hdeclared hstruct
        induction hall with
        | nil => exact ⟨[], [], rfl, rfl, fieldsByValue_nil⟩
        | cons hfield _ ihfields =>
          obtain ⟨eqs, layouts, heqs, hlayouts, hrest⟩ := ihfields
          obtain ⟨eq, layout, heq, hlayout, hone⟩ :=
            ih (Or.inl rfl) (fun _ hs => by cases hs) hfield
          exact ⟨eq :: eqs, layout :: layouts,
            emitFields_ok.mpr (.cons heq (emitFields_ok.mp heqs)),
            emitFields_ok.mpr (.cons hlayout (emitFields_ok.mp hlayouts)),
            fieldsByValue_cons hone hrest⟩
      obtain ⟨eqs, layouts, heqs, hlayouts, hvalues⟩ := hparts
      refine ⟨.struct eqs, .struct layouts, ?_, ?_, struct_byValue hstruct hvalues⟩
      · rw [emitMapEqValue, if_neg hstr, hfields]
        exact map_eq_ok.mpr ⟨eqs, heqs, rfl⟩
      · rw [keyLayout, llvmType_struct hstruct]
        exact map_eq_ok.mpr ⟨layouts, hlayouts, rfl⟩
    | none =>
      rw [hfields] at h
      dsimp only at h
      have heq : emitMapEqValue (comparedTypes c) (fuel + 1) t = .ok .icmp := by
        rw [emitMapEqValue, if_neg hstr, hfields]
      by_cases hpointer : isPointerText t = true
      · rw [if_pos hpointer] at h
        cases h
        rcases ht with rfl | rfl
        · cases hpointer
        · obtain ⟨inner, nullable, rfl⟩ := pointer_of_text (hr _ rfl) hpointer
          exact ⟨.icmp, .pointer, heq, rfl, pointer_byValue rfl⟩
      rw [if_neg hpointer] at h
      by_cases hnumber : ((comparedTypes c).enumVariants t.spelled ||
          (intWidth t.spelled).isSome) = true
      · rw [if_pos hnumber] at h
        cases h
        have hint : ∃ width, llvmType c r = .int width := by
          rw [hkey, Bool.or_eq_true] at hnumber
          rcases hnumber with henum | hwidth
          · obtain ⟨variants, hdeclared⟩ := comparedTypes_enum henum
            obtain ⟨name, rfl, hdeclared⟩ := named_of_declared hnames hdeclared
            exact ⟨32, (llvmType_declared hdeclared).2⟩
          · obtain ⟨width, hwidth⟩ := Option.isSome_iff_exists.mp hwidth
            have hname : IsTypeName (typeKey r) := by
              have hmem := List.mem_map_of_mem (f := Prod.fst) (mem_of_lookup hwidth)
              revert hmem
              generalize typeKey r = key
              intro hmem
              have hall : ∀ name ∈ [("i8", 8), ("i16", 16), ("i32", 32), ("i64", 64), ("u8", 8),
                  ("u16", 16), ("u32", 32), ("u64", 64), ("bool", 1), ("rune", 32)].map Prod.fst,
                  IsTypeName name := typeNames_of_test (by decide)
              exact hall key hmem
            have hr' := named_of_key hname
            refine ⟨width, ?_⟩
            rw [hr', llvmType, hwidth]
        obtain ⟨width, hint⟩ := hint
        refine ⟨.icmp, .int width, heq, ?_, int_byValue hint⟩
        rw [keyLayout, hint]
      · rw [if_neg hnumber] at h
        cases h

end Emitted

section Laws
variable {c : Declarations}

/-- What a map needs of the functions for its keys, wherever these stand in memory. -/
structure KeyLaws (c : Declarations) (r : TypeRef) (hash : HashCode) (eq : EqCode)
    (layout : KeyLayout) (offsets : Offsets) (m : Memory) : Prop where
  reflexive : ∀ a, mapEqFn m offsets eq layout a a = some true
  symmetric : ∀ a b, mapEqFn m offsets eq layout a b = mapEqFn m offsets eq layout b a
  transitive : ∀ a b b', mapEqFn m offsets eq layout a b = some true →
    mapEqFn m offsets eq layout b b' = some true → mapEqFn m offsets eq layout a b' = some true
  /-- The operator `==` gives the same answer. -/
  language : ∀ a b, ∃ e, mapEqFn m offsets eq layout a b = some e ∧
    emitPlain c .eq r r (keyAt m offsets layout a) (keyAt m offsets layout b) = some e
  hashed : ∀ a b, mapEqFn m offsets eq layout a b = some true →
    ∃ h, mapHashFn m offsets hash layout a = some h ∧ mapHashFn m offsets hash layout b = some h
  /-- Nor does it matter what else is in memory. -/
  elsewhere : ∀ m' a b, keyAt m offsets layout a = keyAt m' offsets layout b →
    mapHashFn m offsets hash layout a = mapHashFn m' offsets hash layout b

theorem Decides.eq_some_true {answer : Option Bool} {p : Prop} (h : Decides answer p) :
    answer = some true ↔ p := by
  obtain ⟨e, rfl, he⟩ := h
  rw [Option.some.injEq]
  exact he

theorem Decides.congr {answer answer' : Option Bool} {p q : Prop} (h : Decides answer p)
    (h' : Decides answer' q) (hpq : p ↔ q) : ∃ e, answer = some e ∧ answer' = some e := by
  obtain ⟨e, rfl, he⟩ := h
  obtain ⟨e', rfl, he'⟩ := h'
  exact ⟨e, rfl, congrArg some (Bool.eq_iff_iff.mpr (he'.trans (hpq.symm.trans he.symm)))⟩

theorem ByValue.laws {r : TypeRef} {hash : HashCode} {eq : EqCode} {layout : KeyLayout}
    (h : ByValue c r hash eq layout) (hnil : r ≠ nil) (offsets : Offsets) (m : Memory) :
    KeyLaws c r hash eq layout offsets m where
  reflexive a := (h.eq offsets m a a).eq_some_true.mpr rfl
  symmetric a b := by
    obtain ⟨e, hab, hba⟩ := (h.eq offsets m a b).congr (h.eq offsets m b a) eq_comm
    rw [hab, hba]
  transitive a b b' hab hbb' := by
    rw [(h.eq offsets m _ _).eq_some_true] at hab hbb' ⊢
    exact hab.trans hbb'
  language a b := by
    rw [emitPlain_eq hnil hnil]
    exact (h.eq offsets m a b).congr (h.language offsets m a b) Iff.rfl
  hashed a b hab := by
    have hsame := (h.eq offsets m a b).eq_some_true.mp hab
    obtain ⟨value, hvalue⟩ := h.hashed offsets m b 14695981039346656037
    exact ⟨value, (h.hash_eq offsets m m a b _ hsame).trans hvalue, hvalue⟩
  elsewhere m' a b hsame := h.hash_eq offsets m m' a b _ hsame

/-- For each type for which a hash is emitted the hash and the equality obey the laws. -/
theorem keys_coherent (hnames : Identifiers c) {r : TypeRef} (hr : WellNamed r) {fuel : ℕ}
    {hash : HashCode}
    (hhash : emitMapHashValue (comparedTypes c) fuel (.text (typeKey r)) = .ok hash) :
    ∃ eq layout, emitMapEqValue (comparedTypes c) fuel (.text (typeKey r)) = .ok eq ∧
      keyLayout c fuel r = .ok layout ∧ ∀ offsets m, KeyLaws c r hash eq layout offsets m := by
  obtain ⟨eq, layout, heq, hlayout, hvalue⟩ :=
    byValue_of_hash hnames (Or.inr rfl) (fun _ _ => hr) hhash
  have hnil : r ≠ nil := by
    rintro rfl
    cases fuel with
    | zero => cases hhash
    | succ n =>
      have hnone : c.declared "__nil" = none := c.apart "__nil" (by decide)
      have hkey : typeKey nil = "__nil" := rfl
      simp [emitMapHashValue, TypeForm.spelled, hkey, comparedTypes, hnone, isPointerText, intWidth]
        at hhash
  exact ⟨eq, layout, heq, hlayout, fun offsets m => hvalue.laws hnil offsets m⟩

/-- A struct with a number and a string, and a struct around it. -/
def placeProgram : Declarations where
  declared name :=
    if name = "Point" then some (.struct [("x", .named "i32"), ("name", .named "str")])
    else if name = "Place" then some (.struct [("open", .named "bool"), ("at", .named "Point")])
    else none
  implements _ _ := false
  orderMethod _ := none
  apart := by decide

theorem keys_coherent_place :
    ∃ eq layout, emitMapEqValue (comparedTypes placeProgram) 3 (.text (typeKey (.named "Place"))) =
        .ok eq ∧
      keyLayout placeProgram 3 (.named "Place") = .ok layout ∧
      ∀ offsets m, KeyLaws placeProgram (.named "Place") (.struct [.mix, .struct [.mix, .str]]) eq
        layout offsets m := by
  have hname : ∀ name ∈ ["Point", "Place"], IsTypeName name := typeNames_of_test (by decide)
  have hnames : Identifiers placeProgram := by
    intro name hdeclared
    refine hname name ?_
    by_contra hnot
    simp only [List.mem_cons, List.not_mem_nil, or_false, not_or] at hnot
    refine hdeclared ?_
    simp only [placeProgram, if_neg hnot.1, if_neg hnot.2]
  exact keys_coherent hnames (.named (hname "Place" (by decide))) rfl

end Laws

end NewClLang.MapKeyCoherence
