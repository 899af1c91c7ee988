import NewClLang.InterfaceSets
import NewClLang.StructRecursion

set_option autoImplicit false

/-!
# Calls through interfaces

The checker takes a pointer for an interface where every method of the interface is found for the
struct (`pointer_implements_iface` of `compiler/typecheck.py`). The code generator looks for the methods
once more, in its own way, when it makes the table of the pair (`compiler/llvm_iface.py`).
-/
namespace NewClLang.InterfaceDispatch
open AssociationLists EmbeddingConflicts ExceptOutcomes InterfaceSets MemoFolds StructEmbedding
  StructRecursion TypeRefs TypeSyntax

section Checker
variable (p : StructProgram) (inferred : String → String → Except StructEmbedding.Failure TypeRef)

/-- `resolve_method_call` -/
def resolveMethodCall (fuel : ℕ) (objType method : String) :
    Except StructEmbedding.Failure (Option (Match (String × Signature))) :=
  match (p.methodsOf objType).lookup method with
  | some sig => .ok (some ([], objType, sig))
  | none => promotedMethod p fuel objType method []

/-- The comparison of a method that has been found with one of an interface. `inferred` is
`resolve_method_return`, which is asked where the method is written without a type. -/
def sameSig (base method : String) (found : Signature) (sig : Sig) :
    Except StructEmbedding.Failure Bool := do
  let ret ← match found.1 with
    | some t => pure t
    | none => inferred base method
  .ok (typeKey ret = sig.2 ∧ found.2.map (fun q => typeKey q.2) = sig.1)

def implementsAll (fuel : ℕ) (typeName : String) : MethodSet → Except StructEmbedding.Failure Bool
  | [] => .ok true
  | (method, sig) :: rest => do
    match ← resolveMethodCall p fuel typeName method with
    | none => .ok false
    | some (_, base, found) =>
      if ← sameSig inferred base method found sig then implementsAll fuel typeName rest else .ok false

/-- `pointer_implements_iface`, for the method set of the interface. -/
def pointerImplementsIface (fuel : ℕ) (methods : MethodSet) :
    TypeRef → Except StructEmbedding.Failure Bool
  | .pointer inner false => implementsAll p inferred fuel (typeKey inner) methods
  | _ => .ok false

end Checker

section CodeGenerator
variable (p : StructProgram) (foreign : String → Bool)

/-- `safe_ident` -/
def safeIdent (name : String) : String :=
  let replaced := (((name.replace "*" "ptr_").replace "[]" "slice_").replace "." "_").replace "?"
    "nullable_"
  let bracketed := (((replaced.replace "[" "arr_").replace "]" "_").replace "(" "_").replace ")" "_"
  (bracketed.replace "," "_").replace "->" "_to_"

/-- `safe_user_ident` -/
def safeUserIdent (name : String) : String :=
  if (safeIdent name).startsWith "__nc_" then "nc_" ++ safeIdent name else safeIdent name

/-- `method_symbol(base, method) in module.globals`. Every method has been declared before, and what is
none has a symbol that a function from outside may have. -/
def hasSymbol (base method : String) : Bool :=
  ((p.methodsOf base).lookup method).isSome || foreign (safeUserIdent (base ++ "_" ++ method))

/-- The loop of `resolve_concrete_method`. -/
def firstEmbed (resolve : String → Except StructEmbedding.Failure (Option (Match String)))
    (method : String) :
    List (String × TypeRef) → Except StructEmbedding.Failure (Option (Match String))
  | [] => .ok none
  | (field, type) :: embeds =>
    if hasSymbol p foreign (pointerBaseName type) method then
      .ok (some ([field], pointerBaseName type))
    else do
      match ← resolve (pointerBaseName type) with
      | some (path, base) => .ok (some (field :: path, base))
      | none => firstEmbed resolve method embeds

/-- `resolve_concrete_method`. It raises a `KeyError` where it finds nothing. -/
def resolveConcreteMethod (fuel : ℕ) (concrete method : String) :
    Except StructEmbedding.Failure (Option (Match String)) :=
  if hasSymbol p foreign concrete method then .ok (some ([], concrete))
  else
    match fuel with
    | 0 => .error .outOfFuel
    | fuel + 1 =>
      firstEmbed p foreign (fun base => resolveConcreteMethod fuel base method) method
        (p.embeddedStructs concrete)

/-- `STRUCT_FIELD_INDEX` -/
def fieldIndex (name field : String) : Option ℕ :=
  (dict ((fieldsOf p name).zipIdx.map (fun f => (f.1.1, f.2)))).lookup field

/-- The loop of `get_iface_thunk` over a path: the indices that it goes by and the type that it comes
to. -/
def walkPath : String → List String → Option (List ℕ × String)
  | current, [] => some ([], current)
  | current, field :: path => do
    let index ← fieldIndex p current field
    let found ← (fieldsOf p current)[index]?
    let rest ← walkPath (typeKey found.2) path
    some (index :: rest.1, rest.2)

/-- What a thunk does with the data pointer: it goes to a field of a field and calls a method there. -/
structure Thunk where
  steps : List ℕ
  receiver : String
  method : String
  deriving DecidableEq

def keyError : StructEmbedding.Failure := .message "KeyError"

/-- `get_iface_thunk` -/
def getIfaceThunk (fuel : ℕ) (concrete method : String) :
    Except StructEmbedding.Failure Thunk := do
  match ← resolveConcreteMethod p foreign fuel concrete method with
  | none => .error keyError
  | some (path, base) =>
    match walkPath p concrete path with
    | none => .error keyError
    | some (steps, _) => .ok ⟨steps, base, method⟩

def thunks (fuel : ℕ) (concrete : String) : MethodSet → Except StructEmbedding.Failure (List Thunk)
  | [] => .ok []
  | (method, _) :: rest => do
    let thunk ← getIfaceThunk p foreign fuel concrete method
    let others ← thunks fuel concrete rest
    .ok (thunk :: others)

/-- `get_iface_vtable`, for the methods that `IFACE_METHODS` has. It looks at the first one for the name
of the table. -/
def getIfaceVtable (fuel : ℕ) (methods : MethodSet) (concrete : String) :
    Except StructEmbedding.Failure (List Thunk) := do
  let values ← thunks p foreign fuel concrete methods
  if methods = [] then .error (.message "IndexError: list index out of range") else .ok values

/-- The index that `emit_iface_method_call` loads from. -/
def methodIndex (methods : MethodSet) (method : String) : Option ℕ :=
  methods.findIdx? (fun e => e.1 = method)

end CodeGenerator

section Embeddings
variable {p : StructProgram} {name : String} {e : String × TypeRef}

theorem embedded_mem {decl : StructDecl} (hlookup : p.structs.lookup name = some decl)
    (h : e ∈ p.embeddedStructs name) : e ∈ decl.fields ∧ ∃ base, e.2 = .named base := by
  rw [StructProgram.embeddedStructs, hlookup] at h
  obtain ⟨hfield, hembedded⟩ := List.mem_filter.mp (mem_dict h)
  exact ⟨hfield, decl.named e hfield (of_decide_eq_true hembedded)⟩

theorem checkFields_nodup {stmt : String} {names seen : List String}
    (h : checkFields stmt names seen = .ok ()) : names.Nodup ∧ ∀ n ∈ names, n ∉ seen := by
  induction names generalizing seen with
  | nil => exact ⟨List.nodup_nil, by simp⟩
  | cons n names ih =>
    rw [checkFields] at h
    split at h
    · cases h
    · rename_i hseen
      obtain ⟨hnodup, hfresh⟩ := ih h
      refine ⟨List.nodup_cons.mpr ⟨fun hn => hfresh n hn List.mem_cons_self, hnodup⟩, ?_⟩
      refine List.forall_mem_cons.mpr ⟨hseen, fun m hm hmseen => ?_⟩
      exact hfresh m hm (List.mem_cons_of_mem n hmseen)

theorem validateEmbeds_declared {stmt : String} {fields : List String}
    {embeds : List (String × TypeRef)} {promotedFields promotedMethods : List (String × String)}
    (h : validateEmbeds p stmt fields embeds promotedFields promotedMethods = .ok ())
    (he : e ∈ embeds) : ∃ own, p.lookupStruct (embedBase e.2) = some own := by
  induction embeds generalizing promotedFields promotedMethods with
  | nil => cases he
  | cons first embeds ih =>
    obtain ⟨embed, type⟩ := first
    rw [validateEmbeds] at h
    split at h
    · cases h
    · rename_i own hown
      obtain ⟨_, -, h⟩ := bind_eq_ok.mp h
      obtain ⟨_, -, h⟩ := bind_eq_ok.mp h
      rcases List.mem_cons.mp he with rfl | hrest
      · exact ⟨own, hown⟩
      · exact ih h hrest

/-- A struct contains those that it embeds. -/
theorem contains_of_embedded (haccepted : Accepted p) (h : e ∈ p.embeddedStructs name) :
    Contains p name (pointerBaseName e.2) := by
  obtain ⟨decl, hlookup⟩ := lookup_of_embedded h
  obtain ⟨hfield, base, hbase⟩ := embedded_mem hlookup h
  obtain ⟨_, -, hembeds⟩ := bind_eq_ok.mp (haccepted name decl hlookup)
  obtain ⟨own, hown⟩ := validateEmbeds_declared hembeds h
  obtain ⟨decl', hdecl', -⟩ := Option.map_eq_some_iff.mp hown
  have hkey : typeKey (.named base) ∈ keys p.structs := by
    rw [hbase] at hdecl'
    exact lookup_isSome_iff.mp (hdecl' ▸ rfl)
  refine List.mem_flatMap.mpr ⟨e, ?_, ?_⟩
  · rw [fieldsOf, hlookup]
    exact hfield
  · have hdeps : inlineStructDeps p (.named base) = [typeKey (.named base)] := if_pos hkey
    rw [hbase, hdeps]
    exact List.mem_cons_self

/-- The index of an embedded field leads to it. -/
theorem fieldIndex_embedded (haccepted : Accepted p) (h : e ∈ p.embeddedStructs name) :
    ∃ index, fieldIndex p name e.1 = some index ∧ (fieldsOf p name)[index]? = some e := by
  obtain ⟨decl, hlookup⟩ := lookup_of_embedded h
  have hfields : fieldsOf p name = decl.fields := by
    rw [fieldsOf, hlookup]
    rfl
  have hfield : e ∈ fieldsOf p name := hfields ▸ (embedded_mem hlookup h).1
  obtain ⟨_, hchecked, -⟩ := bind_eq_ok.mp (haccepted name decl hlookup)
  have hnodup : ((fieldsOf p name).map Prod.fst).Nodup := hfields ▸ (checkFields_nodup hchecked).1
  obtain ⟨i, hi, hget⟩ := List.mem_iff_getElem.mp hfield
  have hmem : e.1 ∈ keys (dict ((fieldsOf p name).zipIdx.map (fun f => (f.1.1, f.2)))) := by
    refine mem_keys_dict.mpr (List.mem_map.mpr ⟨(e.1, i), ?_, rfl⟩)
    exact List.mem_map.mpr ⟨(e, i), List.mk_mem_zipIdx_iff_getElem?.mpr
      (List.getElem?_eq_some_iff.mpr ⟨hi, hget⟩), rfl⟩
  obtain ⟨index, hindex⟩ := Option.isSome_iff_exists.mp (lookup_isSome_iff.mpr hmem)
  refine ⟨index, hindex, ?_⟩
  obtain ⟨f, hf, heq⟩ := List.mem_map.mp (mem_dict (mem_of_lookup hindex))
  obtain ⟨hname, hf₂⟩ := Prod.mk.inj heq
  have hget' : (fieldsOf p name)[f.2]? = some f.1 := List.mem_zipIdx_iff_getElem?.mp hf
  have hsame := List.inj_on_of_nodup_map hnodup (List.mem_of_getElem? hget') hfield hname
  rw [← hf₂, hget', hsame]

end Embeddings

section Agreement
variable {p : StructProgram} {foreign : String → Bool} {method : String}

/-- The receiver of a method that has been found, and the way to it. -/
def place (found : Match (String × Signature)) : Match String := (found.1, found.2.1)

theorem lookup_received (base : String) (methods : List (String × Signature)) :
    (methods.map (fun m => (m.1, base, m.2))).lookup method =
      (methods.lookup method).map (fun sig => (base, sig)) := by
  induction methods with
  | nil => rfl
  | cons m methods ih =>
    rw [List.map_cons, List.lookup_cons, List.lookup_cons]
    cases method == m.1
    · exact ih
    · rfl

theorem hasSymbol_eq (hforeign : ∀ base, foreign (safeUserIdent (base ++ "_" ++ method)) = false)
    (base : String) :
    hasSymbol p foreign base method = ((p.methodsOf base).lookup method).isSome := by
  rw [hasSymbol, hforeign, Bool.or_false]

/-- The code generator takes the first of the methods that the checker collects. -/
theorem firstEmbed_agrees
    (hforeign : ∀ base, foreign (safeUserIdent (base ++ "_" ++ method)) = false)
    {nested : String → Except StructEmbedding.Failure (Option (Match (String × Signature)))}
    {resolve : String → Except StructEmbedding.Failure (Option (Match String))}
    {embeds : List (String × TypeRef)} {found : List (Match (String × Signature))}
    (hnested : ∀ e ∈ embeds, ∀ inner, nested (pointerBaseName e.2) = .ok inner →
      (p.methodsOf (pointerBaseName e.2)).lookup method = none →
        resolve (pointerBaseName e.2) = .ok (inner.map place))
    (h : collect (fun base => some ((p.methodsOf base).map (fun m => (m.1, base, m.2)))) nested
      method embeds = .ok found) :
    firstEmbed p foreign resolve method embeds = .ok (found.head?.map place) := by
  induction embeds generalizing found with
  | nil =>
    cases h
    rfl
  | cons e embeds ih =>
    obtain ⟨field, type⟩ := e
    obtain ⟨hfirst, hrest⟩ := List.forall_mem_cons.mp hnested
    rw [collect] at h
    obtain ⟨inner, hinner, h⟩ := bind_eq_ok.mp h
    obtain ⟨later, hlater, h⟩ := bind_eq_ok.mp h
    cases h
    rw [firstEmbed, hasSymbol_eq hforeign, lookup_received]
    cases hown : (p.methodsOf (pointerBaseName type)).lookup method with
    | some sig => rfl
    | none =>
      rw [hfirst inner hinner hown]
      cases inner with
      | some m => rfl
      | none => exact ih hrest hlater

/-- Where no struct is inside of itself, both searches end alike. -/
theorem concrete_agrees (haccepted : Accepted p) {rank : String → ℕ}
    (hrank : ∀ a b, Contains p a b → rank b < rank a)
    (hforeign : ∀ base, foreign (safeUserIdent (base ++ "_" ++ method)) = false) {fuel : ℕ}
    {typeName : String} {seen : List String} (hseen : ∀ s ∈ seen, rank typeName < rank s)
    {found : Option (Match (String × Signature))}
    (hown : (p.methodsOf typeName).lookup method = none)
    (h : promotedMethod p fuel typeName method seen = .ok found) :
    resolveConcreteMethod p foreign fuel typeName method = .ok (found.map place) := by
  induction fuel generalizing typeName seen found with
  | zero => cases h
  | succ fuel ih =>
    have hfresh : typeName ∉ seen := fun hmem => Nat.lt_irrefl _ (hseen typeName hmem)
    rw [promotedMethod, promoted, if_neg hfresh] at h
    obtain ⟨all, hall, h⟩ := bind_eq_ok.mp h
    split at h
    · cases h
    · cases h
      rw [resolveConcreteMethod, hasSymbol_eq hforeign, hown]
      refine firstEmbed_agrees hforeign (fun e he inner hinner hnone => ?_) hall
      have hless := hrank _ _ (contains_of_embedded haccepted he)
      refine ih (List.forall_mem_cons.mpr ⟨hless, fun s hs => ?_⟩) hnone hinner
      exact hless.trans (hseen s hs)

theorem method_agrees (haccepted : Accepted p) {rank : String → ℕ}
    (hrank : ∀ a b, Contains p a b → rank b < rank a)
    (hforeign : ∀ base, foreign (safeUserIdent (base ++ "_" ++ method)) = false) {fuel : ℕ}
    {concrete : String} {found : Option (Match (String × Signature))}
    (h : resolveMethodCall p fuel concrete method = .ok found) :
    resolveConcreteMethod p foreign fuel concrete method = .ok (found.map place) := by
  rw [resolveMethodCall] at h
  split at h
  · rename_i sig hown
    cases h
    rw [resolveConcreteMethod.eq_def, hasSymbol_eq hforeign, hown]
    rfl
  · rename_i hown
    exact concrete_agrees haccepted hrank hforeign (by simp) hown h

theorem firstEmbed_sound {resolve : String → Except StructEmbedding.Failure (Option (Match String))}
    {embeds : List (String × TypeRef)} {path : List String} {base : String}
    (h : firstEmbed p foreign resolve method embeds = .ok (some (path, base))) :
    ∃ e ∈ embeds, (path = [e.1] ∧ base = pointerBaseName e.2) ∨
      ∃ deeper, path = e.1 :: deeper ∧ resolve (pointerBaseName e.2) = .ok (some (deeper, base)) := by
  induction embeds with
  | nil => cases h
  | cons e embeds ih =>
    obtain ⟨field, type⟩ := e
    rw [firstEmbed] at h
    split at h
    · cases h
      exact ⟨_, List.mem_cons_self, .inl ⟨rfl, rfl⟩⟩
    · obtain ⟨inner, hinner, h⟩ := bind_eq_ok.mp h
      cases inner with
      | some m =>
        cases h
        exact ⟨_, List.mem_cons_self, .inr ⟨_, rfl, hinner⟩⟩
      | none =>
        obtain ⟨e', he', hfound⟩ := ih h
        exact ⟨e', List.mem_cons_of_mem _ he', hfound⟩

/-- The fields on the way to a method lead to its receiver. -/
theorem walkPath_total (haccepted : Accepted p) {fuel : ℕ} {concrete base : String}
    {path : List String}
    (h : resolveConcreteMethod p foreign fuel concrete method = .ok (some (path, base))) :
    ∃ steps, walkPath p concrete path = some (steps, base) := by
  induction fuel generalizing concrete path with
  | zero =>
    rw [resolveConcreteMethod] at h
    split at h
    · cases h
      exact ⟨[], rfl⟩
    · cases h
  | succ fuel ih =>
    rw [resolveConcreteMethod] at h
    split at h
    · cases h
      exact ⟨[], rfl⟩
    · obtain ⟨e, he, hfound⟩ := firstEmbed_sound h
      obtain ⟨index, hindex, hget⟩ := fieldIndex_embedded haccepted he
      have hkey : typeKey e.2 = pointerBaseName e.2 := by
        obtain ⟨decl, hlookup⟩ := lookup_of_embedded he
        obtain ⟨-, name, hname⟩ := embedded_mem hlookup he
        rw [hname]
        rfl
      have hstep : ∀ deeper, walkPath p concrete (e.1 :: deeper) =
          (walkPath p (pointerBaseName e.2) deeper).map (fun r => (index :: r.1, r.2)) := by
        intro deeper
        rw [walkPath, hindex, ← hkey]
        simp only [Option.bind_eq_bind, Option.bind_some, hget]
        cases walkPath p (typeKey e.2) deeper <;> rfl
      rcases hfound with ⟨rfl, rfl⟩ | ⟨deeper, rfl, hdeeper⟩
      · exact ⟨[index], hstep []⟩
      · obtain ⟨steps, hsteps⟩ := ih hdeeper
        refine ⟨index :: steps, ?_⟩
        rw [hstep, hsteps]
        rfl

end Agreement

section Dispatch
variable {p : StructProgram} {foreign : String → Bool} {fuel : ℕ} {concrete : String}
  {methods : MethodSet} {inferred : String → String → Except StructEmbedding.Failure TypeRef}

theorem implementsAll_each (h : implementsAll p inferred fuel concrete methods = .ok true) :
    ∀ e ∈ methods, ∃ path base found,
      resolveMethodCall p fuel concrete e.1 = .ok (some (path, base, found)) ∧
        sameSig inferred base e.1 found e.2 = .ok true := by
  induction methods with
  | nil => simp
  | cons e methods ih =>
    obtain ⟨method, sig⟩ := e
    rw [implementsAll] at h
    obtain ⟨resolved, hresolved, h⟩ := bind_eq_ok.mp h
    cases resolved with
    | none => cases h
    | some m =>
      obtain ⟨path, base, found⟩ := m
      obtain ⟨same, hsame, h⟩ := bind_eq_ok.mp h
      cases same with
      | false => cases h
      | true => exact List.forall_mem_cons.mpr ⟨⟨path, base, found, hresolved, hsame⟩, ih h⟩

theorem thunks_total
    (h : ∀ e ∈ methods, ∃ thunk, getIfaceThunk p foreign fuel concrete e.1 = .ok thunk) :
    ∃ values, thunks p foreign fuel concrete methods = .ok values ∧
      ∀ (i : ℕ) (e : String × Sig), methods[i]? = some e → ∃ thunk, values[i]? = some thunk ∧
        getIfaceThunk p foreign fuel concrete e.1 = .ok thunk := by
  induction methods with
  | nil => exact ⟨[], rfl, by simp⟩
  | cons first methods ih =>
    obtain ⟨⟨thunk, hthunk⟩, hrest⟩ := List.forall_mem_cons.mp h
    obtain ⟨values, hvalues, hget⟩ := ih hrest
    refine ⟨thunk :: values, ?_, fun i e hi => ?_⟩
    · rw [thunks]
      exact bind_eq_ok.mpr ⟨thunk, hthunk, bind_eq_ok.mpr ⟨values, hvalues, rfl⟩⟩
    · cases i with
      | zero =>
        cases hi
        exact ⟨thunk, rfl, hthunk⟩
      | succ i => exact hget i e hi

/-- Methods of a method set are found by their names. -/
theorem methodIndex_of_mem (hnodup : (keys methods).Nodup) {e : String × Sig} (h : e ∈ methods) :
    ∃ index, methodIndex methods e.1 = some index ∧ methods[index]? = some e := by
  cases hindex : methodIndex methods e.1 with
  | none =>
    have hother := List.findIdx?_eq_none_iff.mp hindex e h
    simp at hother
  | some index =>
    obtain ⟨hlt, hname, -⟩ := List.findIdx?_eq_some_iff_getElem.mp hindex
    have hget : methods[index]? = some methods[index] := List.getElem?_eq_getElem hlt
    have hsame := List.inj_on_of_nodup_map hnodup (List.getElem_mem hlt) h
      (of_decide_eq_true hname)
    exact ⟨index, rfl, hget.trans (congrArg some hsame)⟩

theorem getIfaceThunk_place (haccepted : Accepted p) {path : List String} {base method : String}
    (h : resolveConcreteMethod p foreign fuel concrete method = .ok (some (path, base))) :
    ∃ steps, getIfaceThunk p foreign fuel concrete method = .ok ⟨steps, base, method⟩ ∧
      walkPath p concrete path = some (steps, base) := by
  obtain ⟨steps, hsteps⟩ := walkPath_total haccepted h
  refine ⟨steps, bind_eq_ok.mpr ⟨_, h, ?_⟩, hsteps⟩
  dsimp only
  rw [hsteps]

/-- A log file is closed by the disk that is embedded in it. -/
def logFiles : StructProgram where
  structs :=
    [("LogFile", ⟨[("size", .named "i32"), ("Disk", .named "Disk")], ["Disk"], by
        intro f hf hembedded
        rcases List.mem_pair.mp hf with rfl | rfl
        · exact absurd hembedded (by decide)
        · exact ⟨"Disk", rfl⟩⟩),
      ("Disk", ⟨[("name", .named "str")], [], fun _ _ h => absurd h List.not_mem_nil⟩)]
  methods :=
    [("LogFile", [("read", some (.named "str"), [("count", .named "i32")])]),
      ("Disk", [("close", some (.named "void"), [])])]
  once := by decide

def written : String → String → Except StructEmbedding.Failure TypeRef := fun _ _ => .ok (.named "void")

end Dispatch

end NewClLang.InterfaceDispatch
