import NewClLang.RoseTrees
import NewClLang.TypeRefs

set_option autoImplicit false

/-!
# Syntax trees of modules

The nodes of `compiler/ast.py` as the passes over whole modules see them: a class with its own
attributes, and the nodes that its `__dict__` leads to, in order. A `Param` belongs to the attributes
of its function, and its default value, where it has one, to the children, which end with the body.
-/
namespace NewClLang.ModuleSyntax
open RoseTrees TypeRefs

structure Param where
  name : String
  type : Option TypeRef
  hasDefault : Bool

/-- A type parameter with what `type_param_constraints` says of it, `any` where it says nothing. -/
structure TypeParam where
  name : String
  constraint : String

structure FunctionHead where
  name : String
  receiverName : Option String
  receiverType : Option TypeRef
  typeParams : List TypeParam
  params : List Param
  returnType : Option TypeRef

structure StructHead where
  name : String
  typeParams : List TypeParam
  fields : List (String × TypeRef)

structure Method where
  name : String
  params : List (String × TypeRef)
  returnType : Option TypeRef
  fallible : Bool

/-- A class of nodes and its attributes. A name that is looked up is a string, and may be the string
    form of a type application where the parser or `monomorphize` makes it one. The body of a `defer`
    is the block that is walked in the scope around it. -/
inductive Kind where
  | functionDeclaration (head : FunctionHead)
  | functionExpr (params : List Param) (returnType : Option TypeRef)
  | structDecl (head : StructHead)
  | ifaceDecl (name : String) (methods : List Method) (embeds : List TypeRef)
  | enumDecl (name : String) (variants : List String)
  | externBlock
  | importDecl (moduleName : String)
  | variableDeclaration (name : String) (annotated : Option TypeRef)
  | forIn (index : String) (value : Option String)
  | tryStatement (success error : Option String)
  | block (ownScope : Bool)
  | identifier (name : String)
  | functionCall (name : TypeRef) (typeArgs : List TypeRef)
  | genericFunctionValue (name : String) (typeArgs : List TypeRef)
  | indexAccess (typeArgsCandidate : Option (List TypeRef))
  | sizeOfType (typeName : TypeRef)
  | structLiteral (name : TypeRef) (fields : List String)
  | mapLiteral (mapType : Option TypeRef)
  | arrayLiteral (length : ℕ) (elemType : TypeRef)
  | sliceLiteral (elemType : Option TypeRef)
  | enumRef (enumName variant : String)
  | errorHandler (errorName : String)
  | errorMatch (errorName : String)
  | ret
  | expressionStatement
  | ifExpr
  | binaryOp (op : String)
  | other (className : String)

abbrev Node := RoseTree Kind

section Types

mutual

/-- The names in a type, from left to right. -/
def names : TypeRef → List String
  | .named name => [name]
  | .pointer inner _ => names inner
  | .slice elem => names elem
  | .array _ elem => names elem
  | .function params ret _ => namesAll params ++ names ret
  | .generic base args => names base ++ namesAll args

def namesAll : List TypeRef → List String
  | [] => []
  | t :: ts => names t ++ namesAll ts

end

mutual

/-- `format_type_ref`. -/
def formatTypeRef : TypeRef → String
  | .named name => name
  | .pointer inner nullable => (if nullable then "?*" else "*") ++ formatTypeRef inner
  | .slice elem => "[]" ++ formatTypeRef elem
  | .array length elem => "[" ++ toString length ++ "]" ++ formatTypeRef elem
  | .function params ret fallible =>
    "fn(" ++ ",".intercalate (formatTypeRefs params) ++ ")->" ++ formatTypeRef ret ++
      if fallible then " err" else ""
  | .generic base args =>
    formatTypeRef base ++ "[" ++ ",".intercalate (formatTypeRefs args) ++ "]"

def formatTypeRefs : List TypeRef → List String
  | [] => []
  | t :: ts => formatTypeRef t :: formatTypeRefs ts

end

mutual

/-- `format_type_ref_user`. -/
def formatTypeRefUser : TypeRef → String
  | .named name => name
  | .pointer inner nullable => (if nullable then "?*" else "*") ++ formatTypeRefUser inner
  | .slice elem => "[]" ++ formatTypeRefUser elem
  | .array length elem => "[" ++ toString length ++ "]" ++ formatTypeRefUser elem
  | .function params ret fallible =>
    "fun(" ++ ", ".intercalate (formatTypeRefsUser params) ++ ") " ++ formatTypeRefUser ret ++
      if fallible then " err" else ""
  | .generic base args =>
    formatTypeRefUser base ++ "[" ++ ",".intercalate (formatTypeRefsUser args) ++ "]"

def formatTypeRefsUser : List TypeRef → List String
  | [] => []
  | t :: ts => formatTypeRefUser t :: formatTypeRefsUser ts

end

theorem namesAll_eq (ts : List TypeRef) : namesAll ts = ts.flatMap names := by
  induction ts with
  | nil => rfl
  | cons t ts ih => rw [namesAll, ih, List.flatMap_cons]

theorem rewriteAll_eq (fn : String → TypeRef) (ts : List TypeRef) :
    TypeRef.rewriteAll fn ts = ts.map (TypeRef.rewrite fn) := by
  induction ts with
  | nil => rfl
  | cons t ts ih => rw [TypeRef.rewriteAll, ih, List.map_cons]

mutual

/-- What stands in the place of a name contributes its own names. -/
theorem names_bind (g : String → TypeRef) :
    ∀ t : TypeRef, names (t.rewrite g) = (names t).flatMap (fun n => names (g n))
  | .named name => (List.flatMap_singleton (fun n => names (g n)) name).symm
  | .pointer inner _ => names_bind g inner
  | .slice elem => names_bind g elem
  | .array _ elem => names_bind g elem
  | .function params ret _ => by
    rw [TypeRef.rewrite, names, names, namesAll_bind g params, names_bind g ret,
      List.flatMap_append]
  | .generic base args => by
    rw [TypeRef.rewrite, names, names, names_bind g base, namesAll_bind g args,
      List.flatMap_append]

theorem namesAll_bind (g : String → TypeRef) :
    ∀ ts : List TypeRef,
      namesAll (TypeRef.rewriteAll g ts) = (namesAll ts).flatMap (fun n => names (g n))
  | [] => rfl
  | t :: ts => by
    rw [TypeRef.rewriteAll, namesAll, namesAll, names_bind g t, namesAll_bind g ts,
      List.flatMap_append]

end

theorem names_rewrite (f : String → String) (t : TypeRef) :
    names (t.rewrite (fun name => .named (f name))) = (names t).map f :=
  (names_bind _ t).trans (List.flatMap_pure_eq_map f _)

mutual

/-- Only what a type mentions matters for its rewriting. -/
theorem rewrite_congr {g g' : String → TypeRef} :
    ∀ t : TypeRef, (∀ n ∈ names t, g n = g' n) → t.rewrite g = t.rewrite g'
  | .named name, h => h name List.mem_cons_self
  | .pointer inner _, h => by rw [TypeRef.rewrite, TypeRef.rewrite, rewrite_congr inner h]
  | .slice elem, h => by rw [TypeRef.rewrite, TypeRef.rewrite, rewrite_congr elem h]
  | .array _ elem, h => by rw [TypeRef.rewrite, TypeRef.rewrite, rewrite_congr elem h]
  | .function params ret _, h => by
    rw [TypeRef.rewrite, TypeRef.rewrite,
      rewriteAll_congr params (fun n hn => h n (List.mem_append_left _ hn)),
      rewrite_congr ret (fun n hn => h n (List.mem_append_right _ hn))]
  | .generic base args, h => by
    rw [TypeRef.rewrite, TypeRef.rewrite,
      rewrite_congr base (fun n hn => h n (List.mem_append_left _ hn)),
      rewriteAll_congr args (fun n hn => h n (List.mem_append_right _ hn))]

theorem rewriteAll_congr {g g' : String → TypeRef} :
    ∀ ts : List TypeRef, (∀ n ∈ namesAll ts, g n = g' n) →
      TypeRef.rewriteAll g ts = TypeRef.rewriteAll g' ts
  | [], _ => rfl
  | t :: ts, h => by
    rw [TypeRef.rewriteAll, TypeRef.rewriteAll,
      rewrite_congr t (fun n hn => h n (List.mem_append_left _ hn)),
      rewriteAll_congr ts (fun n hn => h n (List.mem_append_right _ hn))]

end

mutual

/-- Two rewritings of a type that give the same agree on what it mentions. -/
theorem rewrite_agree {g g' : String → TypeRef} :
    ∀ t : TypeRef, t.rewrite g = t.rewrite g' → ∀ n ∈ names t, g n = g' n
  | .named name, h, n, hn => by
    rw [List.mem_singleton.mp hn]
    exact h
  | .pointer inner _, h, n, hn => rewrite_agree inner (TypeRef.pointer.inj h).1 n hn
  | .slice elem, h, n, hn => rewrite_agree elem (TypeRef.slice.inj h) n hn
  | .array _ elem, h, n, hn => rewrite_agree elem (TypeRef.array.inj h).2 n hn
  | .function params ret _, h, n, hn => by
    obtain ⟨hparams, hret, -⟩ := TypeRef.function.inj h
    exact (List.mem_append.mp hn).elim (rewriteAll_agree params hparams n) (rewrite_agree ret hret n)
  | .generic base args, h, n, hn => by
    obtain ⟨hbase, hargs⟩ := TypeRef.generic.inj h
    exact (List.mem_append.mp hn).elim (rewrite_agree base hbase n) (rewriteAll_agree args hargs n)

theorem rewriteAll_agree {g g' : String → TypeRef} :
    ∀ ts : List TypeRef, TypeRef.rewriteAll g ts = TypeRef.rewriteAll g' ts →
      ∀ n ∈ namesAll ts, g n = g' n
  | [], _, _, hn => absurd hn List.not_mem_nil
  | t :: ts, h, n, hn => by
    obtain ⟨ht, hts⟩ := List.cons.inj h
    exact (List.mem_append.mp hn).elim (rewrite_agree t ht n) (rewriteAll_agree ts hts n)

end

mutual

theorem rewrite_named : ∀ t : TypeRef, t.rewrite .named = t
  | .named _ => rfl
  | .pointer inner _ => by rw [TypeRef.rewrite, rewrite_named inner]
  | .slice elem => by rw [TypeRef.rewrite, rewrite_named elem]
  | .array _ elem => by rw [TypeRef.rewrite, rewrite_named elem]
  | .function params ret _ => by
    rw [TypeRef.rewrite, rewriteAll_named params, rewrite_named ret]
  | .generic base args => by
    rw [TypeRef.rewrite, rewrite_named base, rewriteAll_named args]

theorem rewriteAll_named : ∀ ts : List TypeRef, TypeRef.rewriteAll .named ts = ts
  | [] => rfl
  | t :: ts => by rw [TypeRef.rewriteAll, rewrite_named t, rewriteAll_named ts]

end

theorem rewrite_unchanged {g : String → TypeRef} {t : TypeRef} (h : ∀ n ∈ names t, g n = .named n) :
    t.rewrite g = t :=
  (rewrite_congr t h).trans (rewrite_named t)

/-- The types that are written in a node. -/
def Kind.types : Kind → List TypeRef
  | .functionDeclaration head =>
    head.returnType.toList ++ head.params.filterMap Param.type ++ head.receiverType.toList
  | .functionExpr params returnType => returnType.toList ++ params.filterMap Param.type
  | .structDecl head => head.fields.map Prod.snd
  | .ifaceDecl _ methods embeds =>
    methods.flatMap (fun m => m.params.map Prod.snd ++ m.returnType.toList) ++ embeds
  | .variableDeclaration _ annotated => annotated.toList
  | .functionCall _ typeArgs => typeArgs
  | .genericFunctionValue _ typeArgs => typeArgs
  | .indexAccess typeArgsCandidate => typeArgsCandidate.getD []
  | .sizeOfType typeName => [typeName]
  | .structLiteral name _ => [name]
  | .mapLiteral mapType => mapType.toList
  | .arrayLiteral _ elemType => [elemType]
  | .sliceLiteral elemType => elemType.toList
  | _ => []

/-- The names in a node that stand for a function, a variable or an enum. -/
def Kind.values : Kind → List String
  | .identifier name => [name]
  | .functionCall (.named name) _ => [name]
  | .genericFunctionValue name _ => [name]
  | .enumRef enumName _ => [enumName]
  | _ => []

/-- The type parameters that a node declares for itself and what is in it. -/
def Kind.typeParams : Kind → List String
  | .functionDeclaration head => head.typeParams.map TypeParam.name
  | .structDecl head => head.typeParams.map TypeParam.name
  | _ => []

end Types

section Rewriting

variable (g : String → TypeRef)

def Param.rewrite (p : Param) : Param := { p with type := p.type.map (TypeRef.rewrite g) }

def Method.rewrite (method : Method) : Method :=
  { method with
    params := method.params.map (fun p => (p.1, p.2.rewrite g))
    returnType := method.returnType.map (TypeRef.rewrite g) }

/-- A node with all of its types rewritten. -/
def Kind.rewrite : Kind → Kind
  | .functionDeclaration head =>
    .functionDeclaration
      { head with
        params := head.params.map (Param.rewrite g)
        returnType := head.returnType.map (TypeRef.rewrite g)
        receiverType := head.receiverType.map (TypeRef.rewrite g) }
  | .functionExpr params returnType =>
    .functionExpr (params.map (Param.rewrite g)) (returnType.map (TypeRef.rewrite g))
  | .structDecl head =>
    .structDecl { head with fields := head.fields.map (fun f => (f.1, f.2.rewrite g)) }
  | .ifaceDecl name methods embeds =>
    .ifaceDecl name (methods.map (Method.rewrite g)) (embeds.map (TypeRef.rewrite g))
  | .variableDeclaration name annotated =>
    .variableDeclaration name (annotated.map (TypeRef.rewrite g))
  | .functionCall name typeArgs => .functionCall name (typeArgs.map (TypeRef.rewrite g))
  | .genericFunctionValue name typeArgs =>
    .genericFunctionValue name (typeArgs.map (TypeRef.rewrite g))
  | .indexAccess candidate =>
    .indexAccess (candidate.map (fun typeArgs => typeArgs.map (TypeRef.rewrite g)))
  | .sizeOfType typeName => .sizeOfType (typeName.rewrite g)
  | .structLiteral name fields => .structLiteral (name.rewrite g) fields
  | .mapLiteral mapType => .mapLiteral (mapType.map (TypeRef.rewrite g))
  | .arrayLiteral length elemType => .arrayLiteral length (elemType.rewrite g)
  | .sliceLiteral elemType => .sliceLiteral (elemType.map (TypeRef.rewrite g))
  | kind => kind

variable {g} {g' : String → TypeRef} {kind : Kind}

theorem params_types (params : List Param) :
    (params.map (Param.rewrite g)).filterMap Param.type =
      (params.filterMap Param.type).map (TypeRef.rewrite g) := by
  rw [List.filterMap_map, List.map_filterMap]
  rfl

theorem option_toList (t : Option TypeRef) :
    (t.map (TypeRef.rewrite g)).toList = t.toList.map (TypeRef.rewrite g) := by
  cases t <;> rfl

theorem methods_types (methods : List Method) :
    (methods.map (Method.rewrite g)).flatMap
        (fun method => method.params.map Prod.snd ++ method.returnType.toList) =
      (methods.flatMap (fun method => method.params.map Prod.snd ++ method.returnType.toList)).map
        (TypeRef.rewrite g) := by
  rw [List.flatMap_map, List.map_flatMap]
  refine List.flatMap_congr (fun method _ => ?_)
  rw [List.map_append, List.map_map, ← option_toList, Method.rewrite, List.map_map]
  rfl

theorem types_rewrite (g : String → TypeRef) (kind : Kind) :
    (kind.rewrite g).types = kind.types.map (TypeRef.rewrite g) := by
  cases kind with
  | functionDeclaration head =>
    simp only [Kind.rewrite, Kind.types, params_types, option_toList, List.map_append]
  | functionExpr params returnType =>
    simp only [Kind.rewrite, Kind.types, params_types, option_toList, List.map_append]
  | ifaceDecl name methods embeds =>
    simp only [Kind.rewrite, Kind.types, methods_types, List.map_append]
  | structDecl head =>
    simp only [Kind.rewrite, Kind.types, List.map_map]
    rfl
  | variableDeclaration name annotated => exact option_toList annotated
  | mapLiteral mapType => exact option_toList mapType
  | sliceLiteral elemType => exact option_toList elemType
  | indexAccess candidate => cases candidate <;> rfl
  | _ => rfl

theorem optional_congr {t : Option TypeRef} (h : ∀ t' ∈ t.toList, t'.rewrite g = t'.rewrite g') :
    t.map (TypeRef.rewrite g) = t.map (TypeRef.rewrite g') :=
  Option.map_congr (fun t' ht => h t' (Option.mem_toList.mpr ht))

theorem params_congr {params : List Param}
    (h : ∀ t ∈ params.filterMap Param.type, t.rewrite g = t.rewrite g') :
    params.map (Param.rewrite g) = params.map (Param.rewrite g') := by
  refine List.map_congr_left (fun p hp => ?_)
  have htype : p.type.map (TypeRef.rewrite g) = p.type.map (TypeRef.rewrite g') :=
    Option.map_congr (fun t ht => h t (List.mem_filterMap.mpr ⟨p, hp, ht⟩))
  rw [Param.rewrite, Param.rewrite, htype]

theorem method_congr {method : Method}
    (h : ∀ t ∈ method.params.map Prod.snd ++ method.returnType.toList,
      t.rewrite g = t.rewrite g') : Method.rewrite g method = Method.rewrite g' method := by
  have hparams : method.params.map (fun p => (p.1, p.2.rewrite g)) =
      method.params.map (fun p => (p.1, p.2.rewrite g')) := by
    refine List.map_congr_left (fun p hp => ?_)
    rw [h p.2 (List.mem_append_left _ (List.mem_map_of_mem hp))]
  have hreturn : method.returnType.map (TypeRef.rewrite g) =
      method.returnType.map (TypeRef.rewrite g') :=
    optional_congr (fun t ht => h t (List.mem_append_right _ ht))
  rw [Method.rewrite, Method.rewrite, hparams, hreturn]

theorem Kind.rewrite_congr (h : ∀ n ∈ namesAll kind.types, g n = g' n) :
    kind.rewrite g = kind.rewrite g' := by
  have htype : ∀ t ∈ kind.types, t.rewrite g = t.rewrite g' := by
    intro t ht
    refine ModuleSyntax.rewrite_congr t (fun n hn => h n ?_)
    rw [namesAll_eq]
    exact List.mem_flatMap.mpr ⟨t, ht, hn⟩
  cases kind with
  | functionDeclaration head =>
    have hparams := params_congr (fun t ht =>
      htype t (List.mem_append_left _ (List.mem_append_right _ ht)))
    have hreturn := optional_congr (fun t ht =>
      htype t (List.mem_append_left _ (List.mem_append_left _ ht)))
    have hreceiver := optional_congr (fun t ht => htype t (List.mem_append_right _ ht))
    rw [Kind.rewrite, Kind.rewrite, hparams, hreturn, hreceiver]
  | functionExpr params returnType =>
    have hparams := params_congr (fun t ht => htype t (List.mem_append_right _ ht))
    have hreturn := optional_congr (fun t ht => htype t (List.mem_append_left _ ht))
    rw [Kind.rewrite, Kind.rewrite, hparams, hreturn]
  | structDecl head =>
    have hfields : head.fields.map (fun f => (f.1, f.2.rewrite g)) =
        head.fields.map (fun f => (f.1, f.2.rewrite g')) := by
      refine List.map_congr_left (fun f hf => ?_)
      rw [htype f.2 (List.mem_map_of_mem hf)]
    rw [Kind.rewrite, Kind.rewrite, hfields]
  | ifaceDecl name methods embeds =>
    have hmethods : methods.map (Method.rewrite g) = methods.map (Method.rewrite g') :=
      List.map_congr_left (fun method hmethod => method_congr (fun t ht =>
        htype t (List.mem_append_left _ (List.mem_flatMap.mpr ⟨method, hmethod, ht⟩))))
    have hembeds : embeds.map (TypeRef.rewrite g) = embeds.map (TypeRef.rewrite g') :=
      List.map_congr_left (fun t ht => htype t (List.mem_append_right _ ht))
    rw [Kind.rewrite, Kind.rewrite, hmethods, hembeds]
  | variableDeclaration name annotated =>
    rw [Kind.rewrite, Kind.rewrite, optional_congr htype]
  | mapLiteral mapType => rw [Kind.rewrite, Kind.rewrite, optional_congr htype]
  | sliceLiteral elemType => rw [Kind.rewrite, Kind.rewrite, optional_congr htype]
  | functionCall name typeArgs =>
    exact congrArg (Kind.functionCall name) (List.map_congr_left htype)
  | genericFunctionValue name typeArgs =>
    exact congrArg (Kind.genericFunctionValue name) (List.map_congr_left htype)
  | indexAccess candidate =>
    cases candidate with
    | none => rfl
    | some typeArgs =>
      exact congrArg (fun ts => Kind.indexAccess (some ts)) (List.map_congr_left htype)
  | sizeOfType typeName =>
    rw [Kind.rewrite, Kind.rewrite, htype typeName List.mem_cons_self]
  | structLiteral name fields =>
    rw [Kind.rewrite, Kind.rewrite, htype name List.mem_cons_self]
  | arrayLiteral length elemType =>
    rw [Kind.rewrite, Kind.rewrite, htype elemType List.mem_cons_self]
  | _ => rfl

/-- Two rewritings of a node are the same if and only if they agree on what its types mention. -/
theorem Kind.rewrite_eq_iff :
    kind.rewrite g = kind.rewrite g' ↔ ∀ n ∈ namesAll kind.types, g n = g' n := by
  refine ⟨fun h n hn => ?_, Kind.rewrite_congr⟩
  have htypes := congrArg Kind.types h
  rw [types_rewrite, types_rewrite, ← rewriteAll_eq, ← rewriteAll_eq] at htypes
  exact rewriteAll_agree kind.types htypes n hn

end Rewriting

end NewClLang.ModuleSyntax
