import Mathlib.Data.List.Basic
import Mathlib.Tactic.Common

set_option autoImplicit false

/-!
# Trees of labelled nodes

Finite trees with any number of children, their labels in the order in which a walk meets them, and
what a relabelling does to them. A walk may hand a context down to the children.
-/
namespace NewClLang.RoseTrees

inductive RoseTree (κ : Type*) where
  | node (label : κ) (children : List (RoseTree κ))

section Labels
variable {κ ι γ : Type*}

theorem RoseTree.induct {P : RoseTree κ → Prop}
    (hnode : ∀ label children, (∀ t ∈ children, P t) → P (.node label children)) : ∀ t, P t
  | .node label children => hnode label children (fun t _ => RoseTree.induct hnode t)

def RoseTree.label : RoseTree κ → κ
  | .node label _ => label

def RoseTree.children : RoseTree κ → List (RoseTree κ)
  | .node _ children => children

mutual

def RoseTree.map (f : κ → ι) : RoseTree κ → RoseTree ι
  | .node label children => .node (f label) (mapAll f children)

def mapAll (f : κ → ι) : List (RoseTree κ) → List (RoseTree ι)
  | [] => []
  | t :: ts => t.map f :: mapAll f ts

end

mutual

/-- The labels, those of a node's children after its own, with what their ancestors handed down. -/
def RoseTree.visits (enter : κ → γ → γ) (context : γ) : RoseTree κ → List (γ × κ)
  | .node label children =>
    (enter label context, label) :: visitsAll enter (enter label context) children

def visitsAll (enter : κ → γ → γ) (context : γ) : List (RoseTree κ) → List (γ × κ)
  | [] => []
  | t :: ts => t.visits enter context ++ visitsAll enter context ts

end

mutual

/-- Every label of the tree is so. -/
def RoseTree.All (P : κ → Prop) : RoseTree κ → Prop
  | .node label children => P label ∧ AllOf P children

def AllOf (P : κ → Prop) : List (RoseTree κ) → Prop
  | [] => True
  | t :: ts => t.All P ∧ AllOf P ts

end

theorem allOf_iff (P : κ → Prop) (ts : List (RoseTree κ)) : AllOf P ts ↔ ∀ t ∈ ts, t.All P := by
  induction ts with
  | nil => simp [AllOf]
  | cons t ts ih => rw [AllOf, ih, List.forall_mem_cons]

theorem mapAll_eq (f : κ → ι) (ts : List (RoseTree κ)) : mapAll f ts = ts.map (RoseTree.map f) := by
  induction ts with
  | nil => rfl
  | cons t ts ih => rw [mapAll, ih, List.map_cons]

theorem visitsAll_eq (enter : κ → γ → γ) (context : γ) (ts : List (RoseTree κ)) :
    visitsAll enter context ts = ts.flatMap (RoseTree.visits enter context) := by
  induction ts with
  | nil => rfl
  | cons t ts ih => rw [visitsAll, ih, List.flatMap_cons]

mutual

/-- A relabelling that sees what the ancestors of a node handed down. -/
def RoseTree.mapIn (enter : κ → γ → γ) (f : γ → κ → ι) (context : γ) : RoseTree κ → RoseTree ι
  | .node label children =>
    .node (f (enter label context) label) (mapAllIn enter f (enter label context) children)

def mapAllIn (enter : κ → γ → γ) (f : γ → κ → ι) (context : γ) :
    List (RoseTree κ) → List (RoseTree ι)
  | [] => []
  | t :: ts => t.mapIn enter f context :: mapAllIn enter f context ts

end

theorem mapAllIn_eq (enter : κ → γ → γ) (f : γ → κ → ι) (context : γ) (ts : List (RoseTree κ)) :
    mapAllIn enter f context ts = ts.map (RoseTree.mapIn enter f context) := by
  induction ts with
  | nil => rfl
  | cons t ts ih => rw [mapAllIn, ih, List.map_cons]

theorem children_eq_map_iff {enter : κ → γ → γ} {f : γ → κ → ι} {g : κ → ι} {context : γ}
    {ts : List (RoseTree κ)}
    (h : ∀ t ∈ ts, t.mapIn enter f context = t.map g ↔
      ∀ visit ∈ t.visits enter context, f visit.1 visit.2 = g visit.2) :
    mapAllIn enter f context ts = mapAll g ts ↔
      ∀ visit ∈ visitsAll enter context ts, f visit.1 visit.2 = g visit.2 := by
  rw [mapAllIn_eq, mapAll_eq, List.map_inj_left, visitsAll_eq]
  refine ⟨fun hsame visit hvisit => ?_, fun hsame t ht => ?_⟩
  · obtain ⟨t, ht, hvisit⟩ := List.mem_flatMap.mp hvisit
    exact (h t ht).mp (hsame t ht) visit hvisit
  · exact (h t ht).mpr (fun visit hvisit => hsame visit (List.mem_flatMap.mpr ⟨t, ht, hvisit⟩))

/-- A relabelling that sees the context is one that does not if and only if they agree wherever the
tree has a label. -/
theorem mapIn_eq_map_iff {enter : κ → γ → γ} {f : γ → κ → ι} {g : κ → ι} (t : RoseTree κ) :
    ∀ context, t.mapIn enter f context = t.map g ↔
      ∀ visit ∈ t.visits enter context, f visit.1 visit.2 = g visit.2 := by
  induction t using RoseTree.induct with
  | hnode label children ih =>
    intro context
    rw [RoseTree.mapIn, RoseTree.map, RoseTree.visits, RoseTree.node.injEq, List.forall_mem_cons]
    exact and_congr Iff.rfl (children_eq_map_iff (fun t ht => ih t ht _))

theorem mapAllIn_eq_map_iff {enter : κ → γ → γ} {f : γ → κ → ι} {g : κ → ι}
    (ts : List (RoseTree κ)) (context : γ) : mapAllIn enter f context ts = mapAll g ts ↔
      ∀ visit ∈ visitsAll enter context ts, f visit.1 visit.2 = g visit.2 :=
  children_eq_map_iff (fun t _ => mapIn_eq_map_iff t context)

theorem children_visits_map {enter : κ → γ → γ} {enter' : ι → γ → γ} {f : κ → ι} {context : γ}
    {ts : List (RoseTree κ)}
    (h : ∀ t ∈ ts, (t.map f).visits enter' context =
      (t.visits enter context).map (fun v => (v.1, f v.2))) :
    visitsAll enter' context (mapAll f ts) =
      (visitsAll enter context ts).map (fun v => (v.1, f v.2)) := by
  rw [mapAll_eq, visitsAll_eq, visitsAll_eq, List.flatMap_map, List.map_flatMap]
  exact List.flatMap_congr h

/-- Labels that hand down the same are met in the same contexts. -/
theorem visits_map {enter : κ → γ → γ} {enter' : ι → γ → γ} {f : κ → ι}
    (henter : ∀ label context, enter' (f label) context = enter label context) (t : RoseTree κ) :
    ∀ context, (t.map f).visits enter' context =
      (t.visits enter context).map (fun v => (v.1, f v.2)) := by
  induction t using RoseTree.induct with
  | hnode label children ih =>
    intro context
    rw [RoseTree.map, RoseTree.visits, RoseTree.visits, henter, List.map_cons,
      children_visits_map (fun t ht => ih t ht _)]

theorem visitsAll_map {enter : κ → γ → γ} {enter' : ι → γ → γ} {f : κ → ι}
    (henter : ∀ label context, enter' (f label) context = enter label context) (ts : List (RoseTree κ))
    (context : γ) :
    visitsAll enter' context (mapAll f ts) =
      (visitsAll enter context ts).map (fun v => (v.1, f v.2)) :=
  children_visits_map (fun t _ => visits_map henter t context)

end Labels

end NewClLang.RoseTrees
