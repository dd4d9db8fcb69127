import PropertyRenaming.Proofs.Fields

namespace PropertyRenaming

open List (Forall₂)

/-- What the nodes above a node say about it. -/
structure Spot where
  /-- The innermost class around the node. -/
  owner : Option ClassId := none
  /-- Whether the declaration that lists the node is private, if one does. -/
  listed : Option Bool := none

def Spot.under (spot : Spot) (n : Node) : Spot where
  owner := Declarations.inside spot.owner n.kind
  listed := if n.kind = .propertyDecl then (Declarations.isPrivate n).toOption else none

structure Site where
  spot : Spot
  node : Node

mutual

def Node.sites (spot : Spot) : Node → List Site
  | ⟨kind, place, fields⟩ =>
    ⟨spot, ⟨kind, place, fields⟩⟩ :: Value.sitesAll (spot.under ⟨kind, place, fields⟩) fields

def Value.sites (spot : Spot) : Value → List Site
  | .node n => n.sites spot
  | .list vs => if vs.all Value.isNode then Value.sitesAll spot vs else []
  | _ => []

def Value.sitesAll (spot : Spot) : List Value → List Site
  | [] => []
  | v :: vs => v.sites spot ++ Value.sitesAll spot vs

end

/-- All nodes of a unit, each with its spot. -/
def sites (unit : List Node) : List Site := unit.flatMap (Node.sites {})

theorem Node.sites_eq (spot : Spot) (n : Node) :
    n.sites spot = ⟨spot, n⟩ :: Value.sitesAll (spot.under n) n.fields := by
  obtain ⟨kind, place, fields⟩ := n
  rw [Node.sites]

theorem Node.preorder_eq (n : Node) : n.preorder = n :: Value.preorderAll n.fields := by
  obtain ⟨kind, place, fields⟩ := n
  rw [Node.preorder]

theorem Node.depth_eq (n : Node) : n.depth = Value.depthAll n.fields + 1 := by
  obtain ⟨kind, place, fields⟩ := n
  rw [Node.depth]

mutual

theorem Node.map_node_sites (spot : Spot) : (n : Node) → (n.sites spot).map Site.node = n.preorder
  | ⟨kind, place, fields⟩ => by
    simp [Node.sites, Node.preorder, Value.map_node_sitesAll]

theorem Value.map_node_sites (spot : Spot) : (v : Value) →
    (v.sites spot).map Site.node = v.preorder
  | .node n => by simp [Value.sites, Value.preorder, Node.map_node_sites]
  | .list vs => by
    rw [Value.sites, Value.preorder]
    split
    · exact Value.map_node_sitesAll spot vs
    · rfl
  | .atom _ | .object => by simp [Value.sites, Value.preorder]

theorem Value.map_node_sitesAll (spot : Spot) : (vs : List Value) →
    (Value.sitesAll spot vs).map Site.node = Value.preorderAll vs
  | [] => by simp [Value.sitesAll, Value.preorderAll]
  | v :: vs => by
    simp [Value.sitesAll, Value.preorderAll, Value.map_node_sites, Value.map_node_sitesAll]

end

/-- The sites of a unit are its nodes in pre-order. -/
theorem map_node_sites (unit : List Node) : (sites unit).map Site.node = preorder unit := by
  simp [sites, preorder, List.map_flatMap, Node.map_node_sites]

theorem preorderAll_nodes (unit : List Node) :
    Value.preorderAll (unit.map .node) = preorder unit := by
  induction unit with
  | nil => rfl
  | cons n unit ih =>
    rw [List.map_cons, Value.preorderAll, Value.preorder, ih]
    rfl

theorem node_mem_preorder {unit : List Node} {site : Site} (h : site ∈ sites unit) :
    site.node ∈ preorder unit := by
  rw [← map_node_sites]
  exact List.mem_map_of_mem h

theorem Value.sitesAll_nodes (spot : Spot) (ns : List Node) :
    Value.sitesAll spot (ns.map .node) = ns.flatMap (Node.sites spot) := by
  induction ns with
  | nil => rfl
  | cons n ns ih => simp [Value.sitesAll, Value.sites, ih]

theorem sites_eq_sitesAll (unit : List Node) : sites unit = Value.sitesAll {} (unit.map .node) :=
  (Value.sitesAll_nodes {} unit).symm

theorem Value.sitesAll_eq_flatMap (spot : Spot) (vs : List Value) :
    Value.sitesAll spot vs = vs.flatMap (Value.sites spot) := by
  induction vs with
  | nil => rfl
  | cons v vs ih => rw [Value.sitesAll, ih, List.flatMap_cons]

theorem Value.preorderAll_eq_flatMap (vs : List Value) :
    Value.preorderAll vs = vs.flatMap Value.preorder := by
  induction vs with
  | nil => rfl
  | cons v vs ih => rw [Value.preorderAll, ih, List.flatMap_cons]

theorem Node.flatMap_set {α : Type} {R : α → α → Prop} (hR : ∀ x, R x x) {g : Value → List α}
    {n : Node} (hn : n.Filled) {f : Field} {v : Value} (h : Forall₂ R (g (n.get f)) (g v)) :
    Forall₂ R (n.fields.flatMap g) ((n.set f v).fields.flatMap g) := by
  have hrefl : ∀ l : List α, Forall₂ R l l := fun l => List.forall₂_same.mpr fun x _ => hR x
  have hlist : ∀ (vs : List Value) (i : Nat) (u : Value), vs[i]? = some u →
      Forall₂ R (g u) (g v) → Forall₂ R (vs.flatMap g) ((vs.set i v).flatMap g) := by
    intro vs i u hu h
    induction vs generalizing i with
    | nil => simp at hu
    | cons w vs ih =>
      cases i with
      | zero =>
        obtain rfl : w = u := by simpa using hu
        rw [List.set_cons_zero, List.flatMap_cons, List.flatMap_cons]
        exact List.rel_append h (hrefl _)
      | succ i =>
        rw [List.set_cons_succ, List.flatMap_cons, List.flatMap_cons]
        exact List.rel_append (hrefl _) (ih i (by simpa using hu))
  unfold Node.set
  cases hi : n.kind.fields.idxOf? f with
  | none => exact hrefl _
  | some i =>
    have hlt : i < n.fields.length := by
      rw [hn]
      exact (List.idxOf?_eq_some_iff.mp hi).1
    refine hlist _ _ (n.get f) ?_ h
    simp [Node.get, hi, List.getD_eq_getElem?_getD, hlt]

end PropertyRenaming
