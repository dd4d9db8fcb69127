import PropertyRenaming.Proofs.ResolvedSites

namespace PropertyRenaming

/-- The new name of the node at a site, if it gets one. -/
abbrev Rewriting := Site → Option Atom

def Node.named (n : Node) : Option Atom → Node
  | some a => n.set .name (.atom a)
  | none => n

@[simp] theorem Node.kind_named (n : Node) (a : Option Atom) : (n.named a).kind = n.kind := by
  cases a <;> simp [Node.named]

@[simp] theorem Node.place_named (n : Node) (a : Option Atom) : (n.named a).place = n.place := by
  cases a <;> simp [Node.named]

@[simp] theorem Node.length_fields_named (n : Node) (a : Option Atom) :
    (n.named a).fields.length = n.fields.length := by
  cases a <;> simp [Node.named]

theorem Node.get_named_of_ne {f : Field} (hf : .name ≠ f) (n : Node) (a : Option Atom) :
    (n.named a).get f = n.get f := by
  cases a with
  | none => rfl
  | some a => exact get_set_of_ne hf n _

mutual

def Node.rewrite (new : Rewriting) (spot : Spot) : Node → Node
  | ⟨kind, place, fields⟩ =>
    Node.named
      ⟨kind, place, Value.rewriteAll new (spot.under ⟨kind, place, fields⟩) fields⟩
      (new ⟨spot, ⟨kind, place, fields⟩⟩)

def Value.rewrite (new : Rewriting) (spot : Spot) : Value → Value
  | .node n => .node (n.rewrite new spot)
  | .list vs => .list (if vs.all Value.isNode then Value.rewriteAll new spot vs else vs)
  | v => v

def Value.rewriteAll (new : Rewriting) (spot : Spot) : List Value → List Value
  | [] => []
  | v :: vs => v.rewrite new spot :: Value.rewriteAll new spot vs

end

def rewriteUnit (new : Rewriting) (unit : List Node) : List Node := unit.map (Node.rewrite new {})

def Site.rewrite (new : Rewriting) (x : Site) : Site := ⟨x.spot, x.node.rewrite new x.spot⟩

/-- Only declared items and fetches are renamed, and only from one text to another. -/
structure Rewriting.Fits (new : Rewriting) : Prop where
  kind {x : Site} {a : Atom} : new x = some a → x.node.kind = .propertyItem ∨ x.node.kind.isFetch
  literal {x : Site} {a : Atom} : x.node.WellFormed → new x = some a →
    ∃ t, x.node.get .name = .str t
  text {x : Site} {a : Atom} : new x = some a → ∃ t, a = .text t

section Rewriting

variable {new : Rewriting} {spot : Spot}

theorem Value.rewriteAll_eq_map (new : Rewriting) (spot : Spot) (vs : List Value) :
    Value.rewriteAll new spot vs = vs.map (Value.rewrite new spot) := by
  induction vs with
  | nil => rfl
  | cons v vs ih => rw [Value.rewriteAll, ih, List.map_cons]

theorem Node.rewrite_eq (new : Rewriting) (spot : Spot) (n : Node) :
    n.rewrite new spot =
      Node.named ⟨n.kind, n.place, n.fields.map (Value.rewrite new (spot.under n))⟩
        (new ⟨spot, n⟩) := by
  obtain ⟨kind, place, fields⟩ := n
  rw [Node.rewrite, Value.rewriteAll_eq_map]

@[simp] theorem Node.kind_rewrite (new : Rewriting) (spot : Spot) (n : Node) :
    (n.rewrite new spot).kind = n.kind := by
  rw [Node.rewrite_eq, Node.kind_named]

@[simp] theorem Node.place_rewrite (new : Rewriting) (spot : Spot) (n : Node) :
    (n.rewrite new spot).place = n.place := by
  rw [Node.rewrite_eq, Node.place_named]

@[simp] theorem Value.rewrite_atom (new : Rewriting) (spot : Spot) (a : Atom) :
    (Value.atom a).rewrite new spot = .atom a := by
  simp [Value.rewrite]

@[simp] theorem Value.str?_rewrite (new : Rewriting) (spot : Spot) (v : Value) :
    (v.rewrite new spot).str? = v.str? := by
  cases v <;> simp [Value.rewrite, Value.str?]

theorem Node.get_map_rewrite (new : Rewriting) (spot : Spot) (n : Node) (f : Field) :
    Node.get ⟨n.kind, n.place, n.fields.map (Value.rewrite new spot)⟩ f =
      (n.get f).rewrite new spot := by
  unfold Node.get
  cases n.kind.fields.idxOf? f with
  | none => simp
  | some i =>
    simp only [List.getD_eq_getElem?_getD, List.getElem?_map]
    cases n.fields[i]? <;> simp

theorem Node.get_rewrite_of_ne {f : Field} (hf : .name ≠ f) (new : Rewriting) (spot : Spot)
    (n : Node) : (n.rewrite new spot).get f = (n.get f).rewrite new (spot.under n) := by
  rw [Node.rewrite_eq, Node.get_named_of_ne hf, Node.get_map_rewrite]

theorem Node.get_name_rewrite_of_none (h : new ⟨spot, n⟩ = none) :
    (n.rewrite new spot).get .name = (n.get .name).rewrite new (spot.under n) := by
  rw [Node.rewrite_eq, h, Node.named, Node.get_map_rewrite]

theorem Node.get_name_rewrite_of_some {n : Node} (hn : n.Filled) (hf : .name ∈ n.kind.fields)
    {a : Atom} (h : new ⟨spot, n⟩ = some a) : (n.rewrite new spot).get .name = .atom a := by
  rw [Node.rewrite_eq, h]
  exact (hn.refill n.place (List.length_map ..)).get_set_self hf _

theorem Value.all_isNode_rewriteAll (new : Rewriting) (spot : Spot) (vs : List Value) :
    (vs.map (Value.rewrite new spot)).all Value.isNode = vs.all Value.isNode := by
  have h : ∀ v : Value, (v.rewrite new spot).isNode = v.isNode := by
    intro v
    cases v <;> simp [Value.rewrite, Value.isNode]
  simp [List.all_map, Function.comp_def, h]

theorem Content.admits_rewrite (new : Rewriting) (spot : Spot) (c : Content) (v : Value) :
    c.admits (v.rewrite new spot) = c.admits v := by
  have hitem : ∀ u : Value, Content.isItem (u.rewrite new spot) = Content.isItem u := by
    intro u
    cases u <;> simp [Value.rewrite, Content.isItem]
  cases v with
  | node n => cases c <;> simp [Value.rewrite, Content.admits]
  | list vs =>
    cases c <;> simp only [Value.rewrite, Content.admits]
    split <;> simp [Value.rewriteAll_eq_map, List.all_map, Function.comp_def, hitem]
  | _ => simp [Value.rewrite]

theorem Spot.under_rewrite (new : Rewriting) (spot outer : Spot) (n : Node) :
    outer.under (n.rewrite new spot) = outer.under n := by
  unfold Spot.under Declarations.isPrivate
  rw [Node.kind_rewrite, Node.get_rewrite_of_ne (by decide)]
  cases n.get .flags <;> simp [Value.rewrite, Except.toOption]

theorem Rewriting.Fits.name_mem (h : new.Fits) {x : Site} {a : Atom} (hx : new x = some a) :
    .name ∈ x.node.kind.fields := by
  rcases h.kind hx with hk | hk
  · simp [hk, Kind.fields]
  · cases hk' : x.node.kind <;> simp_all [Kind.isFetch, Kind.fields]

theorem Node.WellFormed.rewrite (h : new.Fits) {n : Node} (hn : n.WellFormed) (spot : Spot) :
    (n.rewrite new spot).WellFormed := by
  have hmap : Node.WellFormed ⟨n.kind, n.place, n.fields.map (Value.rewrite new (spot.under n))⟩ :=
    { filled := hn.filled.refill n.place (List.length_map ..)
      unshared := hn.unshared
      admits := fun f => by rw [Node.get_map_rewrite, Content.admits_rewrite]; exact hn.admits f }
  rw [Node.rewrite_eq]
  cases hx : new ⟨spot, n⟩ with
  | none => exact hmap
  | some a =>
    obtain ⟨t, rfl⟩ := h.text hx
    refine hmap.set ?_
    rcases h.kind hx with hk | hk
    · simp only at hk
      rw [hk]
      rfl
    · cases hk' : n.kind <;> simp_all [Kind.isFetch, Kind.content, Content.admits]

/-- What a node has field by field does not depend on names, as long as bare values add nothing. -/
theorem Node.flatMap_rewrite {α : Type} {g : Value → List α} (hg : ∀ a, g (.atom a) = [])
    (h : new.Fits) {n : Node} (hn : n.WellFormed) (spot : Spot) :
    (n.rewrite new spot).fields.flatMap g =
      (n.fields.map (Value.rewrite new (spot.under n))).flatMap g := by
  rw [Node.rewrite_eq]
  cases hx : new ⟨spot, n⟩ with
  | none => rfl
  | some a =>
    obtain ⟨t, ht⟩ := h.literal hn hx
    have hfilled := hn.filled.refill n.place (List.length_map (Value.rewrite new (spot.under n)))
    refine (List.forall₂_eq_eq_eq ▸ Node.flatMap_set (R := Eq) (fun _ => rfl) hfilled ?_).symm
    rw [Node.get_map_rewrite, ht, Value.rewrite_atom, hg, hg]
    exact .nil

mutual

theorem Node.sites_rewrite (h : new.Fits) (spot : Spot) : (n : Node) →
    (∀ m ∈ n.preorder, m.WellFormed) →
    (n.rewrite new spot).sites spot = (n.sites spot).map (Site.rewrite new)
  | ⟨kind, place, fields⟩, hn => by
    obtain ⟨n, hdef⟩ : ∃ n : Node, n = ⟨kind, place, fields⟩ := ⟨_, rfl⟩
    have hwf : n.WellFormed := hdef ▸ hn _ (by simp [Node.preorder])
    have hbelow := Value.sites_rewriteAll h (spot.under n) fields fun m hm =>
      hn m (by simp [Node.preorder, hm])
    rw [show fields = n.fields by rw [hdef]] at hbelow
    rw [← hdef, Node.sites_eq, Node.sites_eq, Spot.under_rewrite, List.map_cons, ← hbelow,
      Value.sitesAll_eq_flatMap, Value.sitesAll_eq_flatMap,
      Node.flatMap_rewrite (fun a => by simp [Value.sites]) h hwf]
    rfl

theorem Value.sites_rewrite (h : new.Fits) (spot : Spot) : (v : Value) →
    (∀ m ∈ v.preorder, m.WellFormed) →
    (v.rewrite new spot).sites spot = (v.sites spot).map (Site.rewrite new)
  | .node n, hv => by
    rw [Value.preorder] at hv
    exact Node.sites_rewrite h spot n hv
  | .list vs, hv => by
    rw [Value.preorder] at hv
    by_cases hall : vs.all Value.isNode
    · rw [if_pos hall] at hv
      rw [Value.rewrite, if_pos hall, Value.rewriteAll_eq_map, Value.sites, Value.sites,
        Value.all_isNode_rewriteAll, if_pos hall, if_pos hall]
      exact Value.sites_rewriteAll h spot vs hv
    · simp [Value.rewrite, Value.sites, hall]
  | .atom _, hv | .object, hv => by simp [Value.rewrite, Value.sites]

theorem Value.sites_rewriteAll (h : new.Fits) (spot : Spot) : (vs : List Value) →
    (∀ m ∈ Value.preorderAll vs, m.WellFormed) →
    Value.sitesAll spot (vs.map (Value.rewrite new spot)) =
      (Value.sitesAll spot vs).map (Site.rewrite new)
  | [], _ => rfl
  | v :: vs, hvs => by
    rw [Value.preorderAll] at hvs
    rw [List.map_cons, Value.sitesAll, Value.sitesAll, List.map_append,
      Value.sites_rewrite h spot v fun m hm => hvs m (List.mem_append_left _ hm),
      Value.sites_rewriteAll h spot vs fun m hm => hvs m (List.mem_append_right _ hm)]

end

/-- The sites of a rewritten unit are those of the unit, rewritten one by one. -/
theorem sites_rewriteUnit (h : new.Fits) {unit : List Node} (hu : WellFormed unit) :
    sites (rewriteUnit new unit) = (sites unit).map (Site.rewrite new) := by
  have hsites := Value.sites_rewriteAll h {} (unit.map .node) (by
    rw [preorderAll_nodes]
    exact hu)
  rw [← sites_eq_sitesAll] at hsites
  rw [← hsites, sites_eq_sitesAll, rewriteUnit]
  simp [Function.comp_def, Value.rewrite]

theorem WellFormed.rewriteUnit (h : new.Fits) {unit : List Node} (hu : WellFormed unit) :
    WellFormed (rewriteUnit new unit) := by
  refine wellFormed_of_sites fun y hy => ?_
  rw [sites_rewriteUnit h hu] at hy
  obtain ⟨x, hx, rfl⟩ := List.mem_map.mp hy
  exact (hu x.node (node_mem_preorder hx)).rewrite h x.spot

theorem Node.str?_name_rewrite (h : new ⟨spot, n⟩ = none) :
    ((n.rewrite new spot).get .name).str? = (n.get .name).str? := by
  rw [Node.get_name_rewrite_of_none h, Value.str?_rewrite]

theorem Value.isThis_rewrite
    (h : ∀ {x a}, new x = some a → x.node.kind = .propertyItem ∨ x.node.kind.isFetch)
    (spot : Spot) (v : Value) : (v.rewrite new spot).isThis = v.isThis := by
  cases v with
  | node n =>
    rw [Value.rewrite, Value.isThis, Value.isThis, Node.kind_rewrite]
    by_cases hk : n.kind = .variableRef
    · have hnone : new ⟨spot, n⟩ = none := by
        rw [Option.eq_none_iff_forall_ne_some]
        intro a ha
        rcases h ha with h | h <;> simp [hk, Kind.isFetch] at h
      rw [Node.str?_name_rewrite hnone]
    · rw [beq_false_of_ne hk, Bool.false_and, Bool.false_and]
  | _ => simp [Value.rewrite, Value.isThis]

theorem Value.tokenText?_rewrite (new : Rewriting) (spot : Spot) (v : Value) :
    (v.rewrite new spot).tokenText? = v.tokenText? := by
  cases v with
  | node n =>
    rw [Value.rewrite, Value.tokenText?, Value.tokenText?, Value.token?, Value.token?,
      Node.kind_rewrite]
    split
    · simp [Node.get_rewrite_of_ne (f := .value) (by decide)]
    · rfl
  | _ => simp [Value.rewrite, Value.tokenText?, Value.token?]

theorem Node.preorderAll_named {n m : Node} {a : Option Atom}
    (hm : m ∈ Value.preorderAll (n.named a).fields) : m ∈ Value.preorderAll n.fields := by
  cases a with
  | none => exact hm
  | some a =>
    rcases Node.mem_preorderAll_set hm with hm | hm
    · exact hm
    · simp [Value.preorder] at hm

theorem Node.depthAll_named_le (n : Node) (a : Option Atom) :
    Value.depthAll (n.named a).fields ≤ Value.depthAll n.fields := by
  cases a with
  | none => exact le_rfl
  | some a => exact Node.depthAll_set_le (by simp [Value.depth])

mutual

theorem Node.depth_rewrite (new : Rewriting) (spot : Spot) : (n : Node) →
    (n.rewrite new spot).depth ≤ n.depth
  | ⟨kind, place, fields⟩ => by
    have hfields := Value.depth_rewriteAll new (spot.under ⟨kind, place, fields⟩) fields
    rw [Node.depth_eq, Node.depth_eq, Node.rewrite_eq]
    exact Nat.succ_le_succ ((Node.depthAll_named_le ..).trans hfields)

theorem Value.depth_rewrite (new : Rewriting) (spot : Spot) : (v : Value) →
    (v.rewrite new spot).depth ≤ v.depth
  | .node n => by
    rw [Value.rewrite, Value.depth, Value.depth]
    exact Node.depth_rewrite new spot n
  | .list vs => by
    rw [Value.rewrite, Value.depth, Value.depth, Value.rewriteAll_eq_map]
    split
    · exact Value.depth_rewriteAll new spot vs
    · exact le_rfl
  | .atom _ | .object => by simp [Value.rewrite]

theorem Value.depth_rewriteAll (new : Rewriting) (spot : Spot) : (vs : List Value) →
    Value.depthAll (vs.map (Value.rewrite new spot)) ≤ Value.depthAll vs
  | [] => le_rfl
  | v :: vs => by
    rw [List.map_cons, Value.depthAll, Value.depthAll]
    exact max_le_max (Value.depth_rewrite new spot v) (Value.depth_rewriteAll new spot vs)

end

theorem depth_rewriteUnit (new : Rewriting) (unit : List Node) :
    depth (rewriteUnit new unit) ≤ depth unit := by
  induction unit with
  | nil => exact le_rfl
  | cons n unit ih => exact max_le_max (n.depth_rewrite new {}) ih

end Rewriting

end PropertyRenaming
