import PropertyRenaming.Proofs.ResolvedSites

namespace PropertyRenaming

open List (Forall₂)

namespace Node

theorem depth_lt_of_mem_children {n m : Node} {f : Field} (hm : m ∈ (n.get f).children) :
    m.depth < n.depth := by
  have hchild := (Value.mem_children hm).1
  have hfield := n.get_depth_le f
  have hdepth := n.depth_eq
  omega

theorem get_of_forall₂ {R : Value → Value → Prop} (hnull : R .null .null) {n m : Node}
    (hk : m.kind = n.kind) (h : Forall₂ R n.fields m.fields) (f : Field) :
    R (n.get f) (m.get f) := by
  unfold Node.get
  rw [hk]
  cases n.kind.fields.idxOf? f with
  | none => exact hnull
  | some i =>
    simp only [List.getD_eq_getElem?_getD]
    by_cases hi : i < n.fields.length
    · have hi' : i < m.fields.length := h.length_eq ▸ hi
      simpa [hi, hi'] using h.get hi hi'
    · have hi' : ¬ i < m.fields.length := h.length_eq ▸ hi
      simpa [hi, hi'] using hnull

/-- What holds of a node whenever it holds of the nodes in its fields holds of all nodes. -/
theorem induction_children {motive : Node → Prop}
    (h : ∀ n : Node, (∀ f, ∀ m ∈ (n.get f).children, motive m) → motive n) (n : Node) :
    motive n := by
  obtain ⟨d, hd⟩ : ∃ d, n.depth = d := ⟨_, rfl⟩
  induction d using Nat.strong_induction_on generalizing n with
  | _ d ih =>
    apply h
    intro f m hm
    exact ih m.depth (hd ▸ depth_lt_of_mem_children hm) m rfl

theorem mem_preorder_of_mem_children {n m : Node} {f : Field} (hm : m ∈ (n.get f).children) :
    m ∈ n.preorder := by
  have hself : m ∈ m.preorder := by simp [m.preorder_eq]
  rw [n.preorder_eq]
  exact List.mem_cons_of_mem _ (mem_preorderAll_of_get ((Value.mem_children hm).2 m hself))

theorem Filled.map_get {n : Node} (hn : n.Filled) : n.kind.fields.map n.get = n.fields := by
  have hnodup : n.kind.fields.Nodup := by
    cases n.kind <;> simp [Kind.fields]
  apply List.ext_getElem
  · rw [List.length_map, hn]
  · intro i hi hi'
    have hlt : i < n.kind.fields.length := by simpa using hi
    have hidx : n.kind.fields.idxOf? n.kind.fields[i] = some i := by
      rw [List.idxOf?_eq_some_iff]
      refine ⟨hlt, rfl, fun j hj heq => ?_⟩
      have := hnodup.getElem_inj_iff.mp heq
      omega
    simp [Node.get, hidx, hi']

theorem Filled.exists_get {n : Node} (hn : n.Filled) {v : Value} (hv : v ∈ n.fields) :
    ∃ f, n.get f = v := by
  rw [← hn.map_get] at hv
  obtain ⟨f, -, hf⟩ := List.mem_map.mp hv
  exact ⟨f, hf⟩

end Node

namespace Value

theorem depthAll_le {vs : List Value} {k : Nat} (h : ∀ v ∈ vs, v.depth ≤ k) :
    Value.depthAll vs ≤ k := by
  induction vs with
  | nil => exact Nat.zero_le k
  | cons v vs ih =>
    rw [List.forall_mem_cons] at h
    exact max_le h.1 (ih h.2)

theorem exists_child_of_mem_preorder {v : Value} {n : Node} (hn : n ∈ v.preorder) :
    ∃ c ∈ v.children, n ∈ c.preorder := by
  cases v with
  | node m => exact ⟨m, by simp [children], by simpa [preorder] using hn⟩
  | list vs =>
    rw [preorder, all_isNode_eq] at hn
    cases hns : nodesOf? vs with
    | none => simp [hns] at hn
    | some ns =>
      rw [hns, Option.isSome_some, if_pos rfl, nodesOf?_eq_some_iff.mp hns, preorderAll_nodes] at hn
      simpa [children, hns, PropertyRenaming.preorder, List.mem_flatMap] using hn
  | _ => simp [preorder] at hn

end Value

/-- Which fields of a node may differ: by its spot, by whether it stands where a class is named, and
by how it is before and after. -/
abbrev Touch := Spot → Bool → Node → Node → Field → Prop

mutual

inductive Node.Framed (T : Touch) : Spot → Bool → Node → Node → Prop
  | mk {spot : Spot} {named : Bool} {n m : Node} (kind : m.kind = n.kind)
      (share : m.place.share = n.place.share) (length : m.fields.length = n.fields.length)
      (field : ∀ f, Value.Framed T (T spot named n m f) (spot.under n)
        (n.kind.reference? == some f) (n.get f) (m.get f)) :
      Node.Framed T spot named n m

/-- The first argument after `T` says whether the value itself may be touched. -/
inductive Value.Framed (T : Touch) : Prop → Spot → Bool → Value → Value → Prop
  | touched {p : Prop} {spot : Spot} {named : Bool} {a b : Atom} :
      p → Value.Framed T p spot named (.atom a) (.atom b)
  | same {p : Prop} {spot : Spot} {named : Bool} {v : Value} :
      v.children = [] → Value.Framed T p spot named v v
  | node {p : Prop} {spot : Spot} {named : Bool} {n m : Node} :
      Node.Framed T spot named n m → Value.Framed T p spot named (.node n) (.node m)
  | nodes {p : Prop} {spot : Spot} {named : Bool} {vs us : List Value} :
      Value.FramedAll T spot vs us → Value.Framed T p spot named (.list vs) (.list us)

inductive Value.FramedAll (T : Touch) : Spot → List Value → List Value → Prop
  | nil {spot : Spot} : Value.FramedAll T spot [] []
  | cons {spot : Spot} {n m : Node} {vs us : List Value} :
      Node.Framed T spot false n m → Value.FramedAll T spot vs us →
      Value.FramedAll T spot (.node n :: vs) (.node m :: us)

end

section Framed

variable {T T' T'' : Touch} {spot : Spot} {named : Bool} {n m k : Node}

theorem Node.Framed.kind_eq : n.Framed T spot named m → m.kind = n.kind
  | .mk kind _ _ _ => kind

theorem Node.Framed.share_eq : n.Framed T spot named m → m.place.share = n.place.share
  | .mk _ share _ _ => share

theorem Node.Framed.length_eq : n.Framed T spot named m → m.fields.length = n.fields.length
  | .mk _ _ length _ => length

theorem Node.Framed.field : n.Framed T spot named m → ∀ f, Value.Framed T (T spot named n m f)
    (spot.under n) (n.kind.reference? == some f) (n.get f) (m.get f)
  | .mk _ _ _ field => field

theorem Node.Framed.filled (h : Node.Framed T spot named n m) (hn : n.Filled) : m.Filled := by
  rw [Node.Filled, h.length_eq, h.kind_eq]
  exact hn

theorem Value.Framed.eq_atom {p : Prop} {v : Value} {a : Atom} (hp : ¬ p)
    (h : Value.Framed T p spot named v (.atom a)) : v = .atom a := by
  cases h with
  | touched hp' => exact absurd hp' hp
  | same _ => rfl

theorem Value.Framed.imp {p p' : Prop} (hp : p → p') {v u : Value} :
    Value.Framed T p spot named v u → Value.Framed T p' spot named v u
  | .touched h => .touched (hp h)
  | .same h => .same h
  | .node h => .node h
  | .nodes h => .nodes h

theorem Value.Framed.eq_of_atom {p : Prop} {a : Atom} {u : Value} (hp : ¬ p)
    (h : Value.Framed T p spot named (.atom a) u) : u = .atom a := by
  cases h with
  | touched hp' => exact absurd hp' hp
  | same _ => rfl

@[simp] theorem Value.children_nodes (ns : List Node) :
    (Value.list (ns.map .node)).children = ns := by
  simp [Value.children, Value.nodesOf?_eq_some_iff.mpr rfl]

theorem Value.framedAll_iff {vs us : List Value} :
    Value.FramedAll T spot vs us ↔ ∃ ns ms : List Node, vs = ns.map .node ∧ us = ms.map .node ∧
      Forall₂ (Node.Framed T spot false) ns ms := by
  constructor
  · intro h
    induction vs generalizing us with
    | nil =>
      cases h
      exact ⟨[], [], rfl, rfl, .nil⟩
    | cons v vs ih =>
      cases h with
      | @cons _ n m _ us hn hrest =>
        obtain ⟨ns, ms, rfl, rfl, hall⟩ := ih hrest
        exact ⟨n :: ns, m :: ms, rfl, rfl, .cons hn hall⟩
  · rintro ⟨ns, ms, rfl, rfl, h⟩
    induction h with
    | nil => exact .nil
    | cons hn _ ih => exact .cons hn ih

theorem Value.framedAll_of_forall₂ {vs us : List Value} (hvs : vs.all Value.isNode = true)
    (h : Forall₂ (Value.Framed T False spot false) vs us) : Value.FramedAll T spot vs us := by
  induction h with
  | nil => exact .nil
  | @cons v u vs us hv _ ih =>
    simp only [List.all_cons, Bool.and_eq_true] at hvs
    cases v with
    | node n =>
      cases hv with
      | same hn => simp [Value.children] at hn
      | node hn => exact .cons hn (ih hvs.2)
    | _ => simp [Value.isNode] at hvs

theorem Value.Framed.exists_list {vs : List Value} (hvs : vs.all Value.isNode = true) {u : Value}
    (h : Value.Framed T False spot named (.list vs) u) :
    ∃ us, u = .list us ∧ Forall₂ (Value.Framed T False spot false) vs us := by
  cases h with
  | same hnone =>
    rw [Value.all_isNode_eq, Option.isSome_iff_exists] at hvs
    obtain ⟨ns, hns⟩ := hvs
    obtain rfl := Value.nodesOf?_eq_some_iff.mp hns
    obtain rfl : ns = [] := by simpa using hnone
    exact ⟨[], rfl, .nil⟩
  | nodes hall =>
    obtain ⟨ns, ms, rfl, rfl, hnodes⟩ := Value.framedAll_iff.mp hall
    refine ⟨_, rfl, ?_⟩
    rw [List.forall₂_map_left_iff, List.forall₂_map_right_iff]
    exact hnodes.imp fun _ _ h => .node h

theorem Node.framed_of_fields (kind : m.kind = n.kind) (share : m.place.share = n.place.share)
    (h : Forall₂ (fun v u => ∀ p named, Value.Framed T p (spot.under n) named v u)
      n.fields m.fields) : Node.Framed T spot named n m :=
  .mk kind share h.length_eq.symm fun f => Node.get_of_forall₂
    (R := fun v u => ∀ p named, Value.Framed T p (spot.under n) named v u)
    (fun _ _ => .same rfl) kind h f _ _

/-- The spot of what is below a node stays, as long as its flags do. -/
theorem Node.Framed.under (h : Node.Framed T spot named n m) (hflags : ¬ T spot named n m .flags)
    (outer : Spot) : outer.under m = outer.under n := by
  have hprivate : (Declarations.isPrivate m).toOption = (Declarations.isPrivate n).toOption := by
    have hv := h.field .flags
    unfold Declarations.isPrivate
    generalize n.get .flags = v at hv
    generalize m.get .flags = u at hv
    cases hv with
    | touched hp => exact absurd hp hflags
    | same _ => rfl
    | node _ => rfl
    | nodes _ => rfl
  simp only [Spot.under, h.kind_eq, hprivate]

theorem Value.Framed.preorder {R : Node → Node → Prop} {p : Prop} {v u : Value}
    (h : Value.Framed T p spot named v u)
    (hchildren : ∀ c ∈ v.children, ∀ named k, Node.Framed T spot named c k →
      Forall₂ R c.preorder k.preorder) : Forall₂ R v.preorder u.preorder := by
  cases h with
  | touched _ =>
    rw [Value.preorder, Value.preorder]
    · exact .nil
    all_goals simp
  | same hnone =>
    have hnil : v.preorder = [] := by
      rw [List.eq_nil_iff_forall_not_mem]
      intro k hk
      obtain ⟨c, hc, -⟩ := Value.exists_child_of_mem_preorder hk
      simp [hnone] at hc
    rw [hnil]
    exact .nil
  | @node _ _ _ c k hck =>
    rw [Value.preorder, Value.preorder]
    exact hchildren c (by simp [Value.children]) named k hck
  | nodes hall =>
    obtain ⟨ns, ms, rfl, rfl, hnodes⟩ := Value.framedAll_iff.mp hall
    rw [Value.children_nodes] at hchildren
    have hisNode : ∀ ks : List Node, (ks.map Value.node).all Value.isNode = true := fun ks => by
      simp [Value.isNode]
    rw [Value.preorder, Value.preorder, if_pos (hisNode ns), if_pos (hisNode ms), preorderAll_nodes,
      preorderAll_nodes]
    clear hall
    induction hnodes with
    | nil => exact .nil
    | @cons c k ns ms hck _ ih =>
      rw [List.forall_mem_cons] at hchildren
      exact List.rel_append (hchildren.1 false k hck) (ih hchildren.2)

theorem Node.Framed.preorder (h : Node.Framed T spot named n m)
    (hn : ∀ k ∈ n.preorder, k.Filled) :
    Forall₂ (fun x y => ∃ spot named, Node.Framed T spot named x y) n.preorder m.preorder := by
  induction n using Node.induction_children generalizing spot named m with
  | _ n ih =>
    have hfilled := hn n (by simp [n.preorder_eq])
    have hfields : Forall₂ (Forall₂ fun x y => ∃ spot named, Node.Framed T spot named x y)
        (n.fields.map Value.preorder) (m.fields.map Value.preorder) := by
      rw [← hfilled.map_get, ← (h.filled hfilled).map_get, h.kind_eq, List.map_map, List.map_map,
        List.forall₂_map_left_iff, List.forall₂_map_right_iff, List.forall₂_same]
      intro f _
      refine (h.field f).preorder fun c hc named k hck => ?_
      have hbelow := Node.preorder_subset n (Node.mem_preorder_of_mem_children hc)
      exact ih f c hc hck fun k hk => hn k (hbelow hk)
    rw [n.preorder_eq, m.preorder_eq, Value.preorderAll_eq_flatMap, Value.preorderAll_eq_flatMap]
    refine .cons ⟨spot, named, h⟩ ?_
    exact List.rel_flatten hfields

theorem forall₂_preorder_of_framed {unit unit' : List Node}
    (h : Forall₂ (Node.Framed T spot named) unit unit') (hu : ∀ n ∈ preorder unit, n.Filled) :
    Forall₂ (fun x y => ∃ spot named, Node.Framed T spot named x y) (preorder unit)
      (preorder unit') := by
  induction h with
  | nil => exact .nil
  | cons hnm _ ih =>
    rw [preorder, List.flatMap_cons, List.forall_mem_append] at hu
    exact List.rel_append (hnm.preorder hu.1) (ih hu.2)

theorem Value.Framed.depth_le {p : Prop} {v u : Value} (h : Value.Framed T p spot named v u)
    (hchildren : ∀ c ∈ v.children, ∀ named k, Node.Framed T spot named c k → k.depth ≤ c.depth) :
    u.depth ≤ v.depth := by
  cases h with
  | touched _ => simp [Value.depth]
  | same _ => exact le_rfl
  | @node _ _ _ n m hn =>
    rw [Value.depth, Value.depth]
    exact hchildren n (by simp [Value.children]) named m hn
  | nodes hall =>
    obtain ⟨ns, ms, rfl, rfl, hnodes⟩ := Value.framedAll_iff.mp hall
    rw [Value.children_nodes] at hchildren
    rw [Value.depth, Value.depth]
    apply Value.depthAll_le
    intro w hw
    obtain ⟨m, hm, rfl⟩ := List.mem_map.mp hw
    obtain ⟨n, hn, hnm⟩ := mem_of_forall₂_right hnodes hm
    calc (Value.node m).depth = m.depth := by rw [Value.depth]
      _ ≤ n.depth := hchildren n hn false m hnm
      _ = (Value.node n).depth := by rw [Value.depth]
      _ ≤ Value.depthAll (ns.map .node) := Value.depth_le_depthAll (List.mem_map_of_mem hn)

theorem Node.Framed.depth_le (h : Node.Framed T spot named n m)
    (hn : ∀ n' ∈ n.preorder, n'.Filled) : m.depth ≤ n.depth := by
  induction n using Node.induction_children generalizing spot named m with
  | _ n ih =>
    rw [m.depth_eq, n.depth_eq]
    refine Nat.succ_le_succ (Value.depthAll_le fun u hu => ?_)
    obtain ⟨f, rfl⟩ := (h.filled (hn n (by simp [n.preorder_eq]))).exists_get hu
    refine ((h.field f).depth_le fun c hc named k hk => ?_).trans (n.get_depth_le f)
    have hbelow := Node.preorder_subset n (Node.mem_preorder_of_mem_children hc)
    exact ih f c hc hk fun n' hn' => hn n' (hbelow hn')

theorem depth_le_of_framed {unit unit' : List Node}
    (h : Forall₂ (Node.Framed T spot named) unit unit') (hu : ∀ n ∈ preorder unit, n.Filled) :
    depth unit' ≤ depth unit := by
  induction h with
  | nil => exact le_rfl
  | cons hn _ ih =>
    rw [preorder, List.flatMap_cons, List.forall_mem_append] at hu
    exact max_le_max (hn.depth_le hu.1) (ih hu.2)

theorem exists_mem_of_framed {unit unit' : List Node}
    (h : Forall₂ (Node.Framed T spot named) unit unit') (hu : ∀ n ∈ preorder unit, n.Filled)
    {k : Node} (hk : k ∈ preorder unit') :
    ∃ n ∈ preorder unit, ∃ spot' named', Node.Framed T spot' named' n k :=
  mem_of_forall₂_right (forall₂_preorder_of_framed h hu) hk

theorem Value.Framed.trans {p p' p'' : Prop} (hp : p ∨ p' → p'') {v u w : Value}
    (hchildren : ∀ n ∈ v.children, ∀ named m k, Node.Framed T spot named n m →
      Node.Framed T' spot named m k → Node.Framed T'' spot named n k)
    (h : Value.Framed T p spot named v u) (h' : Value.Framed T' p' spot named u w) :
    Value.Framed T'' p'' spot named v w := by
  cases h with
  | touched hp₁ =>
    cases h' with
    | touched hp₂ => exact .touched (hp (Or.inl hp₁))
    | same _ => exact .touched (hp (Or.inl hp₁))
  | same hv =>
    cases h' with
    | touched hp₂ => exact .touched (hp (Or.inr hp₂))
    | same _ => exact .same hv
    | node _ => simp [Value.children] at hv
    | nodes hall =>
      obtain ⟨ns, ms, rfl, rfl, hnodes⟩ := Value.framedAll_iff.mp hall
      obtain rfl : ns = [] := by simpa using hv
      cases hnodes
      exact .same hv
  | @node _ _ _ n m hn =>
    cases h' with
    | same hu => simp [Value.children] at hu
    | node hm => exact .node (hchildren n (by simp [Value.children]) named m _ hn hm)
  | nodes hall =>
    obtain ⟨ns, ms, rfl, rfl, hnodes⟩ := Value.framedAll_iff.mp hall
    rw [Value.children_nodes] at hchildren
    cases h' with
    | same hu =>
      obtain rfl : ms = [] := by simpa using hu
      cases hnodes
      exact .same rfl
    | nodes hall' =>
      obtain ⟨ms', ks, heq, rfl, hnodes'⟩ := Value.framedAll_iff.mp hall'
      obtain rfl : ms = ms' := List.map_injective_iff.mpr (fun _ _ => Value.node.inj) heq
      refine .nodes (Value.framedAll_iff.mpr ⟨ns, ks, rfl, rfl, ?_⟩)
      exact forall₂_trans_of_mem (fun n hn m k => hchildren n hn false m k) hnodes hnodes'

/-- Two changes of a tree, one after the other, touch what either of them touches. -/
theorem Node.Framed.trans (hflags : ∀ spot named n m, ¬ T spot named n m .flags)
    (hT : ∀ {spot named n m k}, Node.Framed T spot named n m → Node.Framed T' spot named m k →
      ∀ f, T spot named n m f ∨ T' spot named m k f → T'' spot named n k f)
    (h : Node.Framed T spot named n m) (h' : Node.Framed T' spot named m k) :
    Node.Framed T'' spot named n k := by
  induction n using Node.induction_children generalizing spot named m k with
  | _ n ih =>
    have hunder := h.under (hflags spot named n m) spot
    refine .mk (h'.kind_eq.trans h.kind_eq) (h'.share_eq.trans h.share_eq)
      (h'.length_eq.trans h.length_eq) fun f => ?_
    have hf := h'.field f
    rw [hunder, h.kind_eq] at hf
    exact (h.field f).trans (hT h h' f) (fun c hc _ _ _ hcm hmk => ih f c hc hcm hmk) hf

end Framed

end PropertyRenaming
