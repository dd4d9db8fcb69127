import PropertyRenaming.Proofs.Rewrite

namespace PropertyRenaming

/-- A declared item that is to be renamed: its class and its name. -/
def Site.declared? (x : Site) : Option (ClassId × Atom) :=
  match x.node.kind, x.spot.listed, x.spot.owner, x.node.get .name with
  | .propertyItem, some true, some owner, .atom name => some (owner, name)
  | _, _, _, _ => none

theorem Site.declared?_eq_some_iff {x : Site} {owner : ClassId} {name : Atom} :
    x.declared? = some (owner, name) ↔ x.node.kind = .propertyItem ∧ x.spot.listed = some true ∧
      x.spot.owner = some owner ∧ x.node.get .name = .atom name := by
  unfold Site.declared?
  split
  · rename_i o a hk hl ho hn
    simp [hk, hl, ho, hn]
  · rename_i h
    simp only [reduceCtorEq, false_iff]
    rintro ⟨hk, hl, ho, hn⟩
    exact h owner name hk hl ho hn

theorem Site.declared?_eq_none {x : Site} (h : x.node.kind ≠ .propertyItem ∨
    x.spot.listed ≠ some true ∨ x.spot.owner = none) : x.declared? = none := by
  rw [Option.eq_none_iff_forall_ne_some]
  rintro ⟨owner, name⟩ hx
  obtain ⟨hk, hl, ho, -⟩ := declared?_eq_some_iff.mp hx
  simp [hk, hl, ho] at h

def itemRewriting (new : ClassId → Atom → Option Atom) : Rewriting := fun x =>
  x.declared?.bind fun e => new e.1 e.2

theorem Node.WellFormed.item_name {n : Node} (hn : n.WellFormed) (hk : n.kind = .propertyItem) :
    ∃ t, n.get .name = .str t := by
  have hname := hn.admits .name
  rw [hk] at hname
  exact Content.admits_text_iff.mp hname

namespace Declarations

def answer (new : ClassId → Atom → Option Atom) : Request → Option Atom
  | .item owner name _ => new owner name
  | .bad _ => none

variable {new : ClassId → Atom → Option Atom}

def Idle (spot : Spot) : Prop := spot.listed ≠ some true ∨ spot.owner = none

theorem declared?_of_idle {spot : Spot} (h : Idle spot) (n : Node) :
    (⟨spot, n⟩ : Site).declared? = none := Site.declared?_eq_none (Or.inr h)

theorem itemRewriting_of_idle {spot : Spot} (h : Idle spot) (n : Node) :
    itemRewriting new ⟨spot, n⟩ = none := by
  rw [itemRewriting, declared?_of_idle h, Option.bind_none]

theorem rewrite_of_idle {spot spot' : Spot} (h : Idle spot) (h' : Idle spot')
    (ho : spot.owner = spot'.owner) (v : Value) :
    v.rewrite (itemRewriting new) spot = v.rewrite (itemRewriting new) spot' := by
  have hnode : ∀ n : Node, n.rewrite (itemRewriting new) spot =
      n.rewrite (itemRewriting new) spot' := by
    intro n
    rw [Node.rewrite_eq, Node.rewrite_eq, itemRewriting_of_idle h, itemRewriting_of_idle h']
    simp only [Spot.under, ho]
  have hall : ∀ vs : List Value, vs.all Value.isNode = true →
      vs.map (Value.rewrite (itemRewriting new) spot) =
        vs.map (Value.rewrite (itemRewriting new) spot') := by
    intro vs hvs
    refine List.map_congr_left fun v hv => ?_
    have hv' := List.all_eq_true.mp hvs v hv
    cases v with
    | node n => rw [Value.rewrite, Value.rewrite, hnode]
    | _ => simp [Value.isNode] at hv'
  cases v with
  | node n => rw [Value.rewrite, Value.rewrite, hnode]
  | list vs =>
    rw [Value.rewrite, Value.rewrite]
    split
    · rename_i hvs
      rw [Value.rewriteAll_eq_map, Value.rewriteAll_eq_map, hall vs hvs]
    · rfl
  | _ => simp [Value.rewrite]

theorem renameOwn_nil {n : Node} (hn : n.Filled) : renameOwn [] n = n := by
  unfold renameOwn
  split
  · rename_i items h
    have hitems : renameItems [] items = items := by cases items <;> rfl
    rw [hitems, ← h, hn.set_get_self]
  · rfl

theorem itemRewriting_item {o : ClassId} {m : Node} (hk : m.kind = .propertyItem) {t : String}
    (hname : m.get .name = .str t) :
    itemRewriting new ⟨⟨some o, some true⟩, m⟩ = new o (.text t) := by
  simp [itemRewriting, Site.declared?, hk, hname]

theorem exists_item {v : Value} (hv : Content.isItem v = true)
    (hwf : ∀ m ∈ v.preorder, m.WellFormed) :
    ∃ (m : Node) (t : String),
      v = .node m ∧ m.WellFormed ∧ m.kind = .propertyItem ∧ m.get .name = .str t := by
  cases v with
  | node m =>
    have hk : m.kind = .propertyItem := by simpa [Content.isItem] using hv
    have hm := hwf m (by simp [Value.preorder, Node.preorder_eq])
    obtain ⟨t, hname⟩ := hm.item_name hk
    exact ⟨m, t, rfl, hm, hk, hname⟩
  | _ => simp [Content.isItem] at hv

theorem renameItems_eq (new : ClassId → Atom → Option Atom) (o : ClassId) {items : List Value}
    (hitems : items.all Content.isItem = true)
    (hwf : ∀ m ∈ Value.preorderAll items, m.WellFormed) :
    renameItems (((items.map itemName).map (Request.ofName o)).map (answer new))
        (items.map (Value.rewrite (itemRewriting new) ⟨some o, none⟩)) =
      items.map (Value.rewrite (itemRewriting new) ⟨some o, some true⟩) := by
  induction items with
  | nil => rfl
  | cons v items ih =>
    simp only [List.all_cons, Bool.and_eq_true] at hitems
    rw [Value.preorderAll, List.forall_mem_append] at hwf
    have hrest := ih hitems.2 hwf.2
    obtain ⟨m, t, rfl, -, hk, hname⟩ := exists_item hitems.1 hwf.1
    have hhas : m.has .name = true := by simp [Node.has, hk, Kind.fields]
    have hidle : itemRewriting new ⟨⟨some o, none⟩, m⟩ = none :=
      itemRewriting_of_idle (Or.inl (by simp)) m
    have hbelow : m.rewrite (itemRewriting new) ⟨some o, some true⟩ =
        (m.rewrite (itemRewriting new) ⟨some o, none⟩).named (new o (.text t)) := by
      rw [Node.rewrite_eq, Node.rewrite_eq, hidle, itemRewriting_item hk hname]
      rfl
    simp only [List.map_cons, Value.rewrite, itemName, hhas, if_true, hname, Value.asName,
      Request.ofName, answer, hbelow]
    cases new o (.text t) with
    | none =>
      rw [renameItems, hrest]
      · rfl
      · simp
    | some a =>
      rw [renameItems, hrest]
      rfl

theorem fields_decl {n : Node} (hn : n.WellFormed) (hk : n.kind = .propertyDecl) :
    ∃ flags items, n.fields = [.int flags, .list items] ∧ items.all Content.isItem = true := by
  have hlen : n.fields.length = 2 := by rw [hn.filled, hk]; rfl
  obtain ⟨v, u, hf⟩ := List.length_eq_two.mp hlen
  have hflags := hn.admits .flags
  have hprops := hn.admits .props
  simp only [Node.get, hk, hf] at hflags hprops
  change Content.number.admits v = true at hflags
  change Content.items.admits u = true at hprops
  unfold Content.admits at hflags hprops
  split at hflags <;> simp_all
  split at hprops <;> simp_all

theorem isPrivate_decl {n : Node} (hk : n.kind = .propertyDecl) {flags : Int} {v : Value}
    (hf : n.fields = [.int flags, v]) : isPrivate n = .ok (isPrivateFlags flags) := by
  have hget : n.get .flags = .int flags := by
    simp only [Node.get, hk, hf]
    rfl
  simp [isPrivate, hget]

theorem get_props_decl {n : Node} (hk : n.kind = .propertyDecl) {u v : Value}
    (hf : n.fields = [u, v]) : n.get .props = v := by
  simp only [Node.get, hk, hf]
  rfl

theorem all_isNode_of_isItem {items : List Value} (h : items.all Content.isItem = true) :
    items.all Value.isNode = true := by
  rw [List.all_eq_true] at h ⊢
  intro v hv
  have hitem := h v hv
  cases v with
  | node n => rfl
  | _ => simp [Content.isItem] at hitem

/-- Either a node asks for nothing and lists no item to be renamed, or it is a private declaration
inside a class and asks for all its items. -/
theorem ownRequests_cases {n : Node} (hn : n.WellFormed) (owner : Option ClassId) :
    ownRequests owner n = [] ∧ Idle (Spot.under ⟨owner, none⟩ n) ∨
      ∃ o flags items, owner = some o ∧ n.kind = .propertyDecl ∧
        n.fields = [.int flags, .list items] ∧ items.all Content.isItem = true ∧
        ownRequests owner n = (items.map itemName).map (Request.ofName o) ∧
        Spot.under ⟨owner, none⟩ n = ⟨some o, some true⟩ := by
  by_cases hk : n.kind = .propertyDecl
  · obtain ⟨flags, items, hf, hitems⟩ := fields_decl hn hk
    have hprivate := isPrivate_decl hk hf
    cases hp : isPrivateFlags flags with
    | false =>
      refine Or.inl ⟨by simp [ownRequests, hk, hprivate, hp], Or.inl ?_⟩
      simp [Spot.under, hk, hprivate, hp, Except.toOption]
    | true =>
      cases owner with
      | none =>
        refine Or.inl ⟨by simp [ownRequests, hk, hprivate, hp], Or.inr ?_⟩
        simp [Spot.under, inside, hk, Kind.classId?]
      | some o =>
        refine Or.inr ⟨o, flags, items, rfl, hk, hf, hitems, ?_, ?_⟩
        · simp [ownRequests, hk, hprivate, hp, get_props_decl hk hf, itemNames]
        · simp [Spot.under, hk, hprivate, hp, Except.toOption, inside, Kind.classId?]
  · refine Or.inl ⟨by simp [ownRequests, hk], Or.inl ?_⟩
    simp [Spot.under, hk]

/-- A node takes its own names after what is below it has been rewritten. -/
theorem renameOwn_eq (new : ClassId → Atom → Option Atom) {n : Node} (hn : n.WellFormed)
    (hwf : ∀ m ∈ Value.preorderAll n.fields, m.WellFormed) (owner : Option ClassId) :
    renameOwn ((ownRequests owner n).map (answer new)) ⟨n.kind, n.place,
        n.fields.map (Value.rewrite (itemRewriting new) ⟨inside owner n.kind, none⟩)⟩ =
      n.rewrite (itemRewriting new) ⟨owner, none⟩ := by
  rw [Node.rewrite_eq, itemRewriting_of_idle (Or.inl (by simp))]
  rcases ownRequests_cases hn owner with
    ⟨hown, hspot⟩ | ⟨o, flags, items, rfl, hk, hf, hitems, hown, hspot⟩
  · rw [hown, List.map_nil, renameOwn_nil (hn.filled.refill n.place (List.length_map ..))]
    simp only [Node.named, Node.mk.injEq, true_and]
    have hidle : Idle ⟨inside owner n.kind, none⟩ := Or.inl (by simp)
    exact List.map_congr_left fun v _ => rewrite_of_idle hidle hspot rfl v
  · have hall : items.all Value.isNode = true := all_isNode_of_isItem hitems
    have hinside : inside (some o) n.kind = some o := by simp [inside, hk, Kind.classId?]
    have hlist : ∀ spot, n.fields.map (Value.rewrite (itemRewriting new) spot) =
        [.int flags, .list (items.map (Value.rewrite (itemRewriting new) spot))] := by
      intro spot
      rw [hf, List.map_cons, List.map_cons, List.map_nil, Value.rewrite_atom, Value.rewrite,
        if_pos hall, Value.rewriteAll_eq_map]
    have hrename := renameItems_eq new o hitems fun m hm => hwf m (by
      simp only [hf, Value.preorderAll, Value.preorder, if_pos hall]
      simpa using hm)
    rw [hown, hinside, hspot, hlist, hlist, ← hrename, hk]
    rfl

mutual

theorem nodeRename_eq (owner : Option ClassId) (rest : List (Option Atom)) : (n : Node) →
    (∀ m ∈ n.preorder, m.WellFormed) →
    nodeRename owner ((nodeRequests owner n).map (answer new) ++ rest) n =
      (n.rewrite (itemRewriting new) ⟨owner, none⟩, rest)
  | ⟨kind, place, fields⟩, hn => by
    obtain ⟨n, hdef⟩ : ∃ n : Node, n = ⟨kind, place, fields⟩ := ⟨_, rfl⟩
    have hwf : n.WellFormed := hdef ▸ hn _ (by simp [Node.preorder])
    have hfields : ∀ m ∈ Value.preorderAll fields, m.WellFormed := fun m hm =>
      hn m (by simp [Node.preorder, hm])
    have hshare : place.share = none := by simpa [hdef] using hwf.unshared
    have hown := renameOwn_eq new hwf (by simpa [hdef] using hfields) owner
    have hbelow := fieldRename_eq (inside owner kind) rest fields hfields
    rw [hdef] at hown
    rw [nodeRename, nodeRequests, hshare, sharedRequests]
    simp only [List.map_append, List.append_assoc]
    rw [List.drop_left' (by simp), List.take_left' (by simp), hbelow]
    exact Prod.ext hown rfl

theorem valueRename_eq (owner : Option ClassId) (rest : List (Option Atom)) : (v : Value) →
    (∀ m ∈ v.preorder, m.WellFormed) →
    valueRename owner ((valueRequests owner v).map (answer new) ++ rest) v =
      (v.rewrite (itemRewriting new) ⟨owner, none⟩, rest)
  | .node n, hv => by
    rw [Value.preorder] at hv
    rw [valueRename, valueRequests, nodeRename_eq owner rest n hv, Value.rewrite]
  | .list vs, hv => by
    rw [Value.preorder] at hv
    rw [valueRename, valueRequests, Value.rewrite]
    by_cases hall : vs.all Value.isNode
    · simp only [if_pos hall] at hv ⊢
      rw [fieldRename_eq owner rest vs hv, Value.rewriteAll_eq_map]
    · simp [hall]
  | .atom _, _ | .object, _ => by simp [valueRename, valueRequests, Value.rewrite]

theorem fieldRename_eq (owner : Option ClassId) (rest : List (Option Atom)) : (vs : List Value) →
    (∀ m ∈ Value.preorderAll vs, m.WellFormed) →
    fieldRename owner ((fieldRequests owner vs).map (answer new) ++ rest) vs =
      (vs.map (Value.rewrite (itemRewriting new) ⟨owner, none⟩), rest)
  | [], _ => by simp [fieldRename, fieldRequests]
  | v :: vs, hvs => by
    rw [Value.preorderAll] at hvs
    rw [fieldRename, fieldRequests, List.map_append, List.append_assoc,
      valueRename_eq owner _ v fun m hm => hvs m (List.mem_append_left _ hm)]
    simp only [fieldRename_eq owner rest vs fun m hm => hvs m (List.mem_append_right _ hm)]
    rfl

end

theorem length_sharedRequests (share : Option ShareId) (qs : List Request) :
    (sharedRequests share qs).length = qs.length := by
  cases share <;> simp [sharedRequests]

mutual

theorem snd_nodeRename (owner : Option ClassId) (names : List (Option Atom)) : (n : Node) →
    (nodeRename owner names n).2 = names.drop (nodeRequests owner n).length
  | ⟨kind, place, fields⟩ => by
    rw [nodeRename, nodeRequests, length_sharedRequests, List.length_append, ← List.drop_drop]
    exact snd_fieldRename (inside owner kind) _ fields

theorem snd_valueRename (owner : Option ClassId) (names : List (Option Atom)) : (v : Value) →
    (valueRename owner names v).2 = names.drop (valueRequests owner v).length
  | .node n => by
    rw [valueRename, valueRequests]
    exact snd_nodeRename owner names n
  | .list vs => by
    rw [valueRename, valueRequests]
    split
    · exact snd_fieldRename owner names vs
    · rfl
  | .atom _ | .object => by simp [valueRename, valueRequests]

theorem snd_fieldRename (owner : Option ClassId) (names : List (Option Atom)) :
    (vs : List Value) → (fieldRename owner names vs).2 = names.drop (fieldRequests owner vs).length
  | [] => by simp [fieldRename, fieldRequests]
  | v :: vs => by
    rw [fieldRename, fieldRequests, List.length_append, ← List.drop_drop, ← snd_valueRename]
    exact snd_fieldRename owner _ vs

end
def itemsBelow (spot : Spot) (vs : List Value) : List (ClassId × Atom) :=
  (Value.sitesAll spot vs).filterMap Site.declared?

theorem itemsBelow_cons (spot : Spot) (v : Value) (vs : List Value) :
    itemsBelow spot (v :: vs) = (v.sites spot).filterMap Site.declared? ++ itemsBelow spot vs := by
  simp [itemsBelow, Value.sitesAll]

theorem filterMap_declared?_node {spot : Spot} {n : Node}
    (h : (⟨spot, n⟩ : Site).declared? = none) :
    (n.sites spot).filterMap Site.declared? = itemsBelow (spot.under n) n.fields := by
  rw [Node.sites_eq, List.filterMap_cons_none h, itemsBelow]

theorem itemsBelow_of_idle {spot spot' : Spot} (h : Idle spot) (h' : Idle spot')
    (ho : spot.owner = spot'.owner) (vs : List Value) :
    itemsBelow spot vs = itemsBelow spot' vs := by
  have hnode : ∀ n : Node, (n.sites spot).filterMap Site.declared? =
      (n.sites spot').filterMap Site.declared? := by
    intro n
    rw [filterMap_declared?_node (declared?_of_idle h n),
      filterMap_declared?_node (declared?_of_idle h' n)]
    simp only [Spot.under, ho]
  have hnodes : ∀ us : List Value, us.all Value.isNode = true →
      itemsBelow spot us = itemsBelow spot' us := by
    intro us hus
    induction us with
    | nil => rfl
    | cons u us ih =>
      simp only [List.all_cons, Bool.and_eq_true] at hus
      rw [itemsBelow_cons, itemsBelow_cons, ih hus.2]
      cases u with
      | node n => rw [Value.sites, Value.sites, hnode]
      | _ => simp [Value.isNode] at hus
  induction vs with
  | nil => rfl
  | cons v vs ih =>
    rw [itemsBelow_cons, itemsBelow_cons, ih]
    cases v with
    | node n => rw [Value.sites, Value.sites, hnode]
    | list us =>
      rw [Value.sites, Value.sites]
      split
      · rename_i hus
        exact congrArg (· ++ _) (hnodes us hus)
      · rfl
    | _ => simp [Value.sites]

def requestFor (e : ClassId × Atom) : Request := .item e.1 e.2 none

theorem mem_itemsBelow_items {o : ClassId} {items : List Value}
    (hitems : items.all Content.isItem = true)
    (hwf : ∀ m ∈ Value.preorderAll items, m.WellFormed) (q : Request) :
    q ∈ (itemsBelow ⟨some o, some true⟩ items).map requestFor ↔
      q ∈ (items.map itemName).map (Request.ofName o) ∨
        q ∈ (itemsBelow ⟨some o, none⟩ items).map requestFor := by
  induction items with
  | nil => simp [itemsBelow, Value.sitesAll]
  | cons v items ih =>
    simp only [List.all_cons, Bool.and_eq_true] at hitems
    rw [Value.preorderAll, List.forall_mem_append] at hwf
    have hrest := ih hitems.2 hwf.2
    obtain ⟨m, t, rfl, -, hk, hname⟩ := exists_item hitems.1 hwf.1
    have hdeclared : (⟨⟨some o, some true⟩, m⟩ : Site).declared? = some (o, .text t) := by
      simp [Site.declared?, hk, hname]
    have hasked : Request.ofName o (itemName (.node m)) = requestFor (o, .text t) := by
      simp [itemName, Node.has, hk, Kind.fields, hname, Value.asName, Request.ofName, requestFor]
    have hunder : Spot.under ⟨some o, some true⟩ m = Spot.under ⟨some o, none⟩ m := rfl
    rw [itemsBelow_cons, itemsBelow_cons, Value.sites, Value.sites, Node.sites_eq,
      List.filterMap_cons_some hdeclared,
      filterMap_declared?_node (declared?_of_idle (Or.inl (by simp)) m), hunder]
    simp only [List.cons_append, List.mem_cons, List.mem_append, List.map_cons, List.map_append,
      hasked, hrest]
    unfold itemsBelow
    tauto

theorem mem_itemsBelow_node {n : Node} (hn : n.WellFormed)
    (hwf : ∀ m ∈ Value.preorderAll n.fields, m.WellFormed) (owner : Option ClassId) (q : Request) :
    q ∈ (itemsBelow (Spot.under ⟨owner, none⟩ n) n.fields).map requestFor ↔
      q ∈ ownRequests owner n ∨
        q ∈ (itemsBelow ⟨inside owner n.kind, none⟩ n.fields).map requestFor := by
  rcases ownRequests_cases hn owner with
    ⟨hown, hspot⟩ | ⟨o, flags, items, rfl, hk, hf, hitems, hown, hspot⟩
  · have hidle : Idle ⟨inside owner n.kind, none⟩ := Or.inl (by simp)
    rw [itemsBelow_of_idle hspot hidle rfl]
    simp [hown]
  · have hall : items.all Value.isNode = true := all_isNode_of_isItem hitems
    have hinside : inside (some o) n.kind = some o := by simp [inside, hk, Kind.classId?]
    have hlist : ∀ spot, itemsBelow spot n.fields = itemsBelow spot items := by
      intro spot
      simp only [hf, itemsBelow, Value.sitesAll, Value.sites, if_pos hall, List.nil_append,
        List.append_nil]
    rw [hown, hspot, hinside, hlist, hlist]
    refine mem_itemsBelow_items hitems (fun m hm => hwf m ?_) q
    simp only [hf, Value.preorderAll, Value.preorder, if_pos hall]
    simpa using hm

mutual

theorem mem_nodeRequests (owner : Option ClassId) (q : Request) : (n : Node) →
    (∀ m ∈ n.preorder, m.WellFormed) →
    (q ∈ nodeRequests owner n ↔
      q ∈ ((n.sites ⟨owner, none⟩).filterMap Site.declared?).map requestFor)
  | ⟨kind, place, fields⟩, hn => by
    obtain ⟨n, hdef⟩ : ∃ n : Node, n = ⟨kind, place, fields⟩ := ⟨_, rfl⟩
    have hwf : n.WellFormed := hdef ▸ hn _ (by simp [Node.preorder])
    have hfields : ∀ m ∈ Value.preorderAll fields, m.WellFormed := fun m hm =>
      hn m (by simp [Node.preorder, hm])
    have hshare : place.share = none := by simpa [hdef] using hwf.unshared
    have hown := mem_itemsBelow_node hwf (by simpa [hdef] using hfields) owner q
    have hbelow := mem_fieldRequests (inside owner kind) q fields hfields
    rw [hdef] at hown
    rw [nodeRequests, hshare, sharedRequests, List.mem_append, hbelow,
      filterMap_declared?_node (declared?_of_idle (Or.inl (by simp)) _), hown]

theorem mem_valueRequests (owner : Option ClassId) (q : Request) : (v : Value) →
    (∀ m ∈ v.preorder, m.WellFormed) →
    (q ∈ valueRequests owner v ↔
      q ∈ ((v.sites ⟨owner, none⟩).filterMap Site.declared?).map requestFor)
  | .node n, hv => by
    rw [Value.preorder] at hv
    rw [valueRequests, Value.sites, mem_nodeRequests owner q n hv]
  | .list vs, hv => by
    rw [Value.preorder] at hv
    rw [valueRequests, Value.sites]
    by_cases hall : vs.all Value.isNode
    · rw [if_pos hall] at hv ⊢
      rw [if_pos hall]
      exact mem_fieldRequests owner q vs hv
    · simp [hall]
  | .atom _, _ | .object, _ => by simp [valueRequests, Value.sites]

theorem mem_fieldRequests (owner : Option ClassId) (q : Request) : (vs : List Value) →
    (∀ m ∈ Value.preorderAll vs, m.WellFormed) →
    (q ∈ fieldRequests owner vs ↔ q ∈ (itemsBelow ⟨owner, none⟩ vs).map requestFor)
  | [], _ => by simp [fieldRequests, itemsBelow, Value.sitesAll]
  | v :: vs, hvs => by
    rw [Value.preorderAll] at hvs
    rw [fieldRequests, itemsBelow_cons, List.map_append, List.mem_append, List.mem_append,
      mem_valueRequests owner q v fun m hm => hvs m (List.mem_append_left _ hm),
      mem_fieldRequests owner q vs fun m hm => hvs m (List.mem_append_right _ hm)]

end

/-- What is asked for a unit are its declared items. -/
theorem mem_requests_iff {unit : List Node} (hu : WellFormed unit) {q : Request} :
    q ∈ requests unit ↔ ∃ x ∈ sites unit, ∃ e, x.declared? = some e ∧ q = requestFor e := by
  have hunit : q ∈ requests unit ↔
      q ∈ ((sites unit).filterMap Site.declared?).map requestFor := by
    simp only [requests, sites, List.filterMap_flatMap, List.map_flatMap, List.mem_flatMap]
    refine exists_congr fun n => and_congr_right fun hn => ?_
    exact mem_nodeRequests none q n fun m hm => hu m (List.mem_flatMap.mpr ⟨n, hn, hm⟩)
  rw [hunit]
  simp only [List.mem_map, List.mem_filterMap]
  constructor
  · rintro ⟨e, ⟨x, hx, he⟩, rfl⟩
    exact ⟨x, hx, e, he, rfl⟩
  · rintro ⟨x, hx, e, he, rfl⟩
    exact ⟨e, ⟨x, hx, he⟩, rfl⟩

/-- Putting back names that depend on class and name only rewrites the unit. -/
theorem rename_eq {unit : List Node} (hu : WellFormed unit) :
    rename ((requests unit).map (answer new)) unit = rewriteUnit (itemRewriting new) unit := by
  induction unit with
  | nil => rfl
  | cons n unit ih =>
    have hn : ∀ m ∈ n.preorder, m.WellFormed := fun m hm => hu m (by simp [preorder, hm])
    have hunit : WellFormed unit := fun m hm => hu m (by
      rw [preorder, List.flatMap_cons]
      exact List.mem_append_right _ hm)
    have hrest := ih hunit
    rw [requests, List.flatMap_cons, List.map_append, rename, nodeRename_eq none _ n hn]
    simp only [rewriteUnit, List.map_cons]
    exact congrArg _ hrest

end Declarations

end PropertyRenaming
