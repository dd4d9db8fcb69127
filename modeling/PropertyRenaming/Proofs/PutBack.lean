import PropertyRenaming.Proofs.NewItems

namespace PropertyRenaming

open List (Forall₂)

/-- What a node is and where it stands. -/
def Node.standing (n : Node) : Kind × Place := (n.kind, n.place)

namespace Declarations

def Request.under : Option Atom → Request → Request
  | some new, .item owner _ slot => .item owner new slot
  | _, q => q

/-- The same requests under new names, from the left. -/
def relabelled : List (Option Atom) → List Request → List Request
  | name :: names, q :: qs => Request.under name q :: relabelled names qs
  | _, qs => qs

section Relabelled

variable (names : List (Option Atom)) (qs rs : List Request)

@[simp] theorem relabelled_nil : relabelled names [] = [] := by
  cases names <;> rfl

@[simp] theorem relabelled_nil_left : relabelled [] qs = qs := by
  cases qs <;> rfl

theorem relabelled_append :
    relabelled names (qs ++ rs) = relabelled names qs ++ relabelled (names.drop qs.length) rs := by
  induction qs generalizing names with
  | nil => simp
  | cons q qs ih =>
    cases names with
    | nil => simp
    | cons name names => simp [relabelled, ih]

theorem relabelled_take : relabelled (names.take qs.length) qs = relabelled names qs := by
  induction qs generalizing names with
  | nil => simp
  | cons q qs ih =>
    cases names with
    | nil => simp
    | cons name names => simp [relabelled, ih]

end Relabelled

theorem spares_any (qs : List Request) (names : List (Option Atom)) :
    Spares [] (fun _ => True) qs names := by
  intro e _ new _
  refine ⟨?_, trivial⟩
  cases e.1 <;> simp [Request.isIgnored, Atom.isIn]

section Items

variable {items : List Value} {names : List (Option Atom)}

/-- What does not depend on the name of an item does not depend on the names put on items. -/
theorem flatMap_renameItems {α : Type} {g : Value → List α}
    (hg : ∀ n : Node, n.kind = .propertyItem → n.Filled → ∀ a, n.get .name = .atom a → ∀ b,
      g (.node (n.set .name (.atom b))) = g (.node n))
    (hitems : ∀ v ∈ items, IsNamedItem v) (names : List (Option Atom)) :
    (renameItems names items).flatMap g = items.flatMap g := by
  induction items generalizing names with
  | nil =>
    cases names with
    | nil => rfl
    | cons name names => cases name <;> rfl
  | cons v items ih =>
    rw [List.forall_mem_cons] at hitems
    obtain ⟨⟨n, rfl, hk, hn, a, hname⟩, hrest⟩ := hitems
    cases names with
    | nil => rfl
    | cons name names =>
      cases name with
      | none => simp only [renameItems, List.flatMap_cons, ih hrest]
      | some b => simp only [renameItems, List.flatMap_cons, ih hrest, hg n hk hn a hname b]

theorem itemName_of_isNamedItem {n : Node} (hk : n.kind = .propertyItem) {a : Atom}
    (hname : n.get .name = .atom a) : itemName (.node n) = .ok a := by
  simp [itemName, Node.has, hk, Kind.fields, hname, Value.asName]

theorem itemNames_renameItems (hitems : ∀ v ∈ items, IsNamedItem v) (owner : ClassId)
    (names : List (Option Atom)) :
    ((renameItems names items).map itemName).map (Request.ofName owner) =
      relabelled names ((items.map itemName).map (Request.ofName owner)) := by
  induction items generalizing names with
  | nil =>
    cases names with
    | nil => rfl
    | cons name names => cases name <;> rfl
  | cons v items ih =>
    rw [List.forall_mem_cons] at hitems
    obtain ⟨⟨n, rfl, hk, hn, a, hname⟩, hrest⟩ := hitems
    cases names with
    | nil => rfl
    | cons name names =>
      cases name with
      | none => simp only [renameItems, List.map_cons, relabelled, Request.under, ih hrest]
      | some b =>
        have hget : (n.set .name (.atom b)).get .name = .atom b :=
          hn.get_set_self (by simp [hk, Kind.fields]) _
        have hset := itemName_of_isNamedItem ((Node.kind_set n .name (.atom b)).trans hk) hget
        simp only [renameItems, List.map_cons, relabelled, hset, itemName_of_isNamedItem hk hname,
          Request.ofName, Request.under, ih hrest]

/-- While names are put back below the items of a declaration, the items keep theirs. -/
theorem isNamedItem_fieldRename (owner : Option ClassId) (names : List (Option Atom))
    (hitems : items.all Content.isItem = true)
    (hwf : ∀ m ∈ Value.preorderAll items, m.WellFormed) :
    (∀ u ∈ (fieldRename owner names items).1, IsNamedItem u) ∧
      (fieldRename owner names items).1.map itemName = items.map itemName := by
  have hframed := framed_fieldRename owner names items hwf ⟨owner, none⟩ rfl
    (spares_any (fieldRequests owner items) names)
  generalize (fieldRename owner names items).1 = items' at hframed
  -- The frame is taken with no declaration above, so the names of these items are out of its reach.
  induction hframed with
  | nil => exact ⟨by simp, rfl⟩
  | @cons v u items items' hv _ ih =>
    simp only [List.all_cons, Bool.and_eq_true] at hitems
    rw [Value.preorderAll, List.forall_mem_append] at hwf
    obtain ⟨hnamed, hsame⟩ := ih hitems.2 hwf.2
    obtain ⟨n, name, rfl, hn, hk, hname⟩ := exists_item hitems.1 hwf.1
    cases hv False false with
    | same hnone => simp [Value.children] at hnone
    | @node _ _ _ _ m hm =>
      have hk' : m.kind = .propertyItem := hm.kind_eq.trans hk
      have hname' := name_of_idle hm (Or.inl (by simp)) hname
      rw [List.forall_mem_cons, List.map_cons, List.map_cons, hsame,
        itemName_of_isNamedItem hk hname, itemName_of_isNamedItem hk' hname']
      exact ⟨⟨⟨m, rfl, hk', hm.filled hn.filled, _, hname'⟩, hnamed⟩, rfl⟩

end Items

theorem ownRequests_decl {kind : Kind} (hk : kind = .propertyDecl) (owner : Option ClassId)
    (place : Place) (flags : Int) (items : List Value) :
    ownRequests owner ⟨kind, place, [.int flags, .list items]⟩ =
      if isPrivateFlags flags then
        owner.toList.flatMap fun o => (items.map itemName).map (Request.ofName o)
      else [] := by
  have hprivate := isPrivate_decl (n := ⟨kind, place, [.int flags, .list items]⟩) hk rfl
  have hprops := get_props_decl (n := ⟨kind, place, [.int flags, .list items]⟩) hk rfl
  simp only [ownRequests, hk, if_true] at hprivate hprops ⊢
  rw [hprivate, hprops]
  cases isPrivateFlags flags <;> cases owner <;> simp [itemNames]

section Own

variable {n : Node} (hn : n.WellFormed)
  (hwf : ∀ m ∈ Value.preorderAll n.fields, m.WellFormed) (owner : Option ClassId)
  (rest : List (Option Atom))

include hn hwf

theorem exists_decl (hk : n.kind = .propertyDecl) :
    ∃ flags items items', n.fields = [.int flags, .list items] ∧
      (fieldRename owner rest n.fields).1 = [.int flags, .list items'] ∧
      (∀ v ∈ items', IsNamedItem v) ∧ items'.map itemName = items.map itemName ∧
      ∀ taken, renameOwn taken ⟨n.kind, n.place, [.int flags, .list items']⟩ =
        ⟨n.kind, n.place, [.int flags, .list (renameItems taken items')]⟩ := by
  obtain ⟨flags, items, hf, hitems⟩ := fields_decl hn hk
  have hall := all_isNode_of_isItem hitems
  have hbelow : ∀ m ∈ Value.preorderAll items, m.WellFormed := fun m hm => hwf m (by
    simpa [hf, Value.preorderAll, Value.preorder, hall] using hm)
  obtain ⟨hnamed, hsame⟩ := isNamedItem_fieldRename owner rest hitems hbelow
  refine ⟨flags, items, (fieldRename owner rest items).1, hf, ?_, hnamed, hsame, fun taken => ?_⟩
  · simp [hf, fieldRename, valueRename, hall]
  · rw [hk]
    rfl

variable (names : List (Option Atom))

theorem ownRequests_renameOwn :
    ownRequests owner (renameOwn (names.take (ownRequests owner n).length)
        ⟨n.kind, n.place, (fieldRename (inside owner n.kind) rest n.fields).1⟩) =
      relabelled names (ownRequests owner n) := by
  by_cases hk : n.kind = .propertyDecl
  · obtain ⟨flags, items, items', hf, hfields, hnamed, hsame, hrename⟩ :=
      exists_decl hn hwf (inside owner n.kind) rest hk
    have hown := ownRequests_decl hk owner n.place flags items
    rw [← hf, Node.eta] at hown
    rw [← relabelled_take, hfields, hrename, ownRequests_decl hk, hown]
    cases isPrivateFlags flags with
    | false => simp
    | true =>
      cases owner with
      | none => simp
      | some o => simpa [hsame] using itemNames_renameItems hnamed o _
  · have hnone : ∀ m : Node, m.kind = n.kind → ownRequests owner m = [] := by
      intro m hm
      simp [ownRequests, hm, hk]
    rw [hnone n rfl, relabelled_nil]
    -- Putting no names on a node keeps its kind, and with it the empty list of requests.
    apply hnone
    unfold renameOwn
    split
    · rw [Node.kind_set]
    · rfl

theorem flatMap_renameOwn {α : Type} {g : Value → List α} (hatom : ∀ a, g (.atom a) = [])
    (hlist : ∀ vs : List Value, vs.all Value.isNode = true → g (.list vs) = vs.flatMap g)
    (hg : ∀ n : Node, n.kind = .propertyItem → n.Filled → ∀ a, n.get .name = .atom a → ∀ b,
      g (.node (n.set .name (.atom b))) = g (.node n)) :
    (renameOwn (names.take (ownRequests owner n).length)
        ⟨n.kind, n.place, (fieldRename (inside owner n.kind) rest n.fields).1⟩).fields.flatMap g =
      (fieldRename (inside owner n.kind) rest n.fields).1.flatMap g := by
  by_cases hk : n.kind = .propertyDecl
  · obtain ⟨flags, items, items', -, hfields, hnamed, -, hrename⟩ :=
      exists_decl hn hwf (inside owner n.kind) rest hk
    have hall : items'.all Value.isNode = true := List.all_eq_true.mpr fun v hv => by
      obtain ⟨m, rfl, -⟩ := hnamed v hv
      rfl
    rw [hfields, hrename]
    simp only [List.flatMap_cons, hatom, List.flatMap_nil, List.nil_append, List.append_nil]
    rw [hlist _ hall, hlist _ ((all_isNode_renameItems ..).trans hall),
      flatMap_renameItems hg hnamed]
  -- A node that is no declaration asks for nothing itself, so nothing is put on it.
  · have hown : ownRequests owner n = [] := by simp [ownRequests, hk]
    have hlen : (fieldRename (inside owner n.kind) rest n.fields).1.length = n.fields.length :=
      (framed_fieldRename (inside owner n.kind) rest n.fields hwf ⟨inside owner n.kind, none⟩ rfl
        (spares_any (fieldRequests (inside owner n.kind) n.fields) rest)).length_eq.symm
    rw [hown, List.length_nil, List.take_zero, renameOwn_nil (hn.filled.refill n.place hlen)]

end Own

@[simp] theorem standing_renameOwn (names : List (Option Atom)) (n : Node) :
    (renameOwn names n).standing = n.standing := by
  unfold renameOwn
  split
  · simp [Node.standing]
  · rfl

mutual

theorem standing_nodeRename (owner : Option ClassId) (names : List (Option Atom)) : (n : Node) →
    (∀ m ∈ n.preorder, m.WellFormed) →
    (nodeRename owner names n).1.preorder.map Node.standing = n.preorder.map Node.standing
  | ⟨kind, place, fields⟩, hn => by
    rw [Node.preorder, List.forall_mem_cons] at hn
    have hbelow := standing_fieldRename (inside owner kind)
      (names.drop (ownRequests owner ⟨kind, place, fields⟩).length) fields hn.2
    have hown := flatMap_renameOwn (g := fun v => v.preorder.map Node.standing) hn.1 hn.2 owner
      (names.drop (ownRequests owner ⟨kind, place, fields⟩).length) names
      (by simp [Value.preorder])
      (fun vs hvs => by simp [Value.preorder, hvs, Value.preorderAll_eq_flatMap, List.map_flatMap])
      (fun n hk hn a hname b => by
        simp [Value.preorder, Node.preorder_eq, Node.preorderAll_set hn hname, Node.standing])
    rw [nodeRename, Node.preorder_eq, Node.preorder, List.map_cons, List.map_cons,
      standing_renameOwn, ← hbelow, Value.preorderAll_eq_flatMap, Value.preorderAll_eq_flatMap,
      List.map_flatMap, List.map_flatMap]
    exact congrArg _ hown

theorem standing_valueRename (owner : Option ClassId) (names : List (Option Atom)) : (v : Value) →
    (∀ m ∈ v.preorder, m.WellFormed) →
    (valueRename owner names v).1.preorder.map Node.standing = v.preorder.map Node.standing
  | .node n, hv => by
    rw [Value.preorder] at hv
    rw [valueRename, Value.preorder, Value.preorder]
    exact standing_nodeRename owner names n hv
  | .list vs, hv => by
    rw [Value.preorder] at hv
    rw [valueRename]
    by_cases hall : vs.all Value.isNode
    · rw [if_pos hall] at hv ⊢
      rw [Value.preorder, Value.preorder, all_isNode_fieldRename, if_pos hall, if_pos hall]
      exact standing_fieldRename owner names vs hv
    · rw [if_neg hall]
  | .atom _, _ | .object, _ => by simp [valueRename]

theorem standing_fieldRename (owner : Option ClassId) (names : List (Option Atom)) :
    (vs : List Value) → (∀ m ∈ Value.preorderAll vs, m.WellFormed) →
    (Value.preorderAll (fieldRename owner names vs).1).map Node.standing =
      (Value.preorderAll vs).map Node.standing
  | [], _ => by simp [fieldRename]
  | v :: vs, hvs => by
    rw [Value.preorderAll, List.forall_mem_append] at hvs
    rw [fieldRename, Value.preorderAll, Value.preorderAll, List.map_append, List.map_append,
      standing_valueRename owner names v hvs.1, standing_fieldRename owner _ vs hvs.2]

end

/-- Putting names back leaves all nodes where they are. -/
theorem standing_rename {unit : List Node} (hu : WellFormed unit) (names : List (Option Atom)) :
    (preorder (rename names unit)).map Node.standing = (preorder unit).map Node.standing := by
  induction unit generalizing names with
  | nil => rfl
  | cons n unit ih =>
    rw [WellFormed, preorder, List.flatMap_cons, List.forall_mem_append] at hu
    rw [rename, preorder, preorder, List.flatMap_cons, List.flatMap_cons, List.map_append,
      List.map_append, standing_nodeRename none names n hu.1]
    exact congrArg _ (ih hu.2 _)

theorem nodeRequests_node (owner : Option ClassId) (n : Node) :
    nodeRequests owner n = sharedRequests n.place.share
      (ownRequests owner n ++ fieldRequests (inside owner n.kind) n.fields) := by
  obtain ⟨kind, place, fields⟩ := n
  rw [nodeRequests]

theorem nodeRequests_set_name (owner : Option ClassId) {n : Node} (hk : n.kind = .propertyItem)
    (hn : n.Filled) {a : Atom} (hname : n.get .name = .atom a) (b : Atom) :
    nodeRequests owner (n.set .name (.atom b)) = nodeRequests owner n := by
  have hown : ∀ m : Node, m.kind = .propertyItem → ownRequests owner m = [] := by
    intro m hm
    simp [ownRequests, hm]
  have hfields : fieldRequests (inside owner n.kind) (n.set .name (.atom b)).fields =
      fieldRequests (inside owner n.kind) n.fields := by
    rw [fieldRequests_eq_flatMap, fieldRequests_eq_flatMap]
    refine (List.forall₂_eq_eq_eq ▸ Node.flatMap_set (R := Eq) (fun _ => rfl) hn ?_).symm
    rw [hname]
    simp [valueRequests]
  rw [nodeRequests_node, nodeRequests_node, hown n hk, hown _ (by rw [Node.kind_set, hk]),
    Node.kind_set, Node.place_set, hfields]

mutual

theorem nodeRequests_nodeRename (owner : Option ClassId) (names : List (Option Atom)) :
    (n : Node) → (∀ m ∈ n.preorder, m.WellFormed) →
    nodeRequests owner (nodeRename owner names n).1 = relabelled names (nodeRequests owner n)
  | ⟨kind, place, fields⟩, hn => by
    rw [Node.preorder, List.forall_mem_cons] at hn
    -- The names are cut after what the node asks for itself, and its fields get the rest.
    have hbelow := fieldRequests_fieldRename (inside owner kind)
      (names.drop (ownRequests owner ⟨kind, place, fields⟩).length) fields hn.2
    have hown := ownRequests_renameOwn hn.1 hn.2 owner
      (names.drop (ownRequests owner ⟨kind, place, fields⟩).length) names
    have hkept := flatMap_renameOwn (g := valueRequests (inside owner kind)) hn.1 hn.2 owner
      (names.drop (ownRequests owner ⟨kind, place, fields⟩).length) names
      (by simp [valueRequests])
      (fun vs hvs => by rw [valueRequests, if_pos hvs, fieldRequests_eq_flatMap])
      (fun n hk hn a hname b => by
        rw [valueRequests, valueRequests, nodeRequests_set_name _ hk hn hname])
    have hkind := standing_renameOwn (names.take (ownRequests owner ⟨kind, place, fields⟩).length)
      ⟨kind, place, (fieldRename (inside owner kind)
        (names.drop (ownRequests owner ⟨kind, place, fields⟩).length) fields).1⟩
    obtain ⟨hkind, hplace⟩ := Prod.mk.inj hkind
    have hshare : place.share = none := hn.1.unshared
    rw [nodeRename, nodeRequests_node, hkind, hplace, fieldRequests_eq_flatMap, nodeRequests]
    dsimp only
    rw [hshare, sharedRequests, sharedRequests, relabelled_append, ← hbelow,
      fieldRequests_eq_flatMap]
    exact congrArg₂ _ hown hkept

theorem valueRequests_valueRename (owner : Option ClassId) (names : List (Option Atom)) :
    (v : Value) → (∀ m ∈ v.preorder, m.WellFormed) →
    valueRequests owner (valueRename owner names v).1 = relabelled names (valueRequests owner v)
  | .node n, hv => by
    rw [Value.preorder] at hv
    rw [valueRename, valueRequests, valueRequests]
    exact nodeRequests_nodeRename owner names n hv
  | .list vs, hv => by
    rw [Value.preorder] at hv
    rw [valueRename]
    by_cases hall : vs.all Value.isNode
    · rw [if_pos hall] at hv ⊢
      rw [valueRequests, valueRequests, all_isNode_fieldRename, if_pos hall, if_pos hall]
      exact fieldRequests_fieldRename owner names vs hv
    · rw [if_neg hall]
      simp [valueRequests, hall]
  | .atom _, _ | .object, _ => by simp [valueRename, valueRequests]

theorem fieldRequests_fieldRename (owner : Option ClassId) (names : List (Option Atom)) :
    (vs : List Value) → (∀ m ∈ Value.preorderAll vs, m.WellFormed) →
    fieldRequests owner (fieldRename owner names vs).1 = relabelled names (fieldRequests owner vs)
  | [], _ => by simp [fieldRename, fieldRequests]
  | v :: vs, hvs => by
    rw [Value.preorderAll, List.forall_mem_append] at hvs
    rw [fieldRename, fieldRequests, fieldRequests, relabelled_append,
      valueRequests_valueRename owner names v hvs.1, fieldRequests_fieldRename owner _ vs hvs.2,
      snd_valueRename]

end

/-- What is asked for a unit after names have been put back into it. -/
theorem requests_rename {unit : List Node} (hu : WellFormed unit) (names : List (Option Atom)) :
    requests (rename names unit) = relabelled names (requests unit) := by
  induction unit generalizing names with
  | nil => simp [rename, requests]
  | cons n unit ih =>
    rw [WellFormed, preorder, List.flatMap_cons, List.forall_mem_append] at hu
    have hrest := ih hu.2 (names.drop (nodeRequests none n).length)
    rw [rename, requests, requests, List.flatMap_cons, List.flatMap_cons, relabelled_append,
      nodeRequests_nodeRename none names n hu.1, snd_nodeRename]
    exact congrArg _ hrest

end Declarations

end PropertyRenaming
