import PropertyRenaming.Proofs.FreshWalk

namespace PropertyRenaming

open List (Forall₂)

/-- Whether a node is an item whose name is not an old one. -/
def Node.isNewItem (old : List String) (n : Node) : Bool :=
  n.kind == .propertyItem && n.propertyName?.any fun name => !old.contains name

def Node.OldNamed (old : List String) (n : Node) : Prop :=
  ∀ name, n.propertyName? = some name → name ∈ old

theorem Node.isNewItem_eq_false {old : List String} {n : Node}
    (h : n.kind = .propertyItem → n.OldNamed old) : n.isNewItem old = false := by
  unfold isNewItem
  by_cases hk : n.kind = .propertyItem
  · cases hname : n.propertyName? with
    | none => simp
    | some name => simp [h hk name hname]
  · simp [hk]

theorem Node.OldNamed.isNewItem {old : List String} {n : Node} (h : n.OldNamed old) :
    n.isNewItem old = false := Node.isNewItem_eq_false fun _ => h

theorem Node.oldNamed_of_name {old : List String} {n : Node} {name : String}
    (hname : n.get .name = .str name) (hold : name ∈ old) : n.OldNamed old := by
  intro other hother
  obtain ⟨-, hget⟩ := Node.propertyName?_eq_some_iff.mp hother
  obtain rfl := Atom.text.inj (Value.atom.inj (hname.symm.trans hget))
  exact hold

theorem oldNamed_of_mem {unit : List Node} {n : Node} (hn : n ∈ preorder unit) :
    n.OldNamed (propertyNames unit) :=
  fun _ hname => List.mem_filterMap.mpr ⟨n, hn, hname⟩

/-- Replacing one bare value by another one changes nothing below a node. -/
theorem Node.preorderAll_set {n : Node} (hn : n.Filled) {f : Field} {a b : Atom}
    (hf : n.get f = .atom a) :
    Value.preorderAll (n.set f (.atom b)).fields = Value.preorderAll n.fields := by
  rw [Value.preorderAll_eq_flatMap, Value.preorderAll_eq_flatMap]
  refine (List.forall₂_eq_eq_eq ▸ Node.flatMap_set (R := Eq) (fun _ => rfl) hn ?_).symm
  rw [hf]
  simp [Value.preorder]

namespace Declarations

variable {ignore : List Atom} {old : List String} {names : List (Option Atom)}

/-- An item of a declaration, with an old name. -/
def IsOldItem (old : List String) (v : Value) : Prop :=
  ∃ n name, v = .node n ∧ n.kind = .propertyItem ∧ n.Filled ∧ n.get .name = .str name ∧ name ∈ old

theorem countP_set_name {n : Node} {name : String} (hk : n.kind = .propertyItem) (hn : n.Filled)
    (hname : n.get .name = .str name) (hold : name ∈ old) {a : Atom}
    (ha : NewName (old.map .text) a) :
    (n.set .name (.atom a)).preorder.countP (Node.isNewItem old) =
      n.preorder.countP (Node.isNewItem old) + 1 := by
  obtain ⟨new, rfl, -⟩ := ha.1
  have hother := ha.not_mem
  have hget : (n.set .name (.str new)).get .name = .str new :=
    hn.get_set_self (by simp [hk, Kind.fields]) _
  have hpositive : (n.set .name (.str new)).isNewItem old = true := by
    simp [Node.isNewItem, Node.propertyName?, hk, hget, Value.str?, hother]
  have hnegative : n.isNewItem old = false := (Node.oldNamed_of_name hname hold).isNewItem
  rw [Node.preorder_eq, Node.preorder_eq, Node.preorderAll_set hn hname,
    List.countP_cons_of_pos hpositive, List.countP_cons_of_neg (by simp [hnegative])]

/-- The items of a declaration: each name that is put back makes one new item. -/
theorem countP_renameItems {items : List Value} (hitems : ∀ v ∈ items, IsOldItem old v)
    (hnames : ∀ a, some a ∈ names → NewName (old.map .text) a)
    (hlen : names.length ≤ items.length) :
    (Value.preorderAll (renameItems names items)).countP (Node.isNewItem old) =
      (Value.preorderAll items).countP (Node.isNewItem old) + names.countP Option.isSome := by
  induction items generalizing names with
  | nil =>
    obtain rfl := List.length_eq_zero_iff.mp (Nat.le_zero.mp hlen)
    rfl
  | cons v items ih =>
    rw [List.forall_mem_cons] at hitems
    obtain ⟨n, name, rfl, hk, hn, hname, hold⟩ := hitems.1
    cases names with
    | nil => simp [renameItems]
    | cons new names =>
      have hrest := ih hitems.2 (fun a ha => hnames a (List.mem_cons_of_mem _ ha))
        (by simpa using hlen)
      cases new with
      | none =>
        rw [renameItems]
        · simp only [Value.preorderAll, List.countP_append, hrest, List.countP_cons]
          simp
          omega
        · simp
      | some a =>
        have hfirst := countP_set_name hk hn hname hold (hnames a List.mem_cons_self)
        rw [renameItems]
        simp only [Value.preorderAll, Value.preorder, List.countP_append, hfirst, hrest,
          List.countP_cons]
        simp
        omega

section Framed

variable {given : Atom → Prop} {spot : Spot} {named : Bool} {n m : Node}

theorem name_of_idle (h : Node.Framed (Touched ignore given) spot named n m) (hspot : Idle spot)
    {name : String} (hname : n.get .name = .str name) : m.get .name = .str name := by
  have hfield := h.field .name
  rw [hname] at hfield
  apply hfield.eq_of_atom
  rintro ⟨hitem, -, -, -⟩
  rw [declared?_of_idle hspot] at hitem
  cases hitem

/-- Before a declaration takes its names, its items have their old ones. -/
theorem isOldItem_of_framed {v u : Value} (hitem : Content.isItem v = true)
    (hwf : ∀ m ∈ v.preorder, m.WellFormed) (hold : ∀ m ∈ v.preorder, m.OldNamed old)
    (hspot : Idle spot) (h : Value.Framed (Touched ignore given) False spot false v u) :
    IsOldItem old u := by
  obtain ⟨n, name, rfl, hn, hk, hname⟩ := exists_item hitem hwf
  have hself : n ∈ (Value.node n).preorder := by simp [Value.preorder, Node.preorder_eq]
  cases h with
  | same hnone => simp [Value.children] at hnone
  | @node _ _ _ _ m hnm =>
    refine ⟨m, name, rfl, hnm.kind_eq.trans hk, hnm.filled hn.filled,
      name_of_idle hnm hspot hname, hold n hself name ?_⟩
    exact Node.propertyName?_eq_some_iff.mpr ⟨Or.inl hk, hname⟩

theorem forall_isOldItem_of_framed {items items' : List Value}
    (hitems : items.all Content.isItem = true)
    (hwf : ∀ m ∈ Value.preorderAll items, m.WellFormed)
    (hold : ∀ m ∈ Value.preorderAll items, m.OldNamed old) (hspot : Idle spot)
    (h : Forall₂ (Value.Framed (Touched ignore given) False spot false) items items') :
    ∀ v ∈ items', IsOldItem old v := by
  intro v hv
  obtain ⟨v', hv', hframed⟩ := mem_of_forall₂_right h hv
  rw [Value.preorderAll_eq_flatMap] at hwf hold
  exact isOldItem_of_framed (List.all_eq_true.mp hitems v' hv')
    (fun m hm => hwf m (List.mem_flatMap.mpr ⟨v', hv', hm⟩))
    (fun m hm => hold m (List.mem_flatMap.mpr ⟨v', hv', hm⟩)) hspot hframed

theorem exists_items_of_framed {T : Touch} {flags : Value} {items fields : List Value}
    (hitems : items.all Value.isNode = true)
    (h : Forall₂ (fun v u => ∀ p named, Value.Framed T p spot named v u) [flags, .list items]
      fields) :
    ∃ flags' items', fields = [flags', .list items'] ∧
      Forall₂ (Value.Framed T False spot false) items items' := by
  cases h with
  | @cons _ flags' _ _ _ hrest =>
    cases hrest with
    | cons hlist hnil =>
      cases hnil
      obtain ⟨items', rfl, hitems'⟩ := (hlist False false).exists_list hitems
      exact ⟨flags', items', rfl, hitems'⟩

/-- What is below an item has been renamed, and its own name has not. -/
theorem isNewItem_of_framed {T : Touch} {fields : List Value} (hn : n.WellFormed)
    (hself : n.OldNamed old)
    (hfields : Forall₂ (fun v u => ∀ p named, Value.Framed T p spot named v u) n.fields fields) :
    Node.isNewItem old ⟨n.kind, n.place, fields⟩ = false := by
  apply Node.isNewItem_eq_false
  intro hk
  obtain ⟨name, hname⟩ := hn.item_name hk
  have hfield := Node.get_of_forall₂ (n := n) (m := ⟨n.kind, n.place, fields⟩)
    (fun _ _ => Value.Framed.same rfl) rfl hfields .name
  rw [hname] at hfield
  refine Node.oldNamed_of_name ((hfield False false).eq_of_atom id) (hself name ?_)
  exact Node.propertyName?_eq_some_iff.mpr ⟨Or.inl hk, hname⟩

end Framed

/-- A declaration whose items have their old names: each name that is put back makes one new item. -/
theorem countP_renameOwn_decl {n : Node} {flags : Value} {items : List Value}
    (hk : n.kind = .propertyDecl) (hf : n.fields = [flags, .list items])
    (hitems : ∀ v ∈ items, IsOldItem old v)
    (hnames : ∀ a, some a ∈ names → NewName (old.map .text) a)
    (hlen : names.length ≤ items.length) :
    (renameOwn names n).preorder.countP (Node.isNewItem old) =
      (Value.preorderAll n.fields).countP (Node.isNewItem old) + names.countP Option.isSome := by
  obtain ⟨kind, place, fields⟩ := n
  obtain rfl : kind = .propertyDecl := hk
  obtain rfl : fields = [flags, .list items] := hf
  have hall : items.all Value.isNode = true := by
    rw [List.all_eq_true]
    intro v hv
    obtain ⟨m, _, rfl, -⟩ := hitems v hv
    rfl
  have hset : renameOwn names ⟨.propertyDecl, place, [flags, .list items]⟩ =
      ⟨.propertyDecl, place, [flags, .list (renameItems names items)]⟩ := rfl
  have hnot : ∀ fs, Node.isNewItem old ⟨.propertyDecl, place, fs⟩ = false := fun fs =>
    Node.isNewItem_eq_false nofun
  have hcount := countP_renameItems hitems hnames hlen
  rw [hset, Node.preorder_eq, List.countP_cons_of_neg (by simp [hnot])]
  simp only [Value.preorderAll, Value.preorder, all_isNode_renameItems, hall, if_true,
    List.countP_append, hcount, List.countP_nil]
  omega

/-- A node takes its own names after what is below it has been renamed, and each of them makes one
new item. -/
theorem countP_renameOwn {n : Node} (hn : n.WellFormed) (hself : n.OldNamed old)
    (hwf : ∀ m ∈ Value.preorderAll n.fields, m.WellFormed)
    (hold : ∀ m ∈ Value.preorderAll n.fields, m.OldNamed old) {owner : Option ClassId}
    {fields : List Value}
    (hfields : Forall₂ (fun v u => ∀ p named, Value.Framed
      (Touched ignore (NewName (old.map .text))) p ⟨inside owner n.kind, none⟩ named v u)
      n.fields fields)
    (hnames : Spares ignore (NewName (old.map .text)) (ownRequests owner n) names) :
    (renameOwn (names.take (ownRequests owner n).length) ⟨n.kind, n.place, fields⟩).preorder.countP
        (Node.isNewItem old) =
      (Value.preorderAll fields).countP (Node.isNewItem old) +
        (names.take (ownRequests owner n).length).countP Option.isSome := by
  rcases ownRequests_cases hn owner with
    ⟨hown, -⟩ | ⟨o, flags, items, rfl, hk, hf, hitems, hown, -⟩
  · have hnot := isNewItem_of_framed hn hself hfields
    rw [hown, List.length_nil, List.take_zero,
      renameOwn_nil (hn.filled.refill n.place hfields.length_eq.symm), Node.preorder_eq,
      List.countP_cons_of_neg (by simp [hnot]), List.countP_nil, Nat.add_zero]
  · have hall := all_isNode_of_isItem hitems
    have hbelow : Value.preorderAll n.fields = Value.preorderAll items := by
      simp [hf, Value.preorderAll, Value.preorder, hall]
    rw [hbelow] at hwf hold
    rw [hf] at hfields
    obtain ⟨flags', items', rfl, hitems'⟩ := exists_items_of_framed hall hfields
    have hlen : (names.take (ownRequests (some o) n).length).length ≤ items'.length := by
      rw [hown, List.length_map, List.length_map, hitems'.length_eq]
      exact List.length_take_le ..
    exact countP_renameOwn_decl hk rfl
      (forall_isOldItem_of_framed hitems hwf hold (Or.inl (by simp)) hitems')
      (fun a ha => hnames.take.given (List.length_take_le ..) ha) hlen

theorem all_isNode_fieldRename (owner : Option ClassId) (names : List (Option Atom))
    (vs : List Value) :
    (fieldRename owner names vs).1.all Value.isNode = vs.all Value.isNode := by
  induction vs generalizing names with
  | nil => simp [fieldRename]
  | cons v vs ih =>
    have hv : (valueRename owner names v).1.isNode = v.isNode := by
      cases v with
      | list us =>
        rw [valueRename]
        split <;> rfl
      | _ => simp [valueRename, Value.isNode]
    rw [fieldRename, List.all_cons, List.all_cons, hv, ih]

mutual

theorem countP_nodeRename (owner : Option ClassId) (names : List (Option Atom)) : (n : Node) →
    (∀ m ∈ n.preorder, m.WellFormed) → (∀ m ∈ n.preorder, m.OldNamed old) →
    Spares ignore (NewName (old.map .text)) (nodeRequests owner n) names →
    (nodeRename owner names n).1.preorder.countP (Node.isNewItem old) =
      (names.take (nodeRequests owner n).length).countP Option.isSome
  | ⟨kind, place, fields⟩, hn, hold, hnames => by
    rw [Node.preorder, List.forall_mem_cons] at hn hold
    have hshare : place.share = none := hn.1.unshared
    rw [nodeRequests, hshare, sharedRequests] at hnames ⊢
    obtain ⟨hown, hrest⟩ := hnames.append
    have hframed := framed_fieldRename (inside owner kind) _ fields hn.2 ⟨inside owner kind, none⟩
      rfl hrest
    have hbelow := countP_fieldRename (inside owner kind) _ fields hn.2 hold.2 hrest
    have hcount := countP_renameOwn hn.1 hold.1 hn.2 hold.2 hframed hown
    rw [nodeRename, List.length_append, List.take_add, List.countP_append, ← hbelow, Nat.add_comm]
    exact hcount

theorem countP_valueRename (owner : Option ClassId) (names : List (Option Atom)) : (v : Value) →
    (∀ m ∈ v.preorder, m.WellFormed) → (∀ m ∈ v.preorder, m.OldNamed old) →
    Spares ignore (NewName (old.map .text)) (valueRequests owner v) names →
    (valueRename owner names v).1.preorder.countP (Node.isNewItem old) =
      (names.take (valueRequests owner v).length).countP Option.isSome
  | .node n, hv, hold, hnames => by
    rw [Value.preorder] at hv hold
    rw [valueRequests] at hnames ⊢
    rw [valueRename, Value.preorder]
    exact countP_nodeRename owner names n hv hold hnames
  | .list vs, hv, hold, hnames => by
    rw [Value.preorder] at hv hold
    rw [valueRequests] at hnames ⊢
    rw [valueRename]
    by_cases hall : vs.all Value.isNode
    · rw [if_pos hall] at hv hold hnames ⊢
      rw [if_pos hall, Value.preorder, all_isNode_fieldRename, if_pos hall]
      exact countP_fieldRename owner names vs hv hold hnames
    · simp [hall, Value.preorder]
  | .atom _, _, _, _ | .object, _, _, _ => by simp [valueRename, valueRequests, Value.preorder]

theorem countP_fieldRename (owner : Option ClassId) (names : List (Option Atom)) :
    (vs : List Value) → (∀ m ∈ Value.preorderAll vs, m.WellFormed) →
    (∀ m ∈ Value.preorderAll vs, m.OldNamed old) →
    Spares ignore (NewName (old.map .text)) (fieldRequests owner vs) names →
    (Value.preorderAll (fieldRename owner names vs).1).countP (Node.isNewItem old) =
      (names.take (fieldRequests owner vs).length).countP Option.isSome
  | [], _, _, _ => by simp [fieldRename, fieldRequests, Value.preorderAll]
  | v :: vs, hvs, hold, hnames => by
    rw [Value.preorderAll, List.forall_mem_append] at hvs hold
    rw [fieldRequests] at hnames ⊢
    obtain ⟨hfirst, hrest⟩ := hnames.append
    have hv := countP_valueRename owner names v hvs.1 hold.1 hfirst
    have hbelow := countP_fieldRename owner _ vs hvs.2 hold.2 hrest
    rw [fieldRename, List.length_append, List.take_add, List.countP_append, ← hv, ← hbelow,
      Value.preorderAll, List.countP_append, ← snd_valueRename]

end

/-- In a unit whose names are all old, each name that is put back makes one new item. -/
theorem countP_rename {unit : List Node} (hu : WellFormed unit)
    (hold : ∀ n ∈ preorder unit, n.OldNamed old)
    (hnames : Spares ignore (NewName (old.map .text)) (requests unit) names) :
    (preorder (rename names unit)).countP (Node.isNewItem old) =
      (names.take (requests unit).length).countP Option.isSome := by
  induction unit generalizing names with
  | nil => simp [rename, requests, preorder]
  | cons n unit ih =>
    rw [WellFormed, preorder, List.flatMap_cons, List.forall_mem_append] at hu
    rw [preorder, List.flatMap_cons, List.forall_mem_append] at hold
    rw [requests, List.flatMap_cons] at hnames ⊢
    obtain ⟨hfirst, hrest⟩ := hnames.append
    have hn := countP_nodeRename none names n hu.1 hold.1 hfirst
    have hbelow := ih hu.2 hold.2 hrest
    rw [rename, preorder, List.flatMap_cons, List.countP_append, List.length_append, List.take_add,
      List.countP_append, hn, snd_nodeRename]
    exact congrArg _ hbelow

end Declarations

end PropertyRenaming
