import PropertyRenaming.Proofs.Outline
import PropertyRenaming.Proofs.Untouched

namespace PropertyRenaming

open List (Forall₂)

/-- A table with the qualified names of some classes. -/
def ClassTable.Knows (t : ClassTable) (nodes : List Node) : Prop :=
  ∀ n ∈ nodes, ∀ id, n.kind = .classDecl id → t.names[id]? = some (n.get .qualifiedName)

theorem ClassTable.Knows.mono {t : ClassTable} {nodes nodes' : List Node} (h : t.Knows nodes)
    (hsub : nodes' ⊆ nodes) : t.Knows nodes' :=
  fun n hn => h n (hsub hn)

/-- A supply that has nothing to warn of. -/
def Names.Hushed {γ : Type} (supply : Names.Supply γ) : Prop :=
  ∀ asked taken memory, ∀ r ∈ (supply asked taken memory).notes, r.level ≠ .warning

theorem Value.Framed.admits {T : Touch} {p : Prop} {spot : Spot} {named : Bool} {v u : Value}
    {c : Content} (h : Value.Framed T p spot named v u) (hp : p → c.admits u = true)
    (hv : c.admits v = true) : c.admits u = true := by
  cases h with
  | touched h => exact hp h
  | same _ => exact hv
  | node hn => cases c <;> simp_all [Content.admits, hn.kind_eq]
  | nodes hall =>
    obtain ⟨ns, ms, rfl, rfl, hnodes⟩ := Value.framedAll_iff.mp hall
    cases c with
    | any => rfl
    | items =>
      rw [Content.admits, List.all_map, List.all_eq_true] at hv ⊢
      intro m hm
      obtain ⟨n, hn, hnm⟩ := mem_of_forall₂_right hnodes hm
      simpa [Content.isItem, hnm.kind_eq] using hv n hn
    | _ => simp [Content.admits] at hv

theorem Context.patches_plain {n : Node} (hk : n.kind.reference? = none) (s : Session Context) :
    sweep.patches n s = [] := by
  have hnaming : s.own.naming? n = none := by
    unfold naming?
    split
    · rename_i id hid
      simp [hid, Kind.reference?] at hk
    · rfl
  simp [sweep, namePatches, hnaming, referencePatches, hk]

theorem Context.dressed_plain {n : Node} (hk : n.kind.reference? = none) (s : Session Context)
    (fields : List Value) : sweep.dressed n s fields = ⟨n.kind, sweep.place n s, fields⟩ := by
  rw [Sweep.dressed, patches_plain hk, Node.patched, List.foldl_nil]

namespace Declarations

section Requests

variable {n : Node}

theorem itemName_sweep {v : Value} (hv : Content.isItem v = true)
    (hwf : ∀ m ∈ v.preorder, m.WellFormed) (s : Session Context) :
    itemName (v.sweep Context.sweep s).1 = itemName v := by
  obtain ⟨m, t, rfl, -, -, hname⟩ := exists_item hv hwf
  have hswept := Context.str?_name_sweep s m
  rw [hname, Value.str?, Value.str?_eq_some_iff] at hswept
  simp [Value.sweep, itemName, Node.has, hname, hswept]

theorem map_itemName_sweepAll {items : List Value} (hitems : items.all Content.isItem = true)
    (hwf : ∀ m ∈ Value.preorderAll items, m.WellFormed) (s : Session Context) :
    (Value.sweepAll Context.sweep s items).1.map itemName = items.map itemName := by
  induction items generalizing s with
  | nil => rfl
  | cons v items ih =>
    simp only [List.all_cons, Bool.and_eq_true] at hitems
    rw [Value.preorderAll, List.forall_mem_append] at hwf
    rw [Value.sweepAll, List.map_cons, List.map_cons, itemName_sweep hitems.1 hwf.1,
      ih hitems.2 hwf.2]

theorem ownRequests_dressed (hn : n.WellFormed)
    (hwf : ∀ m ∈ Value.preorderAll n.fields, m.WellFormed) (owner : Option ClassId)
    (s t : Session Context) :
    ownRequests owner (Context.sweep.dressed n s (Value.sweepAll Context.sweep t n.fields).1) =
      ownRequests owner n := by
  by_cases hk : n.kind = .propertyDecl
  · obtain ⟨flags, items, hf, hitems⟩ := fields_decl hn hk
    have hall := all_isNode_of_isItem hitems
    have hswept : (Value.sweepAll Context.sweep t n.fields).1 =
        [.int flags, .list (Value.sweepAll Context.sweep t items).1] := by
      simp [hf, Value.sweepAll, Value.sweep, hall]
    have hnames := map_itemName_sweepAll hitems (fun m hm => hwf m (by
      simp only [hf, Value.preorderAll, Value.preorder, if_pos hall]
      simpa using hm)) t
    rw [Context.dressed_plain (by rw [hk]; rfl), hswept]
    unfold ownRequests
    rw [isPrivate_decl hk hf, isPrivate_decl (n := ⟨n.kind, _, _⟩) hk rfl, get_props_decl hk hf,
      get_props_decl (n := ⟨n.kind, _, _⟩) hk rfl, itemNames, itemNames, hnames]
  · simp [ownRequests, hk]

theorem fieldRequests_eq_flatMap (owner : Option ClassId) (vs : List Value) :
    fieldRequests owner vs = vs.flatMap (valueRequests owner) := by
  induction vs with
  | nil => simp [fieldRequests]
  | cons v vs ih => rw [fieldRequests, ih, List.flatMap_cons]

theorem valueRequests_token {token : Node} (ht : token.WellFormed) (hk : token.kind = .className)
    (owner : Option ClassId) : valueRequests owner (.node token) = [] := by
  obtain ⟨place, name, rfl⟩ := Context.exists_token ht hk
  have hshare : place.share = none := ht.unshared
  simp [valueRequests, nodeRequests, hshare, sharedRequests, ownRequests, fieldRequests]

theorem fieldRequests_dressed (hn : n.Sound) (owner : Option ClassId) (s t : Session Context) :
    fieldRequests owner (Context.sweep.dressed n s
        (Value.sweepAll Context.sweep t n.fields).1).fields =
      fieldRequests owner (Value.sweepAll Context.sweep t n.fields).1 := by
  rw [fieldRequests_eq_flatMap, fieldRequests_eq_flatMap]
  refine (List.forall₂_eq_eq_eq ▸ Context.forall₂_dressed (R := Eq) (fun _ => rfl) ?_ ?_ hn t).symm
  · exact fun a => by simp [valueRequests]
  · intro token ht hk
    rw [valueRequests_token ht hk, valueRequests_token (Context.wellFormed_settled ht hk s.own)
      (by rw [Node.modify, Node.kind_set, hk])]
    exact .nil

mutual

theorem nodeRequests_sweep (owner : Option ClassId) : (n : Node) → (∀ m ∈ n.preorder, m.Sound) →
    (s : Session Context) → nodeRequests owner (n.sweep Context.sweep s).1 = nodeRequests owner n
  | ⟨kind, place, fields⟩, hn, s => by
    have hrequests : ∀ m : Node, nodeRequests owner m = sharedRequests m.place.share
        (ownRequests owner m ++ fieldRequests (inside owner m.kind) m.fields) := by
      rintro ⟨k, p, fs⟩
      rw [nodeRequests]
    have hsound := hn ⟨kind, place, fields⟩ (by simp [Node.preorder])
    have hfields : ∀ m ∈ Value.preorderAll fields, m.Sound := fun m hm =>
      hn m (by simp [Node.preorder, hm])
    have hbelow := fieldRequests_sweepAll (inside owner kind) fields hfields
      (Context.sweep.opened ⟨kind, place, fields⟩ s)
    rw [hrequests, hrequests, Node.sweep_eq, Sweep.kind_dressed, Sweep.place_dressed,
      ownRequests_dressed hsound.wellFormed (fun m hm => (hfields m hm).wellFormed),
      fieldRequests_dressed hsound, hbelow]
    rfl

theorem valueRequests_sweep (owner : Option ClassId) : (v : Value) → (∀ m ∈ v.preorder, m.Sound) →
    (s : Session Context) → valueRequests owner (v.sweep Context.sweep s).1 = valueRequests owner v
  | .node n, hv, s => by
    rw [Value.preorder] at hv
    rw [Value.sweep, valueRequests, valueRequests, nodeRequests_sweep owner n hv]
  | .list vs, hv, s => by
    rw [Value.preorder] at hv
    rw [Value.sweep]
    by_cases hall : vs.all Value.isNode
    · rw [if_pos hall] at hv ⊢
      rw [valueRequests, valueRequests, if_pos hall, if_pos (Value.all_isNode_sweepAll _ s hall)]
      exact fieldRequests_sweepAll owner vs hv s
    · rw [if_neg hall]
  | .atom _, _, _ | .object, _, _ => by simp [Value.sweep]

theorem fieldRequests_sweepAll (owner : Option ClassId) : (vs : List Value) →
    (∀ m ∈ Value.preorderAll vs, m.Sound) → (s : Session Context) →
    fieldRequests owner (Value.sweepAll Context.sweep s vs).1 = fieldRequests owner vs
  | [], _, _ => rfl
  | v :: vs, hvs, s => by
    rw [Value.preorderAll, List.forall_mem_append] at hvs
    rw [Value.sweepAll, fieldRequests, fieldRequests, valueRequests_sweep owner v hvs.1,
      fieldRequests_sweepAll owner vs hvs.2]

end

/-- What is asked for a unit is the same once its class context has been worked out. -/
theorem requests_sweepUnit {unit : List Node} (hu : ∀ n ∈ preorder unit, n.Sound)
    (s : Session Context) : requests (sweepUnit Context.sweep s unit).1 = requests unit := by
  induction unit generalizing s with
  | nil => rfl
  | cons n unit ih =>
    rw [preorder, List.flatMap_cons, List.forall_mem_append] at hu
    rw [sweepUnit, requests, requests, List.flatMap_cons, List.flatMap_cons,
      nodeRequests_sweep none n hu.1]
    exact congrArg _ (ih hu.2 _)

end Requests

section Handing

/-- The names that are left to be handed out, and the classes around, the innermost first. -/
structure Handout where
  classes : List ClassId := []
  names : List (Option Atom)

def renamedItems (names : List (Option Atom)) : Value → Value
  | .list items => .list (renameItems names items)
  | v => v

/-- Putting names back is a sweep that hands them out on its way. -/
def sweep : Sweep Handout where
  opened n s := s.withOwn ⟨n.kind.classId?.toList ++ s.own.classes,
    s.own.names.drop (ownRequests s.own.classes.head? n).length⟩
  place n _ := n.place
  patches n s :=
    if n.kind = .propertyDecl then
      [(.props, renamedItems (s.own.names.take (ownRequests s.own.classes.head? n).length))]
    else []
  closed n s := s.withOwn { s.own with
    classes := s.own.classes.drop n.kind.classId?.toList.length }

variable {n : Node}

theorem head?_inside (classes : List ClassId) (kind : Kind) :
    (kind.classId?.toList ++ classes).head? = inside classes.head? kind := by
  cases kind <;> simp [Kind.classId?, inside]

theorem renameOwn_eq_dressed (hn : n.WellFormed) (s : Session Handout) {fields : List Value}
    (hfields : fields.length = n.fields.length) :
    renameOwn (s.own.names.take (ownRequests s.own.classes.head? n).length)
        ⟨n.kind, n.place, fields⟩ = sweep.dressed n s fields := by
  have hfilled := hn.filled.refill n.place hfields
  by_cases hk : n.kind = .propertyDecl
  · simp only [Sweep.dressed, sweep, if_pos hk, Node.patched, List.foldl_cons, List.foldl_nil,
      Node.modify, renameOwn]
    cases hprops : Node.get ⟨n.kind, n.place, fields⟩ .props with
    | list items => rfl
    | _ =>
      simp only [renamedItems]
      rw [← hprops, hfilled.set_get_self]
  · have hown : ownRequests s.own.classes.head? n = [] := by simp [ownRequests, hk]
    rw [hown, List.length_nil, List.take_zero, renameOwn_nil hfilled]
    simp [Sweep.dressed, sweep, hk, Node.patched]

mutual

theorem nodeRename_eq_sweep : (n : Node) → (∀ m ∈ n.preorder, m.WellFormed) →
    (s : Session Handout) →
    nodeRename s.own.classes.head? s.own.names n =
        ((n.sweep sweep s).1, (n.sweep sweep s).2.own.names) ∧
      (n.sweep sweep s).2.own.classes = s.own.classes
  | ⟨kind, place, fields⟩, hn, s => by
    have hwf := hn ⟨kind, place, fields⟩ (by simp [Node.preorder])
    obtain ⟨hbelow, hclasses⟩ := fieldRename_eq_sweep fields
      (fun m hm => hn m (by simp [Node.preorder, hm])) (sweep.opened ⟨kind, place, fields⟩ s)
    have hopened : (sweep.opened ⟨kind, place, fields⟩ s).own.classes.head? =
        inside s.own.classes.head? kind := head?_inside s.own.classes kind
    rw [hopened] at hbelow
    rw [nodeRename, Node.sweep]
    dsimp only
    rw [show s.own.names.drop (ownRequests s.own.classes.head? ⟨kind, place, fields⟩).length =
      (sweep.opened ⟨kind, place, fields⟩ s).own.names from rfl, hbelow]
    refine ⟨Prod.ext ?_ rfl, ?_⟩
    · exact renameOwn_eq_dressed hwf s (Value.length_sweepAll ..)
    · have hclosed : ∀ t, (sweep.closed ⟨kind, place, fields⟩ t).own.classes =
          t.own.classes.drop kind.classId?.toList.length := fun _ => rfl
      rw [hclosed, hclasses]
      exact List.drop_left ..

theorem valueRename_eq_sweep : (v : Value) → (∀ m ∈ v.preorder, m.WellFormed) →
    (s : Session Handout) →
    valueRename s.own.classes.head? s.own.names v =
        ((v.sweep sweep s).1, (v.sweep sweep s).2.own.names) ∧
      (v.sweep sweep s).2.own.classes = s.own.classes
  | .node n, hv, s => by
    rw [Value.preorder] at hv
    obtain ⟨hn, hclasses⟩ := nodeRename_eq_sweep n hv s
    rw [valueRename, Value.sweep, hn]
    exact ⟨rfl, hclasses⟩
  | .list vs, hv, s => by
    rw [Value.preorder] at hv
    rw [valueRename, Value.sweep]
    by_cases hall : vs.all Value.isNode
    · rw [if_pos hall] at hv
      obtain ⟨hvs, hclasses⟩ := fieldRename_eq_sweep vs hv s
      rw [if_pos hall, if_pos hall, hvs]
      exact ⟨rfl, hclasses⟩
    · rw [if_neg hall, if_neg hall]
      exact ⟨rfl, rfl⟩
  | .atom _, _, _ | .object, _, _ => by simp [valueRename, Value.sweep]

theorem fieldRename_eq_sweep : (vs : List Value) → (∀ m ∈ Value.preorderAll vs, m.WellFormed) →
    (s : Session Handout) →
    fieldRename s.own.classes.head? s.own.names vs =
        ((Value.sweepAll sweep s vs).1, (Value.sweepAll sweep s vs).2.own.names) ∧
      (Value.sweepAll sweep s vs).2.own.classes = s.own.classes
  | [], _, s => by simp [fieldRename, Value.sweepAll]
  | v :: vs, hvs, s => by
    rw [Value.preorderAll, List.forall_mem_append] at hvs
    obtain ⟨hv, hclasses⟩ := valueRename_eq_sweep v hvs.1 s
    obtain ⟨hrest, hclasses'⟩ := fieldRename_eq_sweep vs hvs.2 (v.sweep sweep s).2
    rw [hclasses] at hrest hclasses'
    rw [fieldRename, Value.sweepAll, hv]
    dsimp only
    rw [hrest]
    exact ⟨rfl, hclasses'⟩

end

theorem rename_eq_sweepUnit {unit : List Node} (hu : WellFormed unit) {s : Session Handout}
    (hs : s.own.classes = []) : rename s.own.names unit = (sweepUnit sweep s unit).1 := by
  induction unit generalizing s with
  | nil => rfl
  | cons n unit ih =>
    rw [WellFormed, preorder, List.flatMap_cons, List.forall_mem_append] at hu
    obtain ⟨hn, hclasses⟩ := nodeRename_eq_sweep n hu.1 s
    rw [hs] at hn hclasses
    rw [List.head?_nil] at hn
    rw [rename, sweepUnit, hn, ← ih hu.2 hclasses]

theorem passesTokens : sweep.PassesTokens := by
  refine ⟨fun place _ => place, fun token ht hk s => ?_⟩
  obtain ⟨name, hf⟩ := Context.fields_token ht hk
  rw [Node.sweep_eq, hf]
  simp [Value.sweepAll, Sweep.dressed, sweep, hk, Node.patched, ownRequests, Kind.classId?,
    Session.withOwn]

theorem get_dressed {f : Field} (hf : f ≠ .props) (n : Node) (s t : Session Handout) :
    ∃ u, (sweep.dressed n s (Value.sweepAll sweep t n.fields).1).get f =
      ((n.get f).sweep sweep u).1 := by
  obtain ⟨u, hu⟩ := Node.get_sweepAll sweep t n n.place f
  refine ⟨u, hu ▸ Node.get_patched_of_ne fun p hp => ?_⟩
  simp only [sweep] at hp
  split at hp
  · obtain rfl := List.mem_singleton.mp hp
    exact hf.symm
  · simp at hp

end Handing

section Exchange

variable {n : Node}

theorem sweep_set_name (hn : n.Filled) (hk : n.kind = .propertyItem) {b : Atom}
    (hname : n.get .name = .atom b) (a : Atom) (s : Session Context) :
    (n.set .name (.atom a)).sweep Context.sweep s =
      ((n.sweep Context.sweep s).1.set .name (.atom a), (n.sweep Context.sweep s).2) := by
  have hopened : ∀ m : Node, m.kind = .propertyItem → Context.sweep.opened m s = s := by
    intro m hm
    simp [Context.sweep, Context.noted, Context.named, Context.naming?, Context.openScope, hm,
      Kind.reference?, Except.toOption]
  have hcommutes : Context.sweep.CommutesAt (fun _ => .atom a) (n.get .name) := fun t => by
    rw [hname, Value.sweep_atom, Value.sweep_atom]
  have hfields := Node.sweepAll_modify hn hcommutes s
  have hplace := Node.patched_at_place n.kind n.place (Context.sweep.place n s)
    (Value.sweepAll Context.sweep s n.fields).1 [(.name, fun _ => .atom a)]
  rw [Node.sweep_eq, Node.sweep_eq, hopened _ (by rw [Node.kind_set, hk]), hopened n hk,
    Context.dressed_plain (by rw [Node.kind_set, hk]; rfl), Context.dressed_plain (by rw [hk]; rfl)]
  rw [show n.set .name (.atom a) = n.modify .name fun _ => .atom a from rfl, hfields]
  refine Prod.ext ?_ ?_
  · rw [Node.modify, Node.kind_set]
    refine Eq.trans ?_ hplace
    simp only [Context.sweep, Node.place_set]
    rfl
  · simp only [Context.sweep, Node.modify, Node.kind_set]

def IsNamedItem (v : Value) : Prop :=
  ∃ m : Node, v = .node m ∧ m.kind = .propertyItem ∧ m.Filled ∧ ∃ a, m.get .name = .atom a

/-- The items of a declaration stay named while names are handed out to what is below them. -/
theorem isNamedItem_sweep {v : Value} (hv : Content.isItem v = true)
    (hwf : ∀ m ∈ v.preorder, m.WellFormed) (k : Session Handout) :
    IsNamedItem (v.sweep sweep k).1 := by
  obtain ⟨m, t, rfl, hm, hk, hname⟩ := exists_item hv hwf
  obtain ⟨u, hu⟩ := get_dressed (f := .name) (by decide) m k (sweep.opened m k)
  rw [hname, Value.sweep_atom] at hu
  rw [Value.sweep, Node.sweep_eq]
  exact ⟨_, rfl, by rw [Sweep.kind_dressed, hk],
    (hm.filled.refill _ (Value.length_sweepAll ..)).patched _, _, hu⟩

theorem forall_isNamedItem_sweepAll {items : List Value}
    (hitems : items.all Content.isItem = true)
    (hwf : ∀ m ∈ Value.preorderAll items, m.WellFormed) (k : Session Handout) :
    ∀ v ∈ (Value.sweepAll sweep k items).1, IsNamedItem v := by
  induction items generalizing k with
  | nil => simp [Value.sweepAll]
  | cons v items ih =>
    simp only [List.all_cons, Bool.and_eq_true] at hitems
    rw [Value.preorderAll, List.forall_mem_append] at hwf
    rw [Value.sweepAll, List.forall_mem_cons]
    exact ⟨isNamedItem_sweep hitems.1 hwf.1 k, ih hitems.2 hwf.2 _⟩

theorem sweepAll_renameItems {items : List Value} (hitems : ∀ v ∈ items, IsNamedItem v)
    (names : List (Option Atom)) (s : Session Context) :
    Value.sweepAll Context.sweep s (renameItems names items) =
      (renameItems names (Value.sweepAll Context.sweep s items).1,
        (Value.sweepAll Context.sweep s items).2) := by
  induction items generalizing names s with
  | nil =>
    cases names with
    | nil => rfl
    | cons name names => cases name <;> rfl
  | cons v items ih =>
    rw [List.forall_mem_cons] at hitems
    obtain ⟨⟨m, rfl, hk, hm, b, hname⟩, hrest⟩ := hitems
    cases names with
    | nil => rfl
    | cons name names =>
      cases name with
      | none => simp only [renameItems, Value.sweepAll, Value.sweep, ih hrest]
      | some a =>
        simp only [renameItems, Value.sweepAll, Value.sweep, sweep_set_name hm hk hname, ih hrest]

theorem all_isNode_renameItems (names : List (Option Atom)) (items : List Value) :
    (renameItems names items).all Value.isNode = items.all Value.isNode := by
  fun_induction renameItems names items with
  | case1 name names n items ih => simp [Value.isNode, ih]
  | case2 name names item items _ ih => simp [ih]
  | case3 => rfl

/-- Naming the items of a declaration and working out the class context below it commute. -/
theorem commutesAt_renamedItems {items : List Value} (hitems : ∀ v ∈ items, IsNamedItem v)
    (names : List (Option Atom)) :
    Context.sweep.CommutesAt (renamedItems names) (.list items) := by
  intro s
  have hall : items.all Value.isNode = true := List.all_eq_true.mpr fun v hv => by
    obtain ⟨m, rfl, -⟩ := hitems v hv
    rfl
  rw [renamedItems, Value.sweep, Value.sweep, all_isNode_renameItems, if_pos hall, if_pos hall,
    sweepAll_renameItems hitems]
  rfl

theorem commutes_patches (hn : n.WellFormed) (hwf : ∀ m ∈ Value.preorderAll n.fields, m.WellFormed)
    (k t : Session Handout) :
    Context.sweep.Commutes (sweep.patches n k)
      ⟨n.kind, n.place, (Value.sweepAll sweep t n.fields).1⟩ := by
  by_cases hk : n.kind = .propertyDecl
  · obtain ⟨flags, items, hf, hitems⟩ := fields_decl hn hk
    have hall := all_isNode_of_isItem hitems
    have hprops : Node.get ⟨n.kind, n.place, (Value.sweepAll sweep t n.fields).1⟩ .props =
        .list (Value.sweepAll sweep t items).1 := by
      rw [get_props_decl (n := ⟨n.kind, _, _⟩) (u := .int flags) hk]
      simp only [hf, Value.sweepAll, Value.sweep, hall, if_true]
    have hnamed := forall_isNamedItem_sweepAll hitems (fun m hm => hwf m (by
      simp only [hf, Value.preorderAll, Value.preorder, if_pos hall]
      simpa using hm)) t
    simp only [sweep, if_pos hk]
    exact ⟨hprops ▸ commutesAt_renamedItems hnamed _, trivial⟩
  · simp only [sweep, if_neg hk]
    trivial

theorem opening_sweep (hn : n.WellFormed) (k : Session Handout) :
    (n.sweep sweep k).1.opening = n.opening := by
  have hget : ∀ {f : Field}, f ≠ .props → ∀ a, n.get f = .atom a →
      (n.sweep sweep k).1.get f = .atom a := by
    intro f hf a ha
    obtain ⟨u, hu⟩ := get_dressed hf n k (sweep.opened n k)
    rw [Node.sweep_eq, hu, ha, Value.sweep_atom]
  exact hn.opening_eq (Node.kind_sweep ..) (fun _ _ => hget (by decide)) (hget (by decide))

theorem noted_sweep (hn : n.Sound) (k : Session Handout) (c : Context) (log : Log) :
    c.noted (n.sweep sweep k).1 log = c.noted n log := by
  unfold Context.noted
  rw [Node.kind_sweep]
  cases hf : n.kind.reference? with
  | none => rfl
  | some f =>
    have hprops : f ≠ .props := by rcases Kind.reference?_cases hf with rfl | rfl | rfl <;> nofun
    obtain ⟨u, hu⟩ := get_dressed hprops n k (sweep.opened n k)
    dsimp only
    rw [Node.sweep_eq, hu, Context.logged, Context.logged]
    cases htoken : (n.get f).token? with
    | none =>
      rw [c.rewriting?_of_token?_eq_none htoken,
        c.rewriting?_of_token?_eq_none (Value.token?_sweep sweep u htoken)]
    | some token =>
      obtain ⟨place, hpasses⟩ := passesTokens
      obtain ⟨hv, hk⟩ := Value.token?_eq_some_iff.mp htoken
      rw [hv, Value.sweep, hpasses token (hn.token hf htoken) hk]
      obtain ⟨kind, _, fields⟩ := token
      obtain rfl : kind = .className := hk
      rfl

theorem opened_sweep (hn : n.Sound) (k : Session Handout) (s : Session Context) :
    Context.sweep.opened (n.sweep sweep k).1 s = Context.sweep.opened n s := by
  have hopening := opening_sweep hn.wellFormed k
  have hstep : ((n.sweep sweep k).1.opening.step s.own) = n.opening.step s.own := by rw [hopening]
  have hnaming : s.own.naming? (n.sweep sweep k).1 = s.own.naming? n :=
    congrFun (congrArg Turn.naming hopening) s.own
  simp only [Node.opening] at hstep
  simp only [Context.sweep, Context.named, noted_sweep hn, hnaming, hstep]

theorem patches_sweep (hn : n.WellFormed) (k : Session Handout) (s : Session Context) :
    Context.sweep.patches (n.sweep sweep k).1 s = Context.sweep.patches n s := by
  have hnaming : s.own.naming? (n.sweep sweep k).1 = s.own.naming? n :=
    congrFun (congrArg Turn.naming (opening_sweep hn k)) s.own
  simp only [Context.sweep, Context.namePatches, hnaming, Node.kind_sweep]

mutual

/-- Names may be handed out before or after the class context is worked out. -/
theorem sweep_exchange : (n : Node) → (∀ m ∈ n.preorder, m.Sound) → (s : Session Context) →
    (k : Session Handout) →
    (n.sweep sweep k).1.sweep Context.sweep s =
        (((n.sweep Context.sweep s).1.sweep sweep k).1, (n.sweep Context.sweep s).2) ∧
      ((n.sweep Context.sweep s).1.sweep sweep k).2 = (n.sweep sweep k).2
  | ⟨kind, place, fields⟩, hn, s, k => by
    obtain ⟨n, hdef⟩ : ∃ n : Node, n = ⟨kind, place, fields⟩ := ⟨_, rfl⟩
    have hfields : fields = n.fields := by rw [hdef]
    have hsound : n.Sound := hdef ▸ hn _ (by simp [Node.preorder])
    have hbelow : ∀ m ∈ Value.preorderAll n.fields, m.Sound := fun m hm =>
      hn m (by simp [Node.preorder, hfields, hm])
    obtain ⟨hboth, hnames⟩ := sweepAll_exchange fields (hfields ▸ hbelow)
      (Context.sweep.opened n s) (sweep.opened n k)
    rw [hfields] at hboth hnames
    have hwf : ∀ m ∈ Value.preorderAll n.fields, m.WellFormed := fun m hm =>
      (hbelow m hm).wellFormed
    have hown : ownRequests k.own.classes.head? (n.sweep Context.sweep s).1 =
        ownRequests k.own.classes.head? n := by
      rw [Node.sweep_eq, ownRequests_dressed hsound.wellFormed hwf]
    have hopened : sweep.opened (n.sweep Context.sweep s).1 k = sweep.opened n k := by
      simp only [sweep, Node.kind_sweep, hown]
    have hpatches : sweep.patches (n.sweep Context.sweep s).1 k = sweep.patches n k := by
      simp only [sweep, Node.kind_sweep, hown]
    -- One of the two sweeps makes no changes to the node itself.
    have hswap : ∀ place fields, Node.patched ⟨n.kind, place, fields⟩
        (sweep.patches n k ++ Context.sweep.patches n s) =
          Node.patched ⟨n.kind, place, fields⟩
            (Context.sweep.patches n s ++ sweep.patches n k) := by
      intro place fields
      by_cases hk : n.kind = .propertyDecl
      · rw [Context.patches_plain (by rw [hk]; rfl), List.append_nil, List.nil_append]
      · simp only [sweep, if_neg hk, List.append_nil, List.nil_append]
    have hfirst := Node.sweep_sweep hsound.wellFormed.filled
      (commutes_patches hsound.wellFormed hwf k (sweep.opened n k)) s
    have hlast := Node.sweep_sweep hsound.wellFormed.filled
      (Context.commutes_swept passesTokens hsound s (Context.sweep.opened n s)) k
    dsimp only at hfirst hlast
    rw [opened_sweep hsound, patches_sweep hsound.wellFormed, hboth] at hfirst
    rw [hopened, hpatches] at hlast
    have hplace : Context.sweep.place (n.sweep sweep k).1 s =
        sweep.place (n.sweep Context.sweep s).1 k := by
      simp only [Context.sweep, sweep, Node.place_sweep]
    have hclosed : ∀ t, Context.sweep.closed (n.sweep sweep k).1 t =
        Context.sweep.closed n t := fun t => by simp only [Context.sweep, Node.kind_sweep]
    have hclosed' : ∀ t, sweep.closed (n.sweep Context.sweep s).1 t = sweep.closed n t :=
      fun t => by simp only [sweep, Node.kind_sweep]
    rw [← hdef, hfirst, hlast, hplace, hswap, hnames, hclosed, hclosed']
    exact ⟨Prod.ext rfl (by rw [Node.sweep_eq Context.sweep s n]), by rw [Node.sweep_eq sweep k n]⟩

theorem sweepValue_exchange : (v : Value) → (∀ m ∈ v.preorder, m.Sound) → (s : Session Context) →
    (k : Session Handout) →
    (v.sweep sweep k).1.sweep Context.sweep s =
        (((v.sweep Context.sweep s).1.sweep sweep k).1, (v.sweep Context.sweep s).2) ∧
      ((v.sweep Context.sweep s).1.sweep sweep k).2 = (v.sweep sweep k).2
  | .node n, hv, s, k => by
    rw [Value.preorder] at hv
    obtain ⟨hboth, hnames⟩ := sweep_exchange n hv s k
    simp only [Value.sweep, hboth, hnames, and_self]
  | .list vs, hv, s, k => by
    rw [Value.preorder] at hv
    by_cases hall : vs.all Value.isNode
    · rw [if_pos hall] at hv
      obtain ⟨hboth, hnames⟩ := sweepAll_exchange vs hv s k
      simp only [Value.sweep, if_pos hall, if_pos (Value.all_isNode_sweepAll _ _ hall), hboth,
        hnames, and_self]
    · simp only [Value.sweep, if_neg hall, and_self]
  | .atom _, _, _, _ | .object, _, _, _ => by simp [Value.sweep]

theorem sweepAll_exchange : (vs : List Value) → (∀ m ∈ Value.preorderAll vs, m.Sound) →
    (s : Session Context) → (k : Session Handout) →
    Value.sweepAll Context.sweep s (Value.sweepAll sweep k vs).1 =
        ((Value.sweepAll sweep k (Value.sweepAll Context.sweep s vs).1).1,
          (Value.sweepAll Context.sweep s vs).2) ∧
      (Value.sweepAll sweep k (Value.sweepAll Context.sweep s vs).1).2 =
        (Value.sweepAll sweep k vs).2
  | [], _, _, _ => ⟨rfl, rfl⟩
  | v :: vs, hvs, s, k => by
    rw [Value.preorderAll, List.forall_mem_append] at hvs
    obtain ⟨hv, hnames⟩ := sweepValue_exchange v hvs.1 s k
    obtain ⟨hrest, hnames'⟩ := sweepAll_exchange vs hvs.2 (v.sweep Context.sweep s).2
      (v.sweep sweep k).2
    simp only [Value.sweepAll, hv, hnames, hrest, hnames', and_self]

end

/-- The class context is the same after names have been put back, and the names may be put back
afterwards too. -/
theorem resolution_rename {γ : Type} {unit : List Node} (hu : WellFormed unit)
    (names : List (Option Atom)) (s : Session γ) :
    resolution (rename names unit) s =
      (rename names (resolution unit s).1, (resolution unit s).2) := by
  obtain ⟨k, hk⟩ : ∃ k : Session Handout, k = { own := { names } } := ⟨_, rfl⟩
  have hrename : ∀ {nodes : List Node}, WellFormed nodes →
      rename names nodes = (sweepUnit sweep k nodes).1 := by
    intro nodes hnodes
    rw [hk]
    exact rename_eq_sweepUnit (s := { own := { names } }) hnodes rfl
  obtain ⟨hboth, -⟩ := sweepAll_exchange (unit.map .node)
    (by rw [preorderAll_nodes]; exact hu.sound) (s.withOwn {}).settled k
  simp only [Value.sweepAll_nodes, Prod.mk.injEq] at hboth
  rw [hrename hu, hrename (wellFormed_resolution hu s)]
  exact Prod.ext (List.map_injective_iff.mpr (fun _ _ => Value.node.inj) hboth.1) hboth.2

end Exchange

section Texts

variable {ignore : List Atom} {given : Atom → Prop} {spot : Spot} {named : Bool} {n m : Node}

theorem wellFormed_of_framed (hgiven : ∀ a, given a → ∃ t, a = .text t) (hn : n.WellFormed)
    (h : Node.Framed (Touched ignore given) spot named n m) : m.WellFormed where
  filled := h.filled hn.filled
  unshared := h.share_eq.trans hn.unshared
  admits f := by
    have hf := hn.admits f
    rw [h.kind_eq]
    refine (h.field f).admits (fun ht => ?_) hf
    obtain ⟨hitem, -, hname, hnew⟩ := ht
    obtain ⟨hk, -⟩ := Site.declared?_eq_some_iff.mp hitem
    obtain ⟨t, rfl⟩ := hgiven _ hnew
    rw [hname, show n.kind = .propertyItem from hk]
    rfl

theorem qualifiedName_of_framed (hn : n.WellFormed)
    (h : Node.Framed (Touched ignore given) spot named n m) :
    m.get .qualifiedName = n.get .qualifiedName := by
  obtain ⟨a, ha⟩ := hn.qualifiedName_atom
  have hfield := h.field .qualifiedName
  rw [ha] at hfield ⊢
  exact hfield.eq_of_atom nofun

variable {unit : List Node} (hu : WellFormed unit) {names : List (Option Atom)}
  (hnames : Spares ignore given (requests unit) names)

include hu hnames

theorem wellFormed_rename (hgiven : ∀ a, given a → ∃ t, a = .text t) :
    WellFormed (rename names unit) := by
  intro m hm
  obtain ⟨n, hn, _, _, h⟩ :=
    exists_mem_of_framed (framed_rename hu hnames) (fun n hn => (hu n hn).filled) hm
  exact wellFormed_of_framed hgiven (hu n hn) h

theorem knows_rename {t : ClassTable} (ht : t.Knows (preorder unit)) :
    t.Knows (preorder (rename names unit)) := by
  intro m hm id hk
  obtain ⟨n, hn, _, _, h⟩ :=
    exists_mem_of_framed (framed_rename hu hnames) (fun n hn => (hu n hn).filled) hm
  rw [qualifiedName_of_framed (hu n hn) h]
  exact ht n hn id (h.kind_eq ▸ hk)

end Texts

section Draws

variable {γ : Type}

/-- Drawings that differ in what has been logged only, and all of that is quiet. -/
structure Drawing.Alike (d d' : Drawing γ) : Prop where
  memory : d'.memory = d.memory
  map : d'.map = d.map
  given : d'.given = d.given
  quiet : d.log.Quiet
  quiet' : d'.log.Quiet

variable {t : Terms γ} {scope : ClassId → Scope} {d d' : Drawing γ}

theorem exists_key (m : RenameMap) (name : Atom) (scope : Scope) :
    ∃ key taken, m.key name (if m.perClass then some scope else none) = .ok key ∧
      m.replacements name (if m.perClass then some scope else none) = .ok taken := by
  have hkey := m.key_eq_propertyKey (fun _ => scope) default name
  by_cases hname : name = .nothing
  · exact ⟨_, _, hkey, by simp only [RenameMap.replacements, hname, if_true]; rfl⟩
  · exact ⟨_, _, hkey, replacements_eq_others m (fun _ => scope) default hname⟩

theorem Drawing.Alike.give (h : d.Alike d') (slot : Option Slot) (new : Option Atom) :
    (d.give slot new).Alike (d'.give slot new) := by
  unfold Drawing.give
  split
  · exact ⟨h.memory, h.map, congrArg (List.cons _) h.given, h.quiet, h.quiet'⟩
  · exact h

variable (scope) in
theorem Terms.draw_alike (hnotes : Names.Hushed t.supply) (h : d.Alike d') {name : Atom}
    {among : Option Scope} {key : Key} (hkey : d.map.key name among = .ok key) {taken : List Atom}
    (htaken : d.map.replacements name among = .ok taken) :
    (Terms.draw { t with scope } name among d').2 = (t.draw name among d).2 ∧
      (t.draw name among d).1.Alike (Terms.draw { t with scope } name among d').1 := by
  obtain ⟨log, hlog, hdraw⟩ := Terms.draw_quiet (t := t) h.quiet hkey htaken (hnotes _ _ _)
  obtain ⟨log', hlog', hdraw'⟩ := Terms.draw_quiet (t := { t with scope }) h.quiet'
    (h.map ▸ hkey) (h.map ▸ htaken) (hnotes _ _ _)
  rw [hdraw, hdraw', h.memory, h.map]
  dsimp only
  cases (t.supply name (t.reserved ++ taken) d.memory).name with
  | error e => exact ⟨rfl, rfl, rfl, h.given, hlog, hlog'⟩
  | ok new => exact ⟨rfl, rfl, rfl, h.given, hlog, hlog'⟩

theorem Terms.serve_alike (hnotes : Names.Hushed t.supply) (h : d.Alike d')
    (hscope : d.map.perClass = true → scope = t.scope) (q : Request) :
    (Terms.serve { t with scope } q d').2 = (t.serve q d).2 ∧
      (t.serve q d).1.Alike (Terms.serve { t with scope } q d').1 := by
  cases q with
  | bad e => exact ⟨rfl, h⟩
  | item owner name slot =>
    have hgiven : d'.given? slot = d.given? slot := by
      rw [Drawing.given?, Drawing.given?, h.given]
    obtain ⟨asked, hasked⟩ : ∃ asked, asked = (d.given? slot).getD name := ⟨_, rfl⟩
    simp only [Terms.serve, hgiven, ← hasked, h.map]
    by_cases hig : asked.isIn t.ignore = true
    · rw [if_pos hig, if_pos hig, write_ignored h.quiet asked,
        write_ignored h.quiet' asked]
      exact ⟨rfl, h.memory, rfl, h.given, h.quiet.add _, h.quiet'.add _⟩
    · have hamong : (if d.map.perClass = true then some (scope owner) else none) =
          if d.map.perClass = true then some (t.scope owner) else none := by
        split
        · rename_i hp
          rw [hscope hp]
        · rfl
      obtain ⟨key, taken, hkey, htaken⟩ := exists_key d.map asked (t.scope owner)
      obtain ⟨hsame, halike⟩ := Terms.draw_alike scope hnotes h hkey htaken
      rw [if_neg hig, if_neg hig, hamong]
      generalize t.draw asked _ d = o at hsame halike ⊢
      generalize Terms.draw { t with scope } asked _ d' = o' at hsame halike ⊢
      obtain ⟨e, new, fault⟩ := o
      obtain ⟨e', new', fault'⟩ := o'
      obtain ⟨rfl, rfl⟩ := Prod.mk.inj hsame
      exact ⟨rfl, halike.give slot new'⟩

/-- The same names are drawn whatever has been logged, and for a map that is not scoped whatever
stands for the classes. -/
theorem Terms.serveAll_alike (hnotes : Names.Hushed t.supply) (h : d.Alike d')
    (hscope : d.map.perClass = true → scope = t.scope) (qs : List Request) :
    (Terms.serveAll { t with scope } qs d').2 = (t.serveAll qs d).2 ∧
      (t.serveAll qs d).1.Alike (Terms.serveAll { t with scope } qs d').1 := by
  induction qs generalizing d d' with
  | nil => exact ⟨rfl, h⟩
  | cons q qs ih =>
    have hgrows := t.serve_grows q d
    obtain ⟨hsame, halike⟩ := Terms.serve_alike hnotes h hscope q
    rw [Terms.serveAll, Terms.serveAll]
    generalize t.serve q d = o at hgrows hsame halike ⊢
    generalize Terms.serve { t with scope } q d' = o' at hsame halike ⊢
    obtain ⟨e, name, fault⟩ := o
    obtain ⟨e', name', fault'⟩ := o'
    obtain ⟨rfl, rfl⟩ := Prod.mk.inj hsame
    cases fault' with
    | some e => exact ⟨rfl, halike⟩
    | none =>
      obtain ⟨hrest, halike'⟩ := ih halike fun hp => hscope (hgrows.perClass ▸ hp)
      exact ⟨congrArg (fun o => (name' :: o.1, o.2)) hrest, halike'⟩

theorem Terms.serve_fault (hnotes : Names.Hushed t.supply) (hq : d.log.Quiet) {owner : ClassId}
    {name : Atom} {slot : Option Slot} {e : Fault}
    (h : (t.serve (.item owner name slot) d).2.2 = some e) :
    ∃ asked taken, (t.supply asked taken d.memory).name = .error e := by
  obtain ⟨asked, hasked⟩ : ∃ asked, asked = (d.given? slot).getD name := ⟨_, rfl⟩
  simp only [Terms.serve, ← hasked] at h
  by_cases hig : asked.isIn t.ignore = true
  · rw [if_pos hig, write_ignored hq asked] at h
    cases h
  · obtain ⟨key, taken, hkey, htaken⟩ := exists_key d.map asked (t.scope owner)
    obtain ⟨log, -, hdraw⟩ := Terms.draw_quiet (t := t) hq hkey htaken (hnotes _ _ _)
    refine ⟨asked, t.reserved ++ taken, ?_⟩
    rw [if_neg hig, hdraw] at h
    dsimp only at h
    cases hname : (t.supply asked (t.reserved ++ taken) d.memory).name with
    | error e' =>
      rw [hname] at h
      exact congrArg Except.error (Option.some.inj h)
    | ok new =>
      rw [hname] at h
      cases h

theorem Terms.serveAll_fault (hnotes : Names.Hushed t.supply)
    (hstays : ∀ asked taken, (t.supply asked taken d.memory).memory = d.memory)
    (hq : d.log.Quiet) {qs : List Request} (hqs : ∀ q ∈ qs, ∀ e, q ≠ .bad e) {e : Fault}
    (h : (t.serveAll qs d).2.2 = some e) :
    ∃ asked taken, (t.supply asked taken d.memory).name = .error e := by
  induction qs generalizing d with
  | nil => cases h
  | cons q qs ih =>
    rw [List.forall_mem_cons] at hqs
    have hgrows := t.serve_grows q d
    have hfirst : ∀ e, (t.serve q d).2.2 = some e →
        ∃ asked taken, (t.supply asked taken d.memory).name = .error e := by
      intro e he
      cases q with
      | bad e => exact absurd rfl (hqs.1 e)
      | item owner name slot => exact Terms.serve_fault hnotes hq he
    rw [Terms.serveAll] at h
    generalize t.serve q d = o at hgrows hfirst h
    obtain ⟨d', name, fault⟩ := o
    cases fault with
    | some e' => exact hfirst e h
    | none =>
      have hmemory : d'.memory = d.memory := hgrows.memory hstays rfl
      have hquiet : d'.log.Quiet := hq.of_threshold hgrows.threshold
      rw [← hmemory] at hstays ⊢
      exact ih hstays hquiet hqs.2 h

end Draws

end Declarations

end PropertyRenaming
