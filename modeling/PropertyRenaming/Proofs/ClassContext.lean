import PropertyRenaming.Proofs.Visits

namespace PropertyRenaming

open List (Forall₂)

/-- The class names among the nodes that a field leads to, by their texts; other nodes count as
none. -/
def Value.childNames (v : Value) : List (Option String) :=
  v.children.map fun n => (Value.node n).tokenText?

/-- How a node is left, by what is in force when it is entered. -/
structure Met (visit : Visit) (after : Site) : Prop where
  kind : after.node.kind = visit.site.node.kind
  wellFormed : after.node.WellFormed
  ns : after.node.place.ns = (contextOf visit.past).ns
  qualifiedName : after.node.get .qualifiedName =
    (((contextOf visit.past).naming? visit.site.node).map Prod.snd).getD
      (visit.site.node.get .qualifiedName)
  reference {f : Field} : visit.site.node.kind.reference? = some f →
    (after.node.get f).tokenText? = (visit.site.node.get f).tokenText?.map
      (ClassName.resolve (contextOf visit.past).ns (contextOf visit.past).imports)
  kept {f : Field} : (visit.site.node.kind.reference? = some f →
      (visit.site.node.get f).token? = none) →
    (after.node.get f).childNames = (visit.site.node.get f).childNames

theorem Node.WellFormed.qualifiedName_atom {n : Node} (hn : n.WellFormed) :
    ∃ a, n.get .qualifiedName = .atom a := by
  have hq := hn.admits .qualifiedName
  cases hk : n.kind with
  | classDecl id =>
    rw [hk] at hq
    rcases Content.admits_optionalText_iff.mp hq with h | ⟨name, h⟩ <;> exact ⟨_, h⟩
  | _ => exact ⟨.nothing, Node.get_of_not_mem (by simp [hk, Kind.fields])⟩

section Dressed

namespace Context

variable {n : Node}

theorem tokenText?_sweep (s : Session Context) (n : Node) :
    (Value.node (n.sweep sweep s).1).tokenText? = (Value.node n).tokenText? := by
  obtain ⟨u, hu⟩ := get_dressed (f := .value) (by decide) n s (sweep.opened n s)
  have hvalue : ((n.sweep sweep s).1.get .value).str? = (n.get .value).str? := by
    rw [Node.sweep_eq, hu, Value.str?_sweep]
  by_cases hk : n.kind = .className
  · simp [Value.tokenText?, Value.token?, hk, hvalue]
  · simp [Value.tokenText?, Value.token?, hk]

theorem childNames_sweepUnit (s : Session Context) (ns : List Node) :
    (sweepUnit sweep s ns).1.map (fun n => (Value.node n).tokenText?) =
      ns.map fun n => (Value.node n).tokenText? := by
  induction ns generalizing s with
  | nil => rfl
  | cons n ns ih => rw [sweepUnit, List.map_cons, List.map_cons, tokenText?_sweep, ih]

theorem childNames_sweep (s : Session Context) (v : Value) :
    (v.sweep sweep s).1.childNames = v.childNames := by
  cases v with
  | node n => simp [Value.sweep, Value.childNames, Value.children, tokenText?_sweep]
  | list vs =>
    rw [Value.sweep]
    split
    · rename_i hall
      obtain ⟨ns, hns⟩ := Option.isSome_iff_exists.mp (Value.all_isNode_eq vs ▸ hall)
      obtain rfl := Value.nodesOf?_eq_some_iff.mp hns
      have hswept : Value.nodesOf? ((sweepUnit sweep s ns).1.map .node) =
          some (sweepUnit sweep s ns).1 := Value.nodesOf?_eq_some_iff.mpr rfl
      rw [Value.sweepAll_nodes]
      simp only [Value.childNames, Value.children, hns, hswept, Option.getD_some,
        childNames_sweepUnit]
    · rfl
  | _ => simp [Value.sweep]

theorem qualifiedName_dressed (hn : n.WellFormed) (s t : Session Context) :
    (sweep.dressed n s (Value.sweepAll sweep t n.fields).1).get .qualifiedName =
      ((s.own.naming? n).map Prod.snd).getD (n.get .qualifiedName) := by
  change (Node.patched _ (s.own.namePatches n ++ s.own.referencePatches n.kind)).get _ = _
  rw [Node.patched_append, Node.get_patched_of_ne]
  · cases hnaming : s.own.naming? n with
    | none =>
      obtain ⟨u, hu⟩ := Node.get_sweepAll sweep t n (sweep.place n s) .qualifiedName
      obtain ⟨a, ha⟩ := hn.qualifiedName_atom
      rw [ha, Value.sweep_atom] at hu
      rw [namePatches, hnaming, ha]
      exact hu
    | some e =>
      obtain ⟨hk, -⟩ := naming?_text hn hnaming
      have hfilled := hn.filled.refill (sweep.place n s) (Value.length_sweepAll sweep t n.fields)
      rw [namePatches, hnaming]
      exact hfilled.get_set_self (by rw [hk]; simp [Kind.fields]) _
  · intro p hp
    rcases fst_of_mem_referencePatches hp with h | h | h <;> simp [h]

theorem childNames_dressed (hn : n.WellFormed) {f : Field}
    (hf : n.kind.reference? = some f → (n.get f).token? = none) (s t : Session Context) :
    ((sweep.dressed n s (Value.sweepAll sweep t n.fields).1).get f).childNames =
      (n.get f).childNames := by
  by_cases href : n.kind.reference? = some f
  · obtain ⟨u, hu⟩ := get_reference_dressed hn.filled href s t
    rw [hu, settle_of_token?_eq_none _ (Value.token?_sweep sweep u (hf href)), childNames_sweep]
  · by_cases hq : f = .qualifiedName
    · -- This field may change, but it never holds a node.
      subst hq
      obtain ⟨a, ha⟩ := hn.qualifiedName_atom
      rw [qualifiedName_dressed hn, ha]
      cases hnaming : s.own.naming? n with
      | none => rfl
      | some e =>
        obtain ⟨-, full, he⟩ := naming?_text hn hnaming
        simp [he, Value.childNames, Value.children]
    · obtain ⟨u, hu⟩ := get_dressed_of_ne hq href s t
      rw [hu, childNames_sweep]

end Context

end Dressed

theorem Context.Respelled.met {visit : Visit} {y z : Site} (h : Met visit y)
    (hyz : Context.Respelled y z) : Met visit z := by
  rcases hyz with rfl | ⟨hk, text, rfl⟩
  · exact h
  · have hget : ∀ g, Field.value ≠ g → (y.node.set .value (.str text)).get g = y.node.get g :=
      fun g hg => Node.get_set_of_ne hg _ _
    have hwf : (y.node.set .value (.str text)).WellFormed := h.wellFormed.set (by rw [hk]; rfl)
    exact {
      kind := by rw [Node.kind_set, h.kind]
      wellFormed := hwf
      ns := by rw [Node.place_set, h.ns]
      qualifiedName := by rw [hget _ (by decide), h.qualifiedName]
      reference := fun hf => by rw [← h.kind, hk] at hf; cases hf
      kept := fun {f} hf => by
        rw [← h.kept hf]
        by_cases hv : f = .value
        · subst hv
          obtain ⟨old, hold⟩ := h.wellFormed.token_text hk
          obtain ⟨new, hnew⟩ := hwf.token_text (by rw [Node.kind_set, hk])
          rw [hold, hnew]
          rfl
        · rw [hget f (Ne.symm hv)] }

theorem forall₂_respelled {visits : List Visit} {ys zs : List Site} (h : Forall₂ Met visits ys)
    (hyz : Forall₂ Context.Respelled ys zs) : Forall₂ Met visits zs := by
  induction h generalizing zs with
  | nil =>
    cases hyz
    exact .nil
  | cons hmet _ ih =>
    cases hyz with
    | cons hz hzs => exact .cons (hz.met hmet) (ih hzs)

mutual

theorem Node.met_visits (spot : Spot) (home : Option Node) (past : List Step) : (n : Node) →
    (s : Session Context) → (∀ m ∈ n.preorder, m.Sound) → s.own = contextOf past →
    Forall₂ Met (n.visits spot home past) ((n.sweep Context.sweep s).1.sites spot)
  | ⟨kind, place, fields⟩, s, hn, hs => by
    obtain ⟨n, hdef⟩ : ∃ n : Node, n = ⟨kind, place, fields⟩ := ⟨_, rfl⟩
    have hfields : fields = n.fields := by rw [hdef]
    have hsound : n.Sound := hdef ▸ hn _ (by simp [Node.preorder])
    have hopened : (Context.sweep.opened n s).own = contextOf (.enter n :: past) := by
      rw [show (Context.sweep.opened n s).own = n.opening.step s.own from rfl, hs]
      rfl
    have hbelow := Value.met_visitsAll (spot.under n) (n.home home) (.enter n :: past) fields
      (Context.sweep.opened n s) (fun m hm => hn m (by simp [Node.preorder, hm])) hopened
    rw [hfields] at hbelow
    rw [← hdef, Node.visits_eq, Node.sites_eq, Node.sweep_eq,
      Context.under_dressed spot hsound.wellFormed]
    -- The class name that the node refers to is below it, and is written out after it was met.
    refine .cons ?_ (forall₂_respelled hbelow (Context.respelled_dressed hsound _ s _))
    exact {
      kind := Sweep.kind_dressed ..
      wellFormed := Context.wellFormed_dressed hsound.wellFormed s _
      ns := by
        rw [Sweep.place_dressed, ← hs]
        rfl
      qualifiedName := by rw [← hs, Context.qualifiedName_dressed hsound.wellFormed]
      reference := fun hf => by rw [← hs, Context.tokenText?_reference hsound hf]
      kept := fun hf => Context.childNames_dressed hsound.wellFormed hf s _ }

theorem Value.met_visits (spot : Spot) (home : Option Node) (past : List Step) : (v : Value) →
    (s : Session Context) → (∀ m ∈ v.preorder, m.Sound) → s.own = contextOf past →
    Forall₂ Met (v.visits spot home past) ((v.sweep Context.sweep s).1.sites spot)
  | .node n, s, hv, hs => by
    rw [Value.preorder] at hv
    exact Node.met_visits spot home past n s hv hs
  | .list vs, s, hv, hs => by
    rw [Value.sweep, Value.visits]
    rw [Value.preorder] at hv
    by_cases hall : vs.all Value.isNode
    · rw [if_pos hall] at hv ⊢
      rw [if_pos hall, Value.sites, if_pos (Value.all_isNode_sweepAll _ s hall)]
      exact Value.met_visitsAll spot home past vs s hv hs
    · simp [hall, Value.sites]
  | .atom _, s, hv, hs | .object, s, hv, hs => by simp [Value.sweep, Value.sites, Value.visits]

theorem Value.met_visitsAll (spot : Spot) (home : Option Node) (past : List Step) :
    (vs : List Value) → (s : Session Context) → (∀ m ∈ Value.preorderAll vs, m.Sound) →
    s.own = contextOf past → Forall₂ Met (Value.visitsAll spot home past vs)
      (Value.sitesAll spot (Value.sweepAll Context.sweep s vs).1)
  | [], s, hvs, hs => .nil
  | v :: vs, s, hvs, hs => by
    rw [Value.visitsAll, Value.sweepAll, Value.sitesAll]
    rw [Value.preorderAll] at hvs
    refine List.rel_append ?_ ?_
    · exact Value.met_visits spot home past v s (fun m hm => hvs m (List.mem_append_left _ hm)) hs
    · refine Value.met_visitsAll spot home _ vs _
        (fun m hm => hvs m (List.mem_append_right _ hm)) ?_
      have hown := (Value.follows_sweep Context.follows s v).own
      simp only [id] at hown
      rw [hown, hs, Value.turns_eq_map_steps, contextAfter_map_turn]

end

theorem met_visits {γ : Type} {unit : List Node} (hu : WellFormed unit) (s : Session γ) :
    Forall₂ Met (visits unit) (sites (resolution unit s).1) := by
  have h := Value.met_visitsAll {} none [] (unit.map .node) (s.withOwn {}).settled
    (by rw [preorderAll_nodes]; exact hu.sound) rfl
  rwa [Value.sweepAll_nodes, ← sites_eq_sitesAll] at h

theorem resolved_visits {γ : Type} {unit : List Node} (hu : WellFormed unit) (s : Session γ) :
    Forall₂ (fun visit after => visit ∈ visits unit ∧ Resolved visit.site after ∧ Met visit after)
      (visits unit) (sites (resolution unit s).1) := by
  have hsites : Forall₂ (fun visit after => Resolved visit.site after) (visits unit)
      (sites (resolution unit s).1) := by
    rw [← List.forall₂_map_left_iff, map_site_visits]
    exact resolved_sites hu s
  exact (List.forall₂_and_left _ _).mpr ⟨fun _ hv => hv,
    hsites.mp (fun _ _ hr hm => ⟨hr, hm⟩) (met_visits hu s)⟩

/-- The context at a visit of a well-formed unit is the one in force there. -/
theorem WellFormed.contextOf_past {unit : List Node} (hu : WellFormed unit) {visit : Visit}
    (hv : visit ∈ visits unit) :
    (contextOf visit.past).ns = nsAfter visit.past ∧
      (contextOf visit.past).imports = importsAfter visit.past :=
  contextOf_inForce fun _ hstep => hu _ (node_mem_preorder_of_past hv hstep)

theorem Context.qualified_str (ns : Option String) (name : String) :
    qualified ns (.str name) = .str (ClassName.qualify ns name) := by
  unfold qualified ClassName.qualify
  split <;> simp_all [Value.spelling, Atom.spelling]

/-- Where a node is placed, and what a class is named. -/
structure Placed (visit : Visit) (after : Site) : Prop where
  spot : after.spot = visit.site.spot
  kind : after.node.kind = visit.site.node.kind
  /-- The innermost class around the node. -/
  enclosing : after.node.place.enclosing = visit.site.spot.owner
  /-- The namespace in force when the node is entered. -/
  ns : after.node.place.ns = nsAfter visit.past
  named {id : ClassId} {name : String} : visit.site.node.kind = .classDecl id →
    visit.site.node.get .name = .str name →
    after.node.get .qualifiedName = .str (ClassName.qualify (nsAfter visit.past) name)
  unnamed {id : ClassId} : visit.site.node.kind = .classDecl id →
    visit.site.node.get .name = .null →
    after.node.get .qualifiedName = visit.site.node.get .qualifiedName

theorem Met.placed {visit : Visit} {after : Site} (hmet : Met visit after)
    (hres : Resolved visit.site after) (hns : (contextOf visit.past).ns = nsAfter visit.past) :
    Placed visit after where
  spot := hres.spot
  kind := hres.kind
  enclosing := hres.enclosing
  ns := by rw [hmet.ns, hns]
  named hk hname := by
    rw [hmet.qualifiedName, ← hns, ← Context.qualified_str]
    simp [Context.naming?, hk, hname, Value.isNull]
  unnamed hk hname := by
    rw [hmet.qualifiedName]
    simp [Context.naming?, hk, hname, Value.isNull]

theorem classes_own_resolution {γ : Type} (unit : List Node) (s : Session γ) :
    (resolution unit s).2.own.classes = [] := by
  have h := Context.classes_sweepAll (s.withOwn {}).settled (unit.map .node)
  rw [Value.sweepAll_nodes] at h
  exact h

/-- A walk for the class context places every node of a unit. -/
theorem traverse_places {limit : Nat} {unit : List Node} (hu : WellFormed unit)
    (hd : depth unit ≤ limit) {s : Session Context} (hs : s.log.Quiet) :
    ∃ nodes, (traverse limit [Context.visitor] unit s).reply = .ok nodes ∧
      (traverse limit [Context.visitor] unit s).subject = nodes ∧
      (traverse limit [Context.visitor] unit s).session.own.classes = [] ∧
      Forall₂ Placed (visits unit) (sites nodes) ∧
      (FlatNamespaces unit → Forall₂ (fun visit after =>
        after.node.place.ns = visit.home.bind Node.declaredNs) (visits unit) (sites nodes)) := by
  rw [traverse_visitor_eq hu hd hs]
  refine ⟨_, rfl, rfl, classes_own_resolution unit s, ?_, fun hflat => ?_⟩
  · refine (resolved_visits hu s).imp fun visit after ⟨hv, hres, hmet⟩ => ?_
    exact hmet.placed hres (hu.contextOf_past hv).1
  · refine (resolved_visits hu s).imp fun visit after ⟨hv, _, hmet⟩ => ?_
    rw [hmet.ns, (hu.contextOf_past hv).1, nsAfter, hflat.openNamespace?_eq hv]

section Sample

def spacedUnit : List Node :=
  [⟨.namespaceBlock, {}, [.str "\\App\\Model\\", .list
      [.node ⟨.classDecl 0, {}, [.str "Point", .list
        [.node ⟨.exprStmt, {}, [.node ⟨.classDecl 1, {}, [.null, .list
          [.node ⟨.returnStmt, {}, [.null]⟩], .null, .str "kept"]⟩]⟩], .null, .null]⟩]]⟩,
    ⟨.classDecl 2, {}, [.str "Tail", .list [], .null, .null]⟩]

theorem traverse_places_spacedUnit :
    WellFormed spacedUnit ∧ depth spacedUnit ≤ 5 ∧ Log.Quiet {} ∧ FlatNamespaces spacedUnit ∧
    ∃ nodes, (traverse 5 [Context.visitor] spacedUnit { own := {} }).reply = .ok nodes ∧
      (traverse 5 [Context.visitor] spacedUnit { own := {} }).subject = nodes ∧
      (traverse 5 [Context.visitor] spacedUnit { own := {} }).session.own.classes = [] ∧
      Forall₂ Placed (visits spacedUnit) (sites nodes) ∧
      Forall₂ (fun visit after => after.node.place.ns = visit.home.bind Node.declaredNs)
        (visits spacedUnit) (sites nodes) := by
  have hu : WellFormed spacedUnit := by decide
  have hd : depth spacedUnit ≤ 5 := by decide
  have hflat : FlatNamespaces spacedUnit := by decide
  obtain ⟨nodes, hreply, hsubject, hclasses, hplaced, hhome⟩ :=
    traverse_places hu hd (s := { own := {} }) (by decide)
  exact ⟨hu, hd, by decide, hflat, nodes, hreply, hsubject, hclasses, hplaced, hhome hflat⟩

def emptyNamespace : List Node :=
  [⟨.namespaceBlock, {}, [.str "", .list [.node ⟨.returnStmt, {}, [.null]⟩]]⟩]

/-- Inside a namespace with an empty name there is no namespace in force, not even an empty one. -/
theorem traverse_emptyNamespace : WellFormed emptyNamespace ∧ ∃ nodes visit after,
    (traverse 2 [Context.visitor] emptyNamespace { own := {} }).reply = .ok nodes ∧
      (visits emptyNamespace)[1]? = some visit ∧ (sites nodes)[1]? = some after ∧
      (openNamespace? visit.past).map (fun n => (n.get .name).str?.map ClassName.strip) =
        some (some "") ∧
      after.node.place.ns = none ∧ after.node.place.ns ≠ some (ClassName.strip "") := by
  refine ⟨by decide, _, _, _, rfl, rfl, rfl, rfl, rfl, nofun⟩

end Sample

end PropertyRenaming
