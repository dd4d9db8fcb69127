import PropertyRenaming.Proofs.Outline

namespace PropertyRenaming

open List (Forall₂)

/-- A step of a walk: a node is entered, or it is left after all that is below it. -/
inductive Step
  | enter (n : Node)
  | leave (n : Node)

mutual

def Node.steps : Node → List Step
  | ⟨kind, place, fields⟩ =>
    .enter ⟨kind, place, fields⟩ :: (Value.stepsAll fields ++ [.leave ⟨kind, place, fields⟩])

def Value.steps : Value → List Step
  | .node n => n.steps
  | .list vs => if vs.all Value.isNode then Value.stepsAll vs else []
  | _ => []

def Value.stepsAll : List Value → List Step
  | [] => []
  | v :: vs => v.steps ++ Value.stepsAll vs

end

def steps (unit : List Node) : List Step := Value.stepsAll (unit.map .node)

/-- The innermost namespace around what is below a node. -/
def Node.home (n : Node) (outer : Option Node) : Option Node :=
  if n.kind = .namespaceBlock then some n else outer

/-- A node with what comes before it and what is above it. -/
structure Visit where
  /-- The steps before the node is entered, the latest first. -/
  past : List Step
  /-- The innermost namespace around the node. -/
  home : Option Node
  site : Site

mutual

def Node.visits (spot : Spot) (home : Option Node) (past : List Step) : Node → List Visit
  | ⟨kind, place, fields⟩ =>
    ⟨past, home, spot, ⟨kind, place, fields⟩⟩ ::
      Value.visitsAll (spot.under ⟨kind, place, fields⟩) (Node.home ⟨kind, place, fields⟩ home)
        (.enter ⟨kind, place, fields⟩ :: past) fields

def Value.visits (spot : Spot) (home : Option Node) (past : List Step) : Value → List Visit
  | .node n => n.visits spot home past
  | .list vs => if vs.all Value.isNode then Value.visitsAll spot home past vs else []
  | _ => []

def Value.visitsAll (spot : Spot) (home : Option Node) (past : List Step) : List Value → List Visit
  | [] => []
  | v :: vs => v.visits spot home past ++ Value.visitsAll spot home (v.steps.reverse ++ past) vs

end

/-- All nodes of a unit in pre-order, each with what comes before it and what is above it. -/
def visits (unit : List Node) : List Visit := Value.visitsAll {} none [] (unit.map .node)

section Structure

theorem Node.steps_eq (n : Node) :
    n.steps = .enter n :: (Value.stepsAll n.fields ++ [.leave n]) := by
  obtain ⟨kind, place, fields⟩ := n
  rw [Node.steps]

theorem Node.visits_eq (spot : Spot) (home : Option Node) (past : List Step) (n : Node) :
    n.visits spot home past = ⟨past, home, spot, n⟩ ::
      Value.visitsAll (spot.under n) (n.home home) (.enter n :: past) n.fields := by
  obtain ⟨kind, place, fields⟩ := n
  rw [Node.visits]

mutual

theorem Node.map_site_visits (spot : Spot) (home : Option Node) (past : List Step) : (n : Node) →
    (n.visits spot home past).map Visit.site = n.sites spot
  | ⟨kind, place, fields⟩ => by
    rw [Node.visits, Node.sites, List.map_cons, Value.map_site_visitsAll]

theorem Value.map_site_visits (spot : Spot) (home : Option Node) (past : List Step) :
    (v : Value) → (v.visits spot home past).map Visit.site = v.sites spot
  | .node n => by rw [Value.visits, Value.sites, Node.map_site_visits]
  | .list vs => by
    rw [Value.visits, Value.sites]
    split
    · exact Value.map_site_visitsAll spot home past vs
    · rfl
  | .atom _ | .object => by simp [Value.visits, Value.sites]

theorem Value.map_site_visitsAll (spot : Spot) (home : Option Node) (past : List Step) :
    (vs : List Value) → (Value.visitsAll spot home past vs).map Visit.site = Value.sitesAll spot vs
  | [] => by simp [Value.visitsAll, Value.sitesAll]
  | v :: vs => by
    rw [Value.visitsAll, Value.sitesAll, List.map_append, Value.map_site_visits,
      Value.map_site_visitsAll]

end

theorem map_site_visits (unit : List Node) : (visits unit).map Visit.site = sites unit := by
  rw [visits, Value.map_site_visitsAll, ← sites_eq_sitesAll]

/-- The steps before a visit are those that have been made on the way to it. -/
def Visit.Within (visit : Visit) (steps past : List Step) : Prop :=
  ∃ earlier later, steps = earlier ++ .enter visit.site.node :: later ∧
    visit.past = earlier.reverse ++ past

theorem Visit.Within.append {visit : Visit} {steps past : List Step} (before after : List Step)
    (h : visit.Within steps (before.reverse ++ past)) :
    visit.Within (before ++ (steps ++ after)) past := by
  obtain ⟨earlier, later, hsteps, hpast⟩ := h
  refine ⟨before ++ earlier, later ++ after, ?_, ?_⟩
  · simp [hsteps]
  · simp [hpast]

mutual

theorem Node.within_visits (spot : Spot) (home : Option Node) (past : List Step) : (n : Node) →
    ∀ visit ∈ n.visits spot home past, visit.Within n.steps past
  | ⟨kind, place, fields⟩, visit, hv => by
    rw [Node.visits, List.mem_cons] at hv
    rw [Node.steps]
    rcases hv with rfl | hv
    · exact ⟨[], _, rfl, rfl⟩
    · have hbelow := Value.within_visitsAll _ _ (.enter ⟨kind, place, fields⟩ :: past) fields
        visit hv
      exact Visit.Within.append [.enter ⟨kind, place, fields⟩] _ hbelow

theorem Value.within_visits (spot : Spot) (home : Option Node) (past : List Step) : (v : Value) →
    ∀ visit ∈ v.visits spot home past, visit.Within v.steps past
  | .node n, visit, hv => by
    rw [Value.visits] at hv
    rw [Value.steps]
    exact Node.within_visits spot home past n visit hv
  | .list vs, visit, hv => by
    rw [Value.visits] at hv
    rw [Value.steps]
    split at hv
    · rename_i hall
      rw [if_pos hall]
      exact Value.within_visitsAll spot home past vs visit hv
    · simp at hv
  | .atom _, visit, hv | .object, visit, hv => by simp [Value.visits] at hv

theorem Value.within_visitsAll (spot : Spot) (home : Option Node) (past : List Step) :
    (vs : List Value) →
    ∀ visit ∈ Value.visitsAll spot home past vs, visit.Within (Value.stepsAll vs) past
  | [], visit, hv => by simp [Value.visitsAll] at hv
  | v :: vs, visit, hv => by
    rw [Value.visitsAll, List.mem_append] at hv
    rw [Value.stepsAll]
    rcases hv with hv | hv
    · exact (Value.within_visits spot home past v visit hv).append [] _
    · have h := (Value.within_visitsAll spot home _ vs visit hv).append v.steps []
      rwa [List.append_nil] at h

end

theorem within_visits {unit : List Node} {visit : Visit} (h : visit ∈ visits unit) :
    ∃ later, steps unit = visit.past.reverse ++ .enter visit.site.node :: later := by
  obtain ⟨earlier, later, hsteps, hpast⟩ := Value.within_visitsAll _ _ _ _ visit h
  exact ⟨later, by rw [steps, hsteps, hpast]; simp⟩

def Step.node : Step → Node
  | .enter n | .leave n => n

@[simp] theorem Step.node_enter (n : Node) : (Step.enter n).node = n := rfl

@[simp] theorem Step.node_leave (n : Node) : (Step.leave n).node = n := rfl

mutual

theorem Node.node_mem_preorder_of_steps {step : Step} : (n : Node) → step ∈ n.steps →
    step.node ∈ n.preorder
  | ⟨kind, place, fields⟩, h => by
    rw [Node.steps, List.mem_cons, List.mem_append, List.mem_singleton] at h
    rw [Node.preorder, List.mem_cons]
    rcases h with rfl | h | rfl
    · exact Or.inl rfl
    · exact Or.inr (Value.node_mem_preorderAll_of_steps fields h)
    · exact Or.inl rfl

theorem Value.node_mem_preorder_of_steps {step : Step} : (v : Value) → step ∈ v.steps →
    step.node ∈ v.preorder
  | .node n, h => by
    rw [Value.steps] at h
    rw [Value.preorder]
    exact Node.node_mem_preorder_of_steps n h
  | .list vs, h => by
    rw [Value.steps] at h
    rw [Value.preorder]
    split at h
    · rename_i hall
      rw [if_pos hall]
      exact Value.node_mem_preorderAll_of_steps vs h
    · simp at h
  | .atom _, h | .object, h => by simp [Value.steps] at h

theorem Value.node_mem_preorderAll_of_steps {step : Step} : (vs : List Value) →
    step ∈ Value.stepsAll vs → step.node ∈ Value.preorderAll vs
  | [], h => by simp [Value.stepsAll] at h
  | v :: vs, h => by
    rw [Value.stepsAll, List.mem_append] at h
    rw [Value.preorderAll, List.mem_append]
    exact h.imp (Value.node_mem_preorder_of_steps v) (Value.node_mem_preorderAll_of_steps vs)

end

theorem node_mem_preorder_of_past {unit : List Node} {visit : Visit} (h : visit ∈ visits unit)
    {step : Step} (hstep : step ∈ visit.past) : step.node ∈ preorder unit := by
  obtain ⟨later, hsteps⟩ := within_visits h
  have hmem : step ∈ steps unit := by
    rw [hsteps]
    simp [hstep]
  rw [← preorderAll_nodes]
  exact Value.node_mem_preorderAll_of_steps _ hmem

end Structure

section InForce

/-- Whether a namespace begins or ends with a step. -/
def Step.isBoundary (step : Step) : Bool := step.node.kind == .namespaceBlock

/-- The namespace that a node declares; one without a name, or with an empty one, is the global
one. -/
def Node.declaredNs (n : Node) : Option String :=
  match n.get .name with
  | .str "" => none
  | .str name => some (ClassName.strip name)
  | _ => none

/-- The namespace that is open after some steps, the latest first: the one entered last, unless one
has been left since. -/
def openNamespace? (past : List Step) : Option Node :=
  match past.find? Step.isBoundary with
  | some (.enter n) => some n
  | _ => none

def nsAfter (past : List Step) : Option String := (openNamespace? past).bind Node.declaredNs

/-- What a node imports: the lower-cased name it is used under, and its full name. -/
def Node.import? (n : Node) : Option (String × String) :=
  if n.kind = .useImport then
    match n.get .name, n.get .shortName with
    | .str name, .str short => some (Text.lower short, ClassName.strip name)
    | .str name, .null =>
      some (Text.lower (ClassName.lastSegment (ClassName.strip name)), ClassName.strip name)
    | _, _ => none
  else none

def Step.import? : Step → Option (String × String)
  | .enter n => n.import?
  | .leave _ => none

/-- The imports since the latest end of a namespace, the latest first. -/
def importsAfter (past : List Step) : ClassName.Imports :=
  (past.takeWhile (!·.isBoundary)).filterMap Step.import?

def Step.turn : Step → Turn
  | .enter n => n.opening
  | .leave n => n.kind.closing

/-- The context that a walk has after some steps, the latest first. -/
def contextOf (past : List Step) : Context := past.foldr (fun step c => step.turn.step c) {}

theorem openNamespace?_cons_of_not_boundary {step : Step} (h : step.isBoundary = false)
    (past : List Step) : openNamespace? (step :: past) = openNamespace? past := by
  simp [openNamespace?, h]

theorem openNamespace?_cons_enter {n : Node} (h : n.kind = .namespaceBlock) (past : List Step) :
    openNamespace? (.enter n :: past) = some n := by
  simp [openNamespace?, Step.isBoundary, h]

theorem openNamespace?_cons_leave {n : Node} (h : n.kind = .namespaceBlock) (past : List Step) :
    openNamespace? (.leave n :: past) = none := by
  simp [openNamespace?, Step.isBoundary, h]

theorem importsAfter_cons (step : Step) (past : List Step) :
    importsAfter (step :: past) =
      if step.isBoundary then [] else step.import?.toList ++ importsAfter past := by
  unfold importsAfter
  cases hb : step.isBoundary with
  | true => simp [hb]
  | false => cases hi : step.import? <;> simp [hb, hi]

theorem Node.WellFormed.nsOf_eq {n : Node} (hn : n.WellFormed) (hk : n.kind = .namespaceBlock) :
    Context.nsOf (n.get .name) = .ok n.declaredNs := by
  have hname := hn.admits .name
  rw [hk] at hname
  rcases Content.admits_optionalText_iff.mp hname with h | ⟨name, h⟩
  · simp [Context.nsOf, Node.declaredNs, h, Value.holds, Atom.holds]
  · -- The empty name is a text too, but it does not count as one.
    by_cases he : name = ""
    · simp [Context.nsOf, Node.declaredNs, h, he, Value.holds, Atom.holds]
    · simp [Context.nsOf, Node.declaredNs, h, he, Value.holds, Atom.holds, Value.strippedName,
        Except.map]

theorem Node.WellFormed.addImport_eq {n : Node} (hn : n.WellFormed) (hk : n.kind = .useImport)
    (c : Context) : c.addImport (n.get .name) (n.get .shortName) =
      .ok { c with imports := n.import?.toList ++ c.imports } := by
  have hname := hn.admits .name
  have hshort := hn.admits .shortName
  rw [hk] at hname hshort
  obtain ⟨name, h⟩ := Content.admits_text_iff.mp hname
  rcases Content.admits_optionalText_iff.mp hshort with h' | ⟨short, h'⟩
  · simp [Context.addImport, Node.import?, hk, h, h', Value.strippedName, exposedName,
      Value.isNull, bind, Except.bind, Except.map, pure, Except.pure]
  · simp [Context.addImport, Node.import?, hk, h, h', Value.strippedName, exposedName,
      Value.isNull, bind, Except.bind, pure, Except.pure]

/-- What entering a well-formed node does to the namespace and the imports in force. -/
theorem Node.WellFormed.opening_inForce {n : Node} (hn : n.WellFormed) (c : Context) :
    (n.opening.step c).ns = (if n.kind = .namespaceBlock then n.declaredNs else c.ns) ∧
      (n.opening.step c).imports =
        if n.kind = .namespaceBlock then [] else n.import?.toList ++ c.imports := by
  change ((Context.openScope n c).toOption.getD c).ns = _ ∧
    ((Context.openScope n c).toOption.getD c).imports = _
  cases hk : n.kind with
  | namespaceBlock => simp [Context.openScope, hk, hn.nsOf_eq hk, Except.map, Except.toOption]
  | useImport => simp [Context.openScope, hk, hn.addImport_eq hk, Except.toOption]
  | _ => simp [Context.openScope, hk, Except.toOption, Node.import?]

/-- The context of a walk has the namespace and the imports that are in force. -/
theorem contextOf_inForce {past : List Step} (h : ∀ step ∈ past, step.node.WellFormed) :
    (contextOf past).ns = nsAfter past ∧ (contextOf past).imports = importsAfter past := by
  induction past with
  | nil => exact ⟨rfl, rfl⟩
  | cons step past ih =>
    obtain ⟨hns, himports⟩ := ih fun step' hstep => h step' (List.mem_cons_of_mem _ hstep)
    rw [importsAfter_cons]
    cases step with
    | enter n =>
      have hn : n.WellFormed := h (.enter n) List.mem_cons_self
      obtain ⟨hns', himports'⟩ := hn.opening_inForce (contextOf past)
      change (n.opening.step (contextOf past)).ns = _ ∧
        (n.opening.step (contextOf past)).imports = _
      rw [hns', himports', hns, himports]
      by_cases hk : n.kind = .namespaceBlock
      · simp [nsAfter, openNamespace?_cons_enter hk, Step.isBoundary, hk]
      · have hb : (Step.enter n).isBoundary = false := by simpa [Step.isBoundary] using hk
        simp [nsAfter, openNamespace?_cons_of_not_boundary hb, hb, hk, Step.import?]
    | leave n =>
      change (n.kind.closing.step (contextOf past)).ns = _ ∧
        (n.kind.closing.step (contextOf past)).imports = _
      by_cases hk : n.kind = .namespaceBlock
      · simp [nsAfter, openNamespace?_cons_leave hk, Step.isBoundary, hk, Kind.closing,
          Context.closeNamespace]
      · have hb : (Step.leave n).isBoundary = false := by simpa [Step.isBoundary] using hk
        rw [nsAfter, openNamespace?_cons_of_not_boundary hb, ← nsAfter, if_neg (by simp [hb]),
          ← hns, ← himports]
        cases hkind : n.kind <;> simp_all [Kind.closing, Step.import?]

mutual

theorem Node.turns_eq_map_steps : (n : Node) → n.turns = n.steps.map Step.turn
  | ⟨kind, place, fields⟩ => by
    rw [Node.turns, Node.steps, List.map_cons, List.map_append, Value.turnsAll_eq_map_steps]
    rfl

theorem Value.turns_eq_map_steps : (v : Value) → v.turns = v.steps.map Step.turn
  | .node n => by rw [Value.turns, Value.steps, Node.turns_eq_map_steps]
  | .list vs => by
    rw [Value.turns, Value.steps]
    split
    · exact Value.turnsAll_eq_map_steps vs
    · rfl
  | .atom _ | .object => by simp [Value.turns, Value.steps]

theorem Value.turnsAll_eq_map_steps : (vs : List Value) →
    Value.turnsAll vs = (Value.stepsAll vs).map Step.turn
  | [] => by simp [Value.turnsAll, Value.stepsAll]
  | v :: vs => by
    rw [Value.turnsAll, Value.stepsAll, List.map_append, Value.turns_eq_map_steps,
      Value.turnsAll_eq_map_steps]

end

theorem contextAfter_map_turn (made past : List Step) :
    contextAfter (made.map Step.turn) (contextOf past) = contextOf (made.reverse ++ past) := by
  induction made generalizing past with
  | nil => rfl
  | cons step made ih =>
    rw [List.map_cons, contextAfter, List.reverse_cons, List.append_assoc]
    exact ih (step :: past)

end InForce

section Home

def FlatNamespaces (unit : List Node) : Prop :=
  ∀ visit ∈ visits unit, visit.site.node.kind = .namespaceBlock → visit.home = none

instance (unit : List Node) : Decidable (FlatNamespaces unit) :=
  inferInstanceAs (Decidable (∀ visit ∈ visits unit, _ → _))

/-- The namespace that is open is the innermost one around, here and after what is walked next. -/
structure AtHome (home : Option Node) (past : List Step) (visits : List Visit)
    (steps : List Step) : Prop where
  visits : ∀ visit ∈ visits, openNamespace? visit.past = visit.home
  after : openNamespace? (steps.reverse ++ past) = home

mutual

theorem Node.atHome (spot : Spot) (home : Option Node) (past : List Step) : (n : Node) →
    (∀ visit ∈ n.visits spot home past, visit.site.node.kind = .namespaceBlock →
      visit.home = none) →
    openNamespace? past = home → AtHome home past (n.visits spot home past) n.steps
  | ⟨kind, place, fields⟩, hflat, hpast => by
    obtain ⟨n, hdef⟩ : ∃ n : Node, n = ⟨kind, place, fields⟩ := ⟨_, rfl⟩
    have hfields : fields = n.fields := by rw [hdef]
    rw [← hdef] at hflat ⊢
    rw [Node.visits_eq] at hflat ⊢
    rw [Node.steps_eq]
    have hhere := hflat _ List.mem_cons_self
    have hbelow := Value.atHomeAll (spot.under n) (n.home home) (.enter n :: past) fields
    rw [hfields] at hbelow
    have hbelow := hbelow fun visit hv => hflat visit (List.mem_cons_of_mem _ hv)
    by_cases hk : n.kind = .namespaceBlock
    · obtain ⟨hvisits, -⟩ := hbelow (by rw [openNamespace?_cons_enter hk, Node.home, if_pos hk])
      refine ⟨List.forall_mem_cons.mpr ⟨hpast, hvisits⟩, ?_⟩
      -- Leaving the namespace closes the one that was open outside, and there was none.
      rw [show home = none from hhere hk]
      simp [openNamespace?_cons_leave hk]
    · have hhome : n.home home = home := if_neg hk
      have henter : (Step.enter n).isBoundary = false := by simpa [Step.isBoundary] using hk
      have hleave : (Step.leave n).isBoundary = false := by simpa [Step.isBoundary] using hk
      rw [hhome] at hbelow ⊢
      obtain ⟨hvisits, hafter⟩ := hbelow (by
        rw [openNamespace?_cons_of_not_boundary henter, hpast])
      refine ⟨List.forall_mem_cons.mpr ⟨hpast, hvisits⟩, ?_⟩
      simpa [openNamespace?_cons_of_not_boundary hleave] using hafter

theorem Value.atHome (spot : Spot) (home : Option Node) (past : List Step) : (v : Value) →
    (∀ visit ∈ v.visits spot home past, visit.site.node.kind = .namespaceBlock →
      visit.home = none) →
    openNamespace? past = home → AtHome home past (v.visits spot home past) v.steps
  | .node n, hflat, hpast => by
    rw [Value.visits] at hflat ⊢
    rw [Value.steps]
    exact Node.atHome spot home past n hflat hpast
  | .list vs, hflat, hpast => by
    rw [Value.visits] at hflat ⊢
    rw [Value.steps]
    by_cases hall : vs.all Value.isNode
    · rw [if_pos hall] at hflat ⊢
      rw [if_pos hall]
      exact Value.atHomeAll spot home past vs hflat hpast
    · rw [if_neg hall, if_neg hall]
      exact ⟨by simp, hpast⟩
  | .atom _, _, hpast | .object, _, hpast => by
    simp only [Value.visits, Value.steps]
    exact ⟨by simp, hpast⟩

theorem Value.atHomeAll (spot : Spot) (home : Option Node) (past : List Step) :
    (vs : List Value) →
    (∀ visit ∈ Value.visitsAll spot home past vs, visit.site.node.kind = .namespaceBlock →
      visit.home = none) →
    openNamespace? past = home →
    AtHome home past (Value.visitsAll spot home past vs) (Value.stepsAll vs)
  | [], _, hpast => by
    simp only [Value.visitsAll, Value.stepsAll]
    exact ⟨by simp, hpast⟩
  | v :: vs, hflat, hpast => by
    rw [Value.visitsAll] at hflat ⊢
    rw [Value.stepsAll]
    obtain ⟨hvisits, hafter⟩ := Value.atHome spot home past v
      (fun visit hv => hflat visit (List.mem_append_left _ hv)) hpast
    obtain ⟨hvisits', hafter'⟩ := Value.atHomeAll spot home _ vs
      (fun visit hv => hflat visit (List.mem_append_right _ hv)) hafter
    refine ⟨fun visit hv => ?_, by simpa using hafter'⟩
    rcases List.mem_append.mp hv with hv | hv
    · exact hvisits visit hv
    · exact hvisits' visit hv

end

/-- Where namespaces are not nested, the one that is open is the innermost one around. -/
theorem FlatNamespaces.openNamespace?_eq {unit : List Node} (h : FlatNamespaces unit)
    {visit : Visit} (hv : visit ∈ visits unit) : openNamespace? visit.past = visit.home :=
  (Value.atHomeAll {} none [] (unit.map .node) h rfl).visits visit hv

end Home

end PropertyRenaming
