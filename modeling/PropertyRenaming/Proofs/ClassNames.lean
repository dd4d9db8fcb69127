import PropertyRenaming.Proofs.ClassContext
import PropertyRenaming.Proofs.Fetches

namespace PropertyRenaming

open List (Forall₂)

section Spelling

/-- A name is imported, as the latest under its key, and no namespace has begun or ended since. -/
def ImportInForce (past : List Step) (key full : String) : Prop :=
  ∃ later n earlier, past = later ++ .enter n :: earlier ∧ n.import? = some (key, full) ∧
    ∀ step ∈ later, step.isBoundary = false ∧ ∀ full', step.import? ≠ some (key, full')

theorem Node.kind_of_import? {n : Node} {e : String × String} (h : n.import? = some e) :
    n.kind = .useImport := by
  by_contra hk
  simp [Node.import?, hk] at h

theorem lookup_importsAfter {past : List Step} {key full : String} :
    (importsAfter past).lookup key = some full ↔ ImportInForce past key full := by
  induction past with
  | nil => simp [importsAfter, ImportInForce]
  | cons step past ih =>
    rw [importsAfter_cons]
    constructor
    · intro h
      cases hb : step.isBoundary with
      | true => simp [hb] at h
      | false =>
        -- An import under another key, or no import at all, leaves the search to the steps before.
        have hbefore : (∀ full', step.import? ≠ some (key, full')) →
            ImportInForce past key full → ImportInForce (step :: past) key full := by
          rintro hother ⟨later, n, earlier, rfl, hn, hlater⟩
          exact ⟨step :: later, n, earlier, rfl, hn,
            List.forall_mem_cons.mpr ⟨⟨hb, hother⟩, hlater⟩⟩
        cases hi : step.import? with
        | none =>
          refine hbefore (by simp [hi]) (ih.mp ?_)
          simpa [hb, hi] using h
        | some e =>
          obtain ⟨key', full'⟩ := e
          by_cases hkey : key = key'
          · subst hkey
            obtain rfl : full' = full := by simpa [hb, hi] using h
            cases step with
            | enter n => exact ⟨[], n, past, rfl, hi, by simp⟩
            | leave n => cases hi
          · refine hbefore (by simp [hi, Ne.symm hkey]) (ih.mp ?_)
            simpa [hb, hi, List.lookup_cons, beq_false_of_ne hkey] using h
    · rintro ⟨later, n, earlier, hpast, hn, hlater⟩
      cases later with
      | nil =>
        obtain ⟨rfl, rfl⟩ := List.cons_eq_cons.mp hpast
        have hb : (Step.enter n).isBoundary = false := by
          simp [Step.isBoundary, Node.kind_of_import? hn]
        simp [hb, Step.import?, hn]
      | cons step' later =>
        obtain ⟨rfl, rfl⟩ := List.cons_eq_cons.mp hpast
        obtain ⟨⟨hb, hother⟩, hlater⟩ := List.forall_mem_cons.mp hlater
        have hfound := ih.mpr ⟨later, n, earlier, rfl, hn, hlater⟩
        cases hi : step.import? with
        | none => simpa [hb, hi] using hfound
        | some e =>
          obtain ⟨key', full'⟩ := e
          have hkey : key ≠ key' := fun hkey => hother full' (by rw [hi, hkey])
          simpa [hb, hi, List.lookup_cons, beq_false_of_ne hkey] using hfound

/-- How a class name is written out after some steps. -/
inductive WrittenOut (past : List Step) (name : String) : String → Prop
  | kept : ClassName.isSpecial name = true ∨ ClassName.isFullyQualified name = true →
    WrittenOut past name name
  | imported {full : String} : ClassName.isSpecial name = false →
    ClassName.isFullyQualified name = false →
    ImportInForce past (Text.lower (ClassName.cut name).1) full →
    WrittenOut past name ("\\" ++
      if (ClassName.cut name).2 = "" then full else ClassName.join full (ClassName.cut name).2)
  | inNamespace : ClassName.isSpecial name = false → ClassName.isFullyQualified name = false →
    (∀ full, ¬ImportInForce past (Text.lower (ClassName.cut name).1) full) →
    WrittenOut past name ("\\" ++ ClassName.qualify (nsAfter past) name)

theorem writtenOut_resolve (past : List Step) (name : String) :
    WrittenOut past name (ClassName.resolve (nsAfter past) (importsAfter past) name) := by
  unfold ClassName.resolve
  split
  · rename_i h
    exact .kept (by simpa using h)
  · rename_i h
    obtain ⟨hspecial, hfull⟩ : ClassName.isSpecial name = false ∧
        ClassName.isFullyQualified name = false := by simpa using h
    dsimp only
    cases hi : (importsAfter past).lookup (Text.lower (ClassName.cut name).1) with
    | some full => exact .imported hspecial hfull (lookup_importsAfter.mp hi)
    | none =>
      refine .inNamespace hspecial hfull fun full h => ?_
      rw [lookup_importsAfter.mpr h] at hi
      cases hi

/-- The class names below a node: the one it refers to is written out, and no other one changes. -/
structure Spelled (visit : Visit) (after : Site) : Prop where
  reference {f : Field} {name : String} : visit.site.node.kind.reference? = some f →
    (visit.site.node.get f).tokenText? = some name →
    ∃ full, (after.node.get f).tokenText? = some full ∧ WrittenOut visit.past name full
  kept {f : Field} : (visit.site.node.kind.reference? = some f →
      (visit.site.node.get f).token? = none) →
    (after.node.get f).childNames = (visit.site.node.get f).childNames

theorem Met.spelled {visit : Visit} {after : Site} (hmet : Met visit after)
    (hcontext : (contextOf visit.past).ns = nsAfter visit.past ∧
      (contextOf visit.past).imports = importsAfter visit.past) : Spelled visit after where
  reference hf hname := by
    refine ⟨_, ?_, writtenOut_resolve visit.past _⟩
    rw [hmet.reference hf, hname, hcontext.1, hcontext.2, Option.map_some]
  kept := hmet.kept

end Spelling

section Numbers

/-- Each class has a number of its own, under which its qualified name can be found. -/
structure Numbered (unit : List Node) (t : ClassTable) : Prop where
  distinct : ((preorder unit).filterMap fun n => n.kind.classId?).Nodup
  known {n : Node} {id : ClassId} : n ∈ preorder unit → n.kind = .classDecl id →
    t.names[id]? = some (n.get .qualifiedName)

theorem Kind.classId?_eq_some_iff {kind : Kind} {id : ClassId} :
    kind.classId? = some id ↔ kind = .classDecl id := by
  cases kind <;> simp [Kind.classId?]

/-- What numbering the classes among some nodes makes of a table: the names known before stay, and
each class gets a number that no class had. -/
structure Numbers (t t' : ClassTable) (nodes : List Node) : Prop where
  grows : t.names <+: t'.names
  fresh {n : Node} {id : ClassId} : n ∈ nodes → n.kind = .classDecl id → t.names.length ≤ id
  known {n : Node} {id : ClassId} : n ∈ nodes → n.kind = .classDecl id →
    t'.names[id]? = some (n.get .qualifiedName)
  distinct : (nodes.filterMap fun n => n.kind.classId?).Nodup

theorem numbers_nil (t : ClassTable) : Numbers t t [] where
  grows := List.prefix_rfl
  fresh h := by simp at h
  known h := by simp at h
  distinct := by simp

theorem Numbers.append {t t' t'' : ClassTable} {ns ms : List Node} (h : Numbers t t' ns)
    (h' : Numbers t' t'' ms) : Numbers t t'' (ns ++ ms) where
  grows := h.grows.trans h'.grows
  fresh {n id} hn hk := by
    rcases List.mem_append.mp hn with hn | hn
    · exact h.fresh hn hk
    · exact h.grows.length_le.trans (h'.fresh hn hk)
  known {n id} hn hk := by
    rcases List.mem_append.mp hn with hn | hn
    · have hold := h.known hn hk
      obtain ⟨rest, hrest⟩ := h'.grows
      rw [← hrest, List.getElem?_append_left (List.getElem?_eq_some_iff.mp hold).1, hold]
    · exact h'.known hn hk
  distinct := by
    rw [List.filterMap_append, List.nodup_append]
    refine ⟨h.distinct, h'.distinct, ?_⟩
    rintro id hid _ hid' rfl
    obtain ⟨n, hn, hk⟩ := List.mem_filterMap.mp hid
    obtain ⟨m, hm, hk'⟩ := List.mem_filterMap.mp hid'
    -- The classes on the left are known before those on the right get their numbers.
    have hlt := (List.getElem?_eq_some_iff.mp (h.known hn (Kind.classId?_eq_some_iff.mp hk))).1
    exact absurd hlt (Nat.not_lt.mpr (h'.fresh hm (Kind.classId?_eq_some_iff.mp hk')))

theorem Numbers.classDecl {t t' : ClassTable} {place : Place} {fields : List Value}
    (h : Numbers t.register.2 t' (Value.preorderAll fields)) :
    Numbers t (t'.setName t.names.length
        (Node.get ⟨.classDecl t.names.length, place, fields⟩ .qualifiedName))
      (Node.preorder ⟨.classDecl t.names.length, place, fields⟩) := by
  have hlater : ∀ {n : Node} {id : ClassId}, n ∈ Value.preorderAll fields →
      n.kind = .classDecl id → t.names.length < id := fun hn hk => by
    simpa [ClassTable.register] using h.fresh hn hk
  obtain ⟨rest, hrest⟩ := h.grows
  -- Its name is filled in last, over what stood for it while the classes below were numbered.
  have hnames : t'.names = t.names ++ .null :: rest := by simp [← hrest, ClassTable.register]
  rw [Node.preorder]
  refine ⟨?_, ?_, ?_, ?_⟩
  · simp [ClassTable.setName, hnames]
  · intro n id hn hk
    rcases List.mem_cons.mp hn with rfl | hn
    · exact (Kind.classDecl.inj hk).le
    · exact (hlater hn hk).le
  · intro n id hn hk
    rcases List.mem_cons.mp hn with rfl | hn
    · obtain rfl := Kind.classDecl.inj hk
      simp [ClassTable.setName, hnames]
    · rw [ClassTable.setName, List.getElem?_set_ne (hlater hn hk).ne]
      exact h.known hn hk
  · rw [List.filterMap_cons]
    refine List.nodup_cons.mpr ⟨fun hmem => ?_, h.distinct⟩
    obtain ⟨n, hn, hk⟩ := List.mem_filterMap.mp hmem
    exact lt_irrefl _ (hlater hn (Kind.classId?_eq_some_iff.mp hk))

theorem Numbers.cons {t t' : ClassTable} {n : Node} (hn : ∀ id, n.kind ≠ .classDecl id)
    (h : Numbers t t' (Value.preorderAll n.fields)) : Numbers t t' n.preorder := by
  rw [Node.preorder_eq]
  refine ⟨h.grows, ?_, ?_, ?_⟩
  · intro m id hm hk
    rcases List.mem_cons.mp hm with rfl | hm
    · exact absurd hk (hn id)
    · exact h.fresh hm hk
  · intro m id hm hk
    rcases List.mem_cons.mp hm with rfl | hm
    · exact absurd hk (hn id)
    · exact h.known hm hk
  · have hnone : n.kind.classId? = none := by
      rw [Option.eq_none_iff_forall_ne_some]
      exact fun id hid => hn id (Kind.classId?_eq_some_iff.mp hid)
    rw [List.filterMap_cons]
    simpa only [hnone] using h.distinct

mutual

theorem Value.numbers_renumber (t : ClassTable) : (v : Value) →
    Numbers t (v.renumber t).2 (v.renumber t).1.preorder
  | .node n => by
    rw [Value.renumber, Value.preorder]
    exact Node.numbers_renumber t n
  | .list vs => by
    have h := Value.numbers_renumberAll t vs
    rw [Value.renumber]
    dsimp only
    rw [Value.preorder]
    split
    · exact h
    · -- A list with other values in it is not walked, but its classes are numbered all the same.
      exact { numbers_nil t with grows := h.grows, known := fun h => by simp at h }
  | .atom _ | .object => by
    simp only [Value.renumber, Value.preorder]
    exact numbers_nil t

theorem Node.numbers_renumber (t : ClassTable) : (n : Node) →
    Numbers t (n.renumber t).2 (n.renumber t).1.preorder
  | ⟨kind, place, fields⟩ => by
    cases kind with
    | classDecl id =>
      rw [Node.renumber]
      exact (Value.numbers_renumberAll t.register.2 fields).classDecl
    | _ =>
      rw [Node.renumber]
      · exact Numbers.cons (by simp) (Value.numbers_renumberAll t fields)
      · simp

theorem Value.numbers_renumberAll (t : ClassTable) : (vs : List Value) →
    Numbers t (Value.renumberAll t vs).2 (Value.preorderAll (Value.renumberAll t vs).1)
  | [] => by
    rw [Value.renumberAll, Value.preorderAll]
    exact numbers_nil t
  | v :: vs => by
    rw [Value.renumberAll, Value.preorderAll]
    exact (Value.numbers_renumber t v).append (Value.numbers_renumberAll _ vs)

end

theorem numbered_renumberAll {unit nodes : List Node} {t t' : ClassTable}
    (h : Value.renumberAll t (unit.map .node) = (nodes.map .node, t')) : Numbered nodes t' := by
  have hnumbers := Value.numbers_renumberAll t (unit.map .node)
  rw [h, preorderAll_nodes] at hnumbers
  exact ⟨hnumbers.distinct, hnumbers.known⟩

end Numbers

section Names

def Visit.naming? (visit : Visit) : Option (ClassId × Value) :=
  (contextOf visit.past).naming? visit.site.node

mutual

theorem Node.namings_turns (spot : Spot) (home : Option Node) (past : List Step) : (n : Node) →
    namings n.turns (contextOf past) = (n.visits spot home past).filterMap Visit.naming?
  | ⟨kind, place, fields⟩ => by
    obtain ⟨n, hdef⟩ : ∃ n : Node, n = ⟨kind, place, fields⟩ := ⟨_, rfl⟩
    have hfields : fields = n.fields := by rw [hdef]
    have hbelow := Value.namings_turnsAll (spot.under n) (n.home home) (.enter n :: past) fields
    rw [hfields] at hbelow
    -- Leaving a node names nothing, so what it names and what is named below it is all.
    have hclosing : ∀ c, namings [n.kind.closing] c = [] := fun _ => rfl
    rw [← hdef, Node.turns_eq, ← Value.turnsAll_eq_flatMap, Node.visits_eq, namings, namings_append,
      hclosing, List.append_nil]
    rw [show n.opening.step (contextOf past) = contextOf (.enter n :: past) from rfl, hbelow]
    rw [List.filterMap_cons,
      show n.opening.naming (contextOf past) = Visit.naming? ⟨past, home, spot, n⟩ from rfl]
    cases Visit.naming? ⟨past, home, spot, n⟩ <;> rfl

theorem Value.namings_turns (spot : Spot) (home : Option Node) (past : List Step) : (v : Value) →
    namings v.turns (contextOf past) = (v.visits spot home past).filterMap Visit.naming?
  | .node n => by
    rw [Value.turns, Value.visits]
    exact Node.namings_turns spot home past n
  | .list vs => by
    rw [Value.turns, Value.visits]
    split
    · exact Value.namings_turnsAll spot home past vs
    · rfl
  | .atom _ | .object => by simp [Value.turns, Value.visits, namings]

theorem Value.namings_turnsAll (spot : Spot) (home : Option Node) (past : List Step) :
    (vs : List Value) → namings (Value.turnsAll vs) (contextOf past) =
      (Value.visitsAll spot home past vs).filterMap Visit.naming?
  | [] => by simp [Value.turnsAll, Value.visitsAll, namings]
  | v :: vs => by
    rw [Value.turnsAll, Value.visitsAll, namings_append, List.filterMap_append,
      Value.namings_turns spot home, Value.turns_eq_map_steps, contextAfter_map_turn,
      Value.namings_turnsAll spot home]

end

theorem namings_turns (unit : List Node) :
    namings (turns unit) {} = (visits unit).filterMap Visit.naming? := by
  rw [turns_nodes, ← Value.turnsAll_eq_flatMap]
  exact Value.namings_turnsAll {} none [] (unit.map .node)

theorem ClassTable.getElem?_setNames_of_mem {es : List (ClassId × Value)}
    (hes : (es.map Prod.fst).Nodup) {id : ClassId} {name : Value} (h : (id, name) ∈ es)
    {t : ClassTable} (ht : id < t.names.length) : (t.setNames es).names[id]? = some name := by
  induction es generalizing t with
  | nil => simp at h
  | cons e es ih =>
    rw [List.map_cons, List.nodup_cons] at hes
    rcases List.mem_cons.mp h with rfl | h
    · refine (getElem?_setNames hes.1 (t.setName id name)).trans ?_
      simp [setName, ht]
    · exact ih hes.2 h (by simpa [setName] using ht)

variable {unit : List Node} {t : ClassTable}

theorem site_node_mem_preorder {visit : Visit} (hv : visit ∈ visits unit) :
    visit.site.node ∈ preorder unit := by
  rw [← map_node_sites, ← map_site_visits]
  exact List.mem_map_of_mem (List.mem_map_of_mem hv)

theorem kind_of_naming? (hu : WellFormed unit) {visit : Visit} (hv : visit ∈ visits unit)
    {e : ClassId × Value} (he : visit.naming? = some e) :
    visit.site.node.kind = .classDecl e.1 :=
  (Context.naming?_text (hu _ (site_node_mem_preorder hv)) he).1

theorem Numbered.visit_eq (h : Numbered unit t) {v w : Visit} (hv : v ∈ visits unit)
    (hw : w ∈ visits unit) {id : ClassId} (hvk : v.site.node.kind = .classDecl id)
    (hwk : w.site.node.kind = .classDecl id) : v = w := by
  have hids := h.distinct
  rw [← map_node_sites, ← map_site_visits, List.map_map, List.filterMap_map] at hids
  exact eq_of_nodup_filterMap hids hv hw (Kind.classId?_eq_some_iff.mpr hvk)
    (Kind.classId?_eq_some_iff.mpr hwk)

theorem Numbered.nodup_namings (h : Numbered unit t) (hu : WellFormed unit) :
    (((visits unit).filterMap Visit.naming?).map Prod.fst).Nodup := by
  have hids := h.distinct
  rw [← map_node_sites, ← map_site_visits, List.map_map, List.filterMap_map] at hids
  rw [List.map_filterMap]
  refine List.pairwise_filterMap.mpr ((List.pairwise_filterMap.mp hids).imp_of_mem ?_)
  have hid : ∀ visit ∈ visits unit, ∀ id, visit.naming?.map Prod.fst = some id →
      visit.site.node.kind.classId? = some id := by
    intro visit hv id hid
    obtain ⟨e, he, rfl⟩ := Option.map_eq_some_iff.mp hid
    exact Kind.classId?_eq_some_iff.mpr (kind_of_naming? hu hv he)
  intro v w hv hw hne id hvid id' hwid
  exact hne id (hid v hv id hvid) id' (hid w hw id' hwid)

theorem map_kind_resolution {γ : Type} (hu : WellFormed unit) (s : Session γ) :
    (preorder (resolution unit s).1).map Node.kind = (preorder unit).map Node.kind := by
  rw [← map_node_sites, ← map_node_sites, List.map_map, List.map_map]
  have h := (resolved_sites hu s).imp fun x y (hxy : Resolved x y) => hxy.kind.symm
  rw [eq_comm, ← List.forall₂_eq_eq_eq, List.forall₂_map_left_iff, List.forall₂_map_right_iff]
  exact h

/-- Working out the class context keeps the numbers, and the table follows the tree. -/
theorem Numbered.resolution {γ : Type} {s : Session γ} (h : Numbered unit s.classes)
    (hu : WellFormed unit) :
    Numbered (resolution unit s).1 (resolution unit s).2.classes where
  distinct := by
    have hids := h.distinct
    rw [show (fun n : Node => n.kind.classId?) = Kind.classId? ∘ Node.kind from rfl,
      ← List.filterMap_map] at hids ⊢
    rwa [map_kind_resolution hu s]
  known {n id} hn hk := by
    rw [← map_node_sites] at hn
    obtain ⟨after, hafter, rfl⟩ := List.mem_map.mp hn
    obtain ⟨visit, hv, -, -, hmet⟩ := mem_of_forall₂_right (resolved_visits hu s) hafter
    have hkind : visit.site.node.kind = .classDecl id := by rw [← hmet.kind, hk]
    have hold := h.known (site_node_mem_preorder hv) hkind
    rw [classes_resolution, namings_turns, hmet.qualifiedName]
    change _ = some ((visit.naming?.map Prod.snd).getD _)
    cases hnaming : visit.naming? with
    | none =>
      -- A class without a name keeps its entry, since no other class has its number.
      refine (ClassTable.getElem?_setNames ?_ _).trans hold
      intro hmem
      obtain ⟨e, he, rfl⟩ := List.mem_map.mp hmem
      obtain ⟨visit', hv', he⟩ := List.mem_filterMap.mp he
      obtain rfl := h.visit_eq hv hv' hkind (kind_of_naming? hu hv' he)
      simp [hnaming] at he
    | some e =>
      obtain rfl := Kind.classDecl.inj (hkind.symm.trans (kind_of_naming? hu hv hnaming))
      exact ClassTable.getElem?_setNames_of_mem (h.nodup_namings hu)
        (List.mem_filterMap.mpr ⟨visit, hv, hnaming⟩) (List.getElem?_eq_some_iff.mp hold).1

mutual

theorem Node.exists_owner (spot : Spot) {x : Site} {id : ClassId} : (n : Node) →
    x ∈ n.sites spot → x.spot.owner = some id →
    spot.owner = some id ∨ ∃ c ∈ n.preorder, c.kind = .classDecl id
  | ⟨kind, place, fields⟩, hx, hid => by
    rw [Node.sites, List.mem_cons] at hx
    rw [Node.preorder]
    rcases hx with rfl | hx
    · exact Or.inl hid
    · rcases Value.exists_ownerAll _ fields hx hid with h | ⟨c, hc, hk⟩
      · cases hkind : kind.classId? with
        | none => exact Or.inl (by simpa [Spot.under, Declarations.inside, hkind] using h)
        | some id' =>
          obtain rfl : id' = id := by simpa [Spot.under, Declarations.inside, hkind] using h
          exact Or.inr ⟨_, List.mem_cons_self, Kind.classId?_eq_some_iff.mp hkind⟩
      · exact Or.inr ⟨c, List.mem_cons_of_mem _ hc, hk⟩

theorem Value.exists_owner (spot : Spot) {x : Site} {id : ClassId} : (v : Value) →
    x ∈ v.sites spot → x.spot.owner = some id →
    spot.owner = some id ∨ ∃ c ∈ v.preorder, c.kind = .classDecl id
  | .node n, hx, hid => by
    rw [Value.sites] at hx
    rw [Value.preorder]
    exact Node.exists_owner spot n hx hid
  | .list vs, hx, hid => by
    rw [Value.sites] at hx
    rw [Value.preorder]
    split at hx
    · rename_i hall
      rw [if_pos hall]
      exact Value.exists_ownerAll spot vs hx hid
    · simp at hx
  | .atom _, hx, _ | .object, hx, _ => by simp [Value.sites] at hx

theorem Value.exists_ownerAll (spot : Spot) {x : Site} {id : ClassId} : (vs : List Value) →
    x ∈ Value.sitesAll spot vs → x.spot.owner = some id →
    spot.owner = some id ∨ ∃ c ∈ Value.preorderAll vs, c.kind = .classDecl id
  | [], hx, _ => by simp [Value.sitesAll] at hx
  | v :: vs, hx, hid => by
    rw [Value.sitesAll, List.mem_append] at hx
    rw [Value.preorderAll]
    rcases hx with hx | hx
    · exact (Value.exists_owner spot v hx hid).imp_right fun ⟨c, hc, hk⟩ =>
        ⟨c, List.mem_append_left _ hc, hk⟩
    · exact (Value.exists_ownerAll spot vs hx hid).imp_right fun ⟨c, hc, hk⟩ =>
        ⟨c, List.mem_append_right _ hc, hk⟩

end

theorem exists_owner {x : Site} (hx : x ∈ sites unit) {id : ClassId}
    (hid : x.spot.owner = some id) : ∃ c ∈ preorder unit, c.kind = .classDecl id := by
  rw [sites_eq_sitesAll] at hx
  rw [← preorderAll_nodes]
  exact (Value.exists_ownerAll {} _ hx hid).resolve_left nofun

end Names

section Locality

theorem Value.isThis_iff {v : Value} : v.isThis = true ↔
    ∃ n, v = .node n ∧ n.kind = .variableRef ∧ n.get .name = .str "this" := by
  cases v with
  | node n => simp [Value.isThis, Value.str?_eq_some_iff]
  | _ => simp [Value.isThis]

/-- Which fetches are local, by what is written in the unit: those on the object itself, and static
ones on the word for the own class or on the own class by its qualified name. -/
structure LocalAsWritten (nodes : List Node) (t : ClassTable) (x : Site) : Prop where
  answers : ∃ answer, t.isLocal x.node = .ok answer
  fetch : x.node.kind = .fetch → (t.isLocal x.node = .ok true ↔
    x.spot.owner.isSome = true ∧
      ∃ n, x.node.get .object = .node n ∧ n.kind = .variableRef ∧ n.get .name = .str "this")
  staticFetch : x.node.kind = .staticFetch → (t.isLocal x.node = .ok true ↔
    ∃ id name, x.spot.owner = some id ∧ (x.node.get .cls).tokenText? = some name ∧
      (Text.lower name = "self" ∨ ClassName.isSpecial name = false ∧
        ∃ c ∈ preorder nodes, c.kind = .classDecl id ∧
          c.get .qualifiedName = .str (ClassName.bare name)))

theorem Numbered.name_eq_iff {nodes : List Node} {t : ClassTable} (h : Numbered nodes t) {x : Site}
    (hx : x ∈ sites nodes) {id : ClassId} (hid : x.spot.owner = some id) {name : String} :
    (t.name id).str? = some name ↔
      ∃ c ∈ preorder nodes, c.kind = .classDecl id ∧ c.get .qualifiedName = .str name := by
  have hname : ∀ {c : Node}, c ∈ preorder nodes → c.kind = .classDecl id →
      t.name id = c.get .qualifiedName := fun hc hk => by
    simp [ClassTable.name, List.getD_eq_getElem?_getD, h.known hc hk]
  rw [Value.str?_eq_some_iff]
  constructor
  · intro hstr
    obtain ⟨c, hc, hk⟩ := exists_owner hx hid
    exact ⟨c, hc, hk, by rw [← hname hc hk, hstr]⟩
  · rintro ⟨c, hc, hk, hq⟩
    rw [hname hc hk, hq]

theorem Numbered.localAsWritten {nodes : List Node} {t : ClassTable} (h : Numbered nodes t)
    (hw : WellFormed nodes) {x : Site} (hx : x ∈ sites nodes)
    (henclosing : x.node.place.enclosing = x.spot.owner) : LocalAsWritten nodes t x := by
  have hlocal := t.isLocal_eq (hw.sound _ (node_mem_preorder hx))
  refine ⟨⟨_, hlocal⟩, fun hk => ?_, fun hk => ?_⟩
  · rw [hlocal, Except.ok.injEq, ClassTable.finds, henclosing, hk, ← Value.isThis_iff]
    cases x.spot.owner <;> simp
  · rw [hlocal, Except.ok.injEq, ClassTable.finds, henclosing, hk]
    cases hid : x.spot.owner with
    | none => simp
    | some id =>
      cases htext : (x.node.get .cls).tokenText? with
      | none => simp
      | some name => simp [meansClass, h.name_eq_iff hx hid]

end Locality

/-- After a walk for the class context, the class names that nodes refer to are written out by what
is in force where they stand, all others are kept, and locality can be read off what is written. -/
theorem traverse_writes_classNames {limit : Nat} {unit : List Node} (hu : WellFormed unit)
    (hd : depth unit ≤ limit) {s : Session Context} (hs : s.log.Quiet)
    (hn : Numbered unit s.classes) :
    ∃ nodes, (traverse limit [Context.visitor] unit s).reply = .ok nodes ∧
      (nodes.map fun n => (Value.node n).tokenText?) =
        (unit.map fun n => (Value.node n).tokenText?) ∧
      Forall₂ Spelled (visits unit) (sites nodes) ∧
      ∀ x ∈ sites nodes,
        LocalAsWritten nodes (traverse limit [Context.visitor] unit s).session.classes x := by
  rw [traverse_visitor_eq hu hd hs]
  refine ⟨_, rfl, Context.childNames_sweepUnit _ unit, ?_, fun x hx => ?_⟩
  · refine (resolved_visits hu s).imp fun visit after ⟨hv, _, hmet⟩ => ?_
    exact hmet.spelled (hu.contextOf_past hv)
  · obtain ⟨visit, -, -, hres, -⟩ := mem_of_forall₂_right (resolved_visits hu s) hx
    refine (hn.resolution hu).localAsWritten (wellFormed_resolution hu s) hx ?_
    rw [hres.enclosing, hres.spot]

section Sample

def sampleToken (text : String) : Value := .node ⟨.className, {}, [.str text]⟩

/-- A class that names other classes by imports, by a short name and by the word for itself, with a
class name that nothing refers to, and a class after the namespace. -/
def importingUnit : List Node :=
  [⟨.namespaceBlock, {}, [.str "App", .list
      [.node ⟨.useImport, {}, [.str "\\Lib\\Base", .null]⟩,
        .node ⟨.useImport, {}, [.str "Other\\Thing", .str "T"]⟩,
        .node ⟨.classDecl 0, {}, [.str "Point", .list
          [.node ⟨.staticFetch, {}, [sampleToken "Point", .str "x"]⟩,
            .node ⟨.staticFetch, {}, [sampleToken "SELF", .str "x"]⟩,
            .node ⟨.staticFetch, {}, [sampleToken "t\\Sub", .str "x"]⟩,
            .node ⟨.fetch, {}, [.node ⟨.variableRef, {}, [.str "this"]⟩, .str "x", .bool false]⟩,
            .node ⟨.exprStmt, {}, [sampleToken "Point"]⟩], sampleToken "base", .null]⟩]]⟩,
    ⟨.classDecl 1, {}, [.null, .list [], sampleToken "Base", .null]⟩]

theorem traverse_writes_classNames_sample : WellFormed importingUnit ∧ depth importingUnit ≤ 4 ∧
    Log.Quiet {} ∧ Numbered importingUnit ⟨[.null, .null]⟩ ∧
    ∃ nodes, (traverse 4 [Context.visitor] importingUnit
        { classes := ⟨[.null, .null]⟩, own := {} }).reply = .ok nodes ∧
      (nodes.map fun n => (Value.node n).tokenText?) =
        (importingUnit.map fun n => (Value.node n).tokenText?) ∧
      Forall₂ Spelled (visits importingUnit) (sites nodes) ∧
      ∀ x ∈ sites nodes, LocalAsWritten nodes (traverse 4 [Context.visitor] importingUnit
        { classes := ⟨[.null, .null]⟩, own := {} }).session.classes x := by
  have hu : WellFormed importingUnit := by decide
  have hd : depth importingUnit ≤ 4 := by decide
  have hquiet : Log.Quiet {} := by decide
  have hrenumber : Value.renumberAll {} (importingUnit.map .node) =
      (importingUnit.map .node, ⟨[.null, .null]⟩) := rfl
  have hnumbered := numbered_renumberAll hrenumber
  exact ⟨hu, hd, hquiet, hnumbered, traverse_writes_classNames hu hd hquiet hnumbered⟩

/-- The class names of the sample, in the order in which they stand. -/
example : (preorder (resolution importingUnit { own := () }).1).filterMap
    (fun n => (Value.node n).tokenText?) =
      ["\\App\\Point", "SELF", "\\Other\\Thing\\Sub", "Point", "\\Lib\\Base", "\\Base"] := by
  decide +kernel

end Sample

end PropertyRenaming
