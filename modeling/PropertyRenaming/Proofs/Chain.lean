import PropertyRenaming.Proofs.NoCapture
import PropertyRenaming.Proofs.Outline

namespace PropertyRenaming

open Declarations (Plan)

/-- Renames a unit with one settings after the other, each on what the one before has left. -/
def renameChain : List Settings → List Node → Session Unit → Outcome Unit (List Node) (List Node)
  | [], unit, s => s.done unit unit
  | settings :: chain, unit, s =>
    let o := renameUnit settings unit s
    match o.reply with
    | .error e => o.session.fail o.subject e
    | .ok report => renameChain chain report.nodes o.session

def Site.property? (x : Site) : Option (ClassId × String) :=
  if x.node.kind = .propertyItem ∧ x.spot.listed.isSome = true then
    x.spot.owner.bind fun owner => (x.node.get .name).str?.map fun name => (owner, name)
  else none

def properties (unit : List Node) : List (ClassId × String) := (sites unit).filterMap Site.property?

def owners (unit : List Node) : List ClassId := (sites unit).filterMap fun x => x.spot.owner

/-- What is asked of a unit before a chain of scoped runs. -/
structure Clear (unit : List Node) (s : Session Unit) : Prop where
  wellFormed : WellFormed unit
  quiet : s.log.Quiet
  colonFree : ColonFree unit
  /-- Classes are known by different scopes once their names have been worked out. -/
  scopes (a : ClassId) (ha : a ∈ owners unit) (b : ClassId) (hb : b ∈ owners unit) :
    ((resolveUnit unit s).session.classes.scope a).label =
      ((resolveUnit unit s).session.classes.scope b).label → a = b
  once : (properties unit).Nodup

/-- The node at an index lists a property of a class. -/
def DeclaresAt (unit : List Node) (i : Nat) (owner : ClassId) (name : String) : Prop :=
  (sites unit)[i]?.bind Site.property? = some (owner, name)

/-- The node at an index is a fetch in a class that surely means a property of that class, by what
is known once the class context has been worked out. -/
def FetchesAt (unit : List Node) (s : Session Unit) (i : Nat) (owner : ClassId) (name : String) :
    Prop :=
  let o := resolveUnit unit s
  ∃ y, (sites o.subject)[i]? = some y ∧ y.node.kind.isFetch = true ∧ y.spot.owner = some owner ∧
    y.node.get .name = .str name ∧ o.session.classes.isLocal y.node = .ok true

/-- The chain comes to its end, and there each local fetch has the name of a property of its class
just if it had it at the start. -/
def KeepsMeaning (chain : List Settings) (unit : List Node) (s : Session Unit) : Prop :=
  ∃ final, (renameChain chain unit s).reply = .ok final ∧
    ∀ i j owner n m, FetchesAt unit s i owner n → DeclaresAt unit j owner m →
      ∃ n' m', (occurrences final)[i]? = some (some n') ∧
        (occurrences final)[j]? = some (some m') ∧ (n' = m' ↔ n = m)

theorem Site.property?_eq_some_iff {x : Site} {owner : ClassId} {name : String} :
    x.property? = some (owner, name) ↔ x.node.kind = .propertyItem ∧
      x.spot.listed.isSome = true ∧ x.spot.owner = some owner ∧ x.node.get .name = .str name := by
  unfold property?
  split
  · rename_i h
    rw [← Value.str?_eq_some_iff]
    cases x.spot.owner <;> simp [h, and_comm]
  · rename_i h
    simp only [reduceCtorEq, false_iff]
    exact fun hx => h ⟨hx.1, hx.2.1⟩

theorem Site.property?_of_declared {x : Site} {owner : ClassId} {name : String}
    (h : x.declared? = some (owner, .text name)) : x.property? = some (owner, name) := by
  obtain ⟨hk, hlisted, howner, hname⟩ := Site.declared?_eq_some_iff.mp h
  exact property?_eq_some_iff.mpr ⟨hk, by simp [hlisted], howner, hname⟩

theorem Site.propertyName?_of_property? {x : Site} {owner : ClassId} {name : String}
    (h : x.property? = some (owner, name)) : x.node.propertyName? = some name := by
  obtain ⟨hk, -, -, hname⟩ := property?_eq_some_iff.mp h
  exact Node.propertyName?_eq_some_iff.mpr ⟨Or.inl hk, hname⟩

theorem eq_of_property?_eq {unit : List Node} (honce : (properties unit).Nodup) {x y : Site}
    (hx : x ∈ sites unit) (hy : y ∈ sites unit) {q : ClassId × String} (hxq : x.property? = some q)
    (hyq : y.property? = some q) : x = y :=
  eq_of_nodup_filterMap honce hx hy hxq hyq

theorem classes_resolveUnit {unit : List Node} (hu : WellFormed unit) {s : Session Unit}
    (hs : s.log.Quiet) :
    (resolveUnit unit s).session.classes = s.classes.setNames (namings (turns unit) {}) := by
  rw [(resolveUnit_eq hu hs).1, ← classes_resolution]
  rfl

theorem Resolved.finds {x y : Site} (h : Resolved x y)
    (henclosing : x.node.place.enclosing = x.spot.owner)
    (hcls : ∃ ns imports text, (x.node.get .cls).tokenText? =
      Option.map (ClassName.resolve ns imports) text) (t : ClassTable) :
    t.finds y.node = t.finds x.node := by
  obtain ⟨ns, imports, text, hx⟩ := hcls
  obtain ⟨ns', imports', hy⟩ := h.cls
  have hsame : (y.node.get .cls).tokenText? = (x.node.get .cls).tokenText? := by
    rw [hy, hx]
    cases text with
    | none => rfl
    | some name => simp only [Option.map_some, ClassName.resolve_resolve]
  unfold ClassTable.finds
  rw [h.enclosing, henclosing, h.kind, h.object, hsame]

namespace Completed

variable {settings : Settings} {unit : List Node} {s : Session Unit} {report : Report}
  {s' : Session Names.Source} {p : Plan Names.Source} {d : Declarations.Drawing Names.Source}

theorem classes_eq (h : Completed settings unit s report s' p d) :
    (renameUnit settings unit s).session.classes =
      s.classes.setNames (namings (turns unit) {}) := by
  have hclasses : s'.classes = s.classes := by
    rw [h.started.2]
    rfl
  rw [h.table, classes_resolution, hclasses]

theorem turns_eq (h : Completed settings unit s report s' p d) (hu : WellFormed unit) :
    turns report.nodes = turns unit := by
  obtain ⟨asked, hscanned, -, -⟩ := h.scanned
  have hwf := wellFormed_resolution hu s'
  rw [h.nodes, renamedBy, (hscanned.fits_fetches _).turns_rewriteUnit
    (hwf.rewriteUnit hscanned.fits_items), hscanned.fits_items.turns_rewriteUnit hwf,
    turns_resolution hu]

theorem classes_again (h : Completed settings unit s report s' p d) (hu : WellFormed unit) :
    (resolveUnit report.nodes (renameUnit settings unit s).session).session.classes =
      (renameUnit settings unit s).session.classes := by
  rw [classes_resolveUnit (h.wellFormed hu) h.quiet, h.turns_eq hu, h.classes_eq,
    ClassTable.setNames_setNames]

theorem fate_of_none {t : ClassTable} {mapping : List (Key × Atom)} {x z : Site}
    (hxz : Substituted settings t mapping x z) (hname : x.node.propertyName? = none) :
    z.node.propertyName? = none := by
  have hnone : ∀ name, (x.node.kind = .propertyItem ∨ x.node.kind.isFetch = true) →
      x.node.get .name ≠ .str name := by
    intro name hk hx
    rw [Node.propertyName?_eq_some_iff.mpr ⟨hk, hx⟩] at hname
    cases hname
  rw [Option.eq_none_iff_forall_ne_some]
  intro name hz
  obtain ⟨hk, hstr⟩ := Node.propertyName?_eq_some_iff.mp hz
  rw [hxz.kind] at hk
  refine hnone name hk (Value.str?_eq_some_iff.mp ?_)
  rw [← hxz.kept, hstr]
  · rfl
  · intro owner b hb
    obtain ⟨hitem, -, -, hb⟩ := Site.declared?_eq_some_iff.mp hb
    exact absurd hb (hnone b (Or.inl hitem))
  · rintro ⟨hf, hsome, -⟩
    obtain ⟨b, hb⟩ := Option.isSome_iff_exists.mp hsome
    exact hnone b (Or.inr hf) (Value.str?_eq_some_iff.mp hb)

theorem colon_not_mem (h : Completed settings unit s report s' p d) {key : Key} {new : String}
    (hnew : d.map.get? key = some (.text new)) : ':' ∉ new.toList := by
  obtain ⟨asked, hscanned, -, -⟩ := h.scanned
  obtain ⟨e, he, -, hv⟩ := RenameMap.exists_mem_of_find?_eq_some hnew
  obtain ⟨q, -, -, -, k, hvalue, -⟩ := hscanned.drawn he
  obtain rfl : new = p.candidate (.text q.2) k := Atom.text.inj (hv.symm.trans hvalue)
  exact Names.colon_not_mem_of_isIdentifier (p.steady.identifier _ k)

theorem colonFree (h : Completed settings unit s report s' p d) (hu : WellFormed unit)
    (hcolon : ColonFree unit) : ColonFree report.nodes := by
  intro name hname
  rw [propertyNames_eq_sites] at hname
  obtain ⟨z, hz, hname⟩ := List.mem_filterMap.mp hname
  obtain ⟨x, hx, hxz⟩ := mem_of_forall₂_right (h.substituted hu) hz
  cases hn : x.node.propertyName? with
  | none => simp [fate_of_none hxz hn] at hname
  | some n =>
    rcases h.fate hxz hn with hz' | ⟨owner, new, hz', hget⟩
    · obtain rfl : n = name := Option.some.inj (hz'.symm.trans hname)
      exact hcolon n (mem_propertyNames_of_site hx hn)
    · obtain rfl : new = name := Option.some.inj (hz'.symm.trans hname)
      exact h.colon_not_mem hget

theorem owners_eq (h : Completed settings unit s report s' p d) (hu : WellFormed unit) :
    owners report.nodes = owners unit := by
  have hspots : ∀ {xs zs : List Site}, List.Forall₂ (Substituted settings
      (renameUnit settings unit s).session.classes report.mapping) xs zs →
      zs.filterMap (fun z => z.spot.owner) = xs.filterMap fun x => x.spot.owner := by
    intro xs zs hxz
    induction hxz with
    | nil => rfl
    | cons hxz _ ih => simp only [List.filterMap_cons, hxz.spot, ih]
  exact hspots (h.substituted hu)

theorem exists_property (h : Completed settings unit s report s' p d) {x z : Site}
    (hxz : Substituted settings (renameUnit settings unit s).session.classes report.mapping x z)
    {owner : ClassId} {name : String} (hx : x.property? = some (owner, name)) :
    ∃ new, z.property? = some (owner, new) := by
  obtain ⟨hk, hlisted, howner, -⟩ := Site.property?_eq_some_iff.mp hx
  obtain ⟨new, hnew⟩ := h.exists_name hxz (Site.propertyName?_of_property? hx)
  obtain ⟨-, hstr⟩ := Node.propertyName?_eq_some_iff.mp hnew
  exact ⟨new, Site.property?_eq_some_iff.mpr
    ⟨hxz.kind.trans hk, hxz.spot ▸ hlisted, hxz.spot ▸ howner, hstr⟩⟩

theorem exists_property_before {t : ClassTable} {mapping : List (Key × Atom)} {x z : Site}
    (hxz : Substituted settings t mapping x z) (hx : x.node.WellFormed) {owner : ClassId}
    {new : String} (hz : z.property? = some (owner, new)) :
    ∃ name, x.property? = some (owner, name) := by
  obtain ⟨hk, hlisted, howner, -⟩ := Site.property?_eq_some_iff.mp hz
  rw [hxz.kind] at hk
  rw [hxz.spot] at hlisted howner
  obtain ⟨name, hname⟩ := hx.item_name hk
  exact ⟨name, Site.property?_eq_some_iff.mpr ⟨hk, hlisted, howner, hname⟩⟩

theorem nodup_properties (h : Completed settings unit s report s' p d) (hu : WellFormed unit)
    (hcolon : ColonFree unit) (honce : (properties unit).Nodup) :
    (properties report.nodes).Nodup := by
  have hsub := h.substituted hu
  have hpair := List.pairwise_iff_getElem.mp (List.pairwise_filterMap.mp honce)
  refine List.pairwise_filterMap.mpr (List.pairwise_iff_getElem.mpr ?_)
  rintro i j hi hj hij ⟨owner, n⟩ hn ⟨owner', m⟩ hm heq
  obtain ⟨rfl, rfl⟩ := Prod.mk.inj heq
  have hi' : i < (PropertyRenaming.sites unit).length := hsub.length_eq ▸ hi
  have hj' : j < (PropertyRenaming.sites unit).length := hsub.length_eq ▸ hj
  have hx := List.getElem_mem hi'
  have hy := List.getElem_mem hj'
  have hxz := hsub.get hi' hi
  have hyw := hsub.get hj' hj
  obtain ⟨a, ha⟩ := exists_property_before hxz (hu _ (node_mem_preorder hx)) hn
  obtain ⟨b, hb⟩ := exists_property_before hyw (hu _ (node_mem_preorder hy)) hm
  -- Properties that have met have been one property before.
  obtain rfl : a = b := h.names_eq (fun _ => hcolon) hx hy hxz hyw
    (Site.propertyName?_of_property? ha) (Site.propertyName?_of_property? hb)
    (Site.propertyName?_of_property? hn) (Site.propertyName?_of_property? hm)
  exact hpair i j hi' hj' hij _ ha _ hb rfl

theorem clear (h : Completed settings unit s report s' p d) (hu : Clear unit s) :
    Clear report.nodes (renameUnit settings unit s).session where
  wellFormed := h.wellFormed hu.wellFormed
  quiet := h.quiet
  colonFree := h.colonFree hu.wellFormed hu.colonFree
  scopes a ha b hb hlabel := by
    rw [h.owners_eq hu.wellFormed] at ha hb
    rw [h.classes_again hu.wellFormed, h.classes_eq,
      ← classes_resolveUnit hu.wellFormed hu.quiet] at hlabel
    exact hu.scopes a ha b hb hlabel
  once := h.nodup_properties hu.wellFormed hu.colonFree hu.once

theorem exists_fetch (h : Completed settings unit s report s' p d) (hu : WellFormed unit)
    (hs : s.log.Quiet) {i : Nat} {owner : ClassId} {n : String} (hf : FetchesAt unit s i owner n) :
    ∃ x y z, (PropertyRenaming.sites unit)[i]? = some x ∧
      (PropertyRenaming.sites report.nodes)[i]? = some z ∧ Resolved x y ∧
      p.Renames d.map (resolution unit s').2.classes y z ∧ x.node.kind.isFetch = true ∧
      x.spot.owner = some owner ∧ x.node.get .name = .str n ∧
      (renameUnit settings unit s).session.classes.finds z.node = true := by
  obtain ⟨y, hy, hk, howner, hname, hlocal⟩ := hf
  rw [(resolveUnit_eq hu hs).1] at hy
  have hy' : (PropertyRenaming.sites (resolution unit s').1)[i]? = some y := by
    rw [← nodes_resolution unit s s']
    exact hy
  obtain ⟨x, hx, hxy⟩ := exists_getElem?_of_forall₂
    (resolved_sites hu s').flip hy'
  obtain ⟨z, hz, hyz⟩ := exists_getElem?_of_forall₂ (h.renamed hu) hy'
  have hxy : Resolved x y := hxy
  have hxname : x.node.get .name = .str n := by
    rw [← Value.str?_eq_some_iff, ← hxy.name, hname]
    rfl
  refine ⟨x, y, z, hx, hz, hxy, hyz, hxy.kind ▸ hk, hxy.spot ▸ howner, hxname, ?_⟩
  have hsound := (wellFormed_resolution hu s').sound y.node
    (node_mem_preorder (List.mem_of_getElem? hy'))
  rw [ClassTable.isLocal_eq _ hsound, Except.ok.injEq,
    classes_resolveUnit hu hs, ← h.classes_eq] at hlocal
  rw [hyz.finds, hlocal]

theorem exists_fetchesAt (h : Completed settings unit s report s' p d) (hu : Clear unit s) {i : Nat}
    {owner : ClassId} {n : String} (hf : FetchesAt unit s i owner n) :
    ∃ new, FetchesAt report.nodes (renameUnit settings unit s).session i owner new ∧
      (occurrences report.nodes)[i]? = some (some new) := by
  obtain ⟨x, y, z, hx, hz, hxy, hyz, hk, howner, hname, hfinds⟩ :=
    h.exists_fetch hu.wellFormed hu.quiet hf
  obtain ⟨z', hz', -, hxz⟩ := h.exists_substituted hu.wellFormed hx
  obtain rfl : z = z' := Option.some.inj (hz.symm.trans hz')
  obtain ⟨new, hnew⟩ := h.exists_name hxz
    (Node.propertyName?_eq_some_iff.mpr ⟨Or.inr hk, hname⟩)
  obtain ⟨-, hstr⟩ := Node.propertyName?_eq_some_iff.mp hnew
  have hwf := h.wellFormed hu.wellFormed
  obtain ⟨w, hw, hzw⟩ := exists_getElem?_of_forall₂
    (resolved_sites hwf (renameUnit settings unit s).session) hz
  refine ⟨new, ⟨w, ?_, ?_, ?_, ?_, ?_⟩, ?_⟩
  · rw [(resolveUnit_eq hwf h.quiet).1]
    exact hw
  · rw [hzw.kind, hyz.kind, hxy.kind, hk]
  · rw [hzw.spot, hyz.spot, hxy.spot, howner]
  · rw [← Value.str?_eq_some_iff, hzw.name, hstr]
    rfl
  · have hsound := (wellFormed_resolution hwf (renameUnit settings unit s).session).sound w.node
      (node_mem_preorder (List.mem_of_getElem? hw))
    rw [ClassTable.isLocal_eq _ hsound, h.classes_again hu.wellFormed, hzw.finds, hfinds]
    · rw [hyz.place, hxy.enclosing, hyz.spot, hxy.spot]
    · obtain ⟨ns, imports, hcls⟩ := hxy.cls
      exact ⟨ns, imports, _, hyz.cls.trans hcls⟩
  · rw [getElem?_occurrences, hz, Option.map_some, hnew]

theorem exists_declared (h : Completed settings unit s report s' p d) (hu : Clear unit s)
    (hscoped : settings.scopedKeys = true) {owner : ClassId} (howner : owner ∈ owners unit)
    {name : String} (hname : name ∈ propertyNames unit) {new : Atom}
    (hfind : RenameMap.find? (propertyKey settings.scopedKeys
      (renameUnit settings unit s).session.classes.scope owner (.text name)) report.mapping =
        some new) :
    ∃ x ∈ PropertyRenaming.sites unit, x.declared? = some (owner, .text name) ∧
      Atom.isIn (.text name) settings.ignore = false := by
  obtain ⟨asked, hscanned, -, hasked⟩ := h.scanned
  rw [h.find?_eq] at hfind
  obtain ⟨e, he, hcode, -⟩ := RenameMap.exists_mem_of_find?_eq_some hfind
  rw [(hscanned.drawn he).code, Plan.code_key] at hcode
  obtain ⟨⟨o, b⟩, hq, hig, hkey, -⟩ := hscanned.drawn he
  obtain ⟨x, hx, hdeclared⟩ := (hasked (o, b)).mp hq
  obtain ⟨-, -, ho, -⟩ := Site.declared?_eq_some_iff.mp hdeclared
  have hb : b ∈ propertyNames unit := mem_propertyNames_of_declared hx hdeclared
  -- The key tells the name and the scope, and the scope tells the class.
  obtain ⟨rfl, hlabel⟩ := propertyKey_inj (fun _ => hu.colonFree name hname)
    (fun _ => hu.colonFree b hb) (hcode.symm.trans hkey)
  have hlabel' := hlabel (h.perClass.trans hscoped)
  rw [h.terms, ← h.table, h.classes_eq, ← classes_resolveUnit hu.wellFormed hu.quiet] at hlabel'
  obtain rfl := hu.scopes owner howner o (List.mem_filterMap.mpr ⟨x, hx, ho⟩) hlabel'
  refine ⟨x, hx, hdeclared, ?_⟩
  rw [h.scans.ignores_iff] at hig
  simpa using hig

theorem fetch_follows (h : Completed settings unit s report s' p d) (hu : Clear unit s)
    (hscoped : settings.scopedKeys = true) {x x' z z' : Site}
    (hx : x ∈ PropertyRenaming.sites unit) (hx' : x' ∈ PropertyRenaming.sites unit)
    (hxz : Substituted settings (renameUnit settings unit s).session.classes report.mapping x z)
    (hxz' : Substituted settings (renameUnit settings unit s).session.classes report.mapping x' z')
    {owner : ClassId} {name : String} (hk : x.node.kind.isFetch = true)
    (howner : x.spot.owner = some owner) (hname : x.node.get .name = .str name)
    (hlocal : (renameUnit settings unit s).session.classes.isLocal z.node = .ok true)
    (hitem : x'.property? = some (owner, name)) :
    z.node.get .name = z'.node.get .name := by
  have hz := hxz.fetched hk hname howner hlocal
  obtain ⟨-, -, -, hstr⟩ := Site.property?_eq_some_iff.mp hitem
  by_cases hrenamed : x'.declared? = some (owner, .text name) ∧
      Atom.isIn (.text name) settings.ignore = false
  · obtain ⟨new, hz', hfind⟩ := hxz'.declared hrenamed.1 hrenamed.2
    rw [hz, hfind, hz', Option.getD_some]
  · -- An entry would come from a second item of this name in the class.
    have hmem := mem_propertyNames_of_site hx
      (Node.propertyName?_eq_some_iff.mpr ⟨Or.inr hk, hname⟩)
    have hnone : RenameMap.find? (propertyKey settings.scopedKeys
        (renameUnit settings unit s).session.classes.scope owner (.text name)) report.mapping =
          none := by
      rw [Option.eq_none_iff_forall_ne_some]
      intro new hnew
      obtain ⟨w, hw, hdeclared, hig⟩ := h.exists_declared hu hscoped
        (List.mem_filterMap.mpr ⟨x, hx, howner⟩) hmem hnew
      obtain rfl := eq_of_property?_eq hu.once hw hx' (Site.property?_of_declared hdeclared) hitem
      exact hrenamed ⟨hdeclared, hig⟩
    have hkept : (z'.node.get .name).str? = (x'.node.get .name).str? := by
      apply hxz'.kept
      · intro o b hb
        have hob := (Site.property?_of_declared hb).symm.trans hitem
        obtain ⟨rfl, rfl⟩ := Prod.mk.inj (Option.some.inj hob)
        by_contra hig
        exact hrenamed ⟨hb, by simpa using hig⟩
      · rintro ⟨hf, -⟩
        rw [(Site.property?_eq_some_iff.mp hitem).1] at hf
        cases hf
    rw [hz, hnone, Option.getD_none, Value.str?_eq_some_iff.mp (hkept.trans (by rw [hstr]; rfl))]

/-- What one run does to a local fetch and a property of its class. -/
theorem keeps_meaning (h : Completed settings unit s report s' p d) (hu : Clear unit s)
    (hscoped : settings.scopedKeys = true) {i j : Nat} {owner : ClassId} {n m : String}
    (hf : FetchesAt unit s i owner n) (hd : DeclaresAt unit j owner m) :
    ∃ n' m', FetchesAt report.nodes (renameUnit settings unit s).session i owner n' ∧
      DeclaresAt report.nodes j owner m' ∧ (n' = m' ↔ n = m) := by
  obtain ⟨x, y, z, hx, hz, hxy, hyz, hk, howner, hname, hfinds⟩ :=
    h.exists_fetch hu.wellFormed hu.quiet hf
  obtain ⟨x', hx', hitem⟩ := Option.bind_eq_some_iff.mp hd
  obtain ⟨_, hz₁, hxmem, hxz⟩ := h.exists_substituted hu.wellFormed hx
  obtain rfl := Option.some.inj (hz.symm.trans hz₁)
  obtain ⟨z', hz', hxmem', hxz'⟩ := h.exists_substituted hu.wellFormed hx'
  obtain ⟨n', hf', hn'⟩ := h.exists_fetchesAt hu hf
  obtain ⟨m', hm'⟩ := h.exists_property hxz' hitem
  rw [getElem?_occurrences, hz, Option.map_some, Option.some.injEq] at hn'
  refine ⟨n', m', hf', ?_, ?_, ?_⟩
  · exact Option.bind_eq_some_iff.mpr ⟨z', hz', hm'⟩
  · rintro rfl
    exact h.names_eq (fun _ => hu.colonFree) hxmem hxmem' hxz hxz'
      (Node.propertyName?_eq_some_iff.mpr ⟨Or.inr hk, hname⟩)
      (Site.propertyName?_of_property? hitem) hn' (Site.propertyName?_of_property? hm')
  · rintro rfl
    -- The fetch and the item are renamed by the entry of one key, or neither is.
    have hsound := (h.wellFormed hu.wellFormed).sound z.node
      (node_mem_preorder (List.mem_of_getElem? hz))
    have hlocal : (renameUnit settings unit s).session.classes.isLocal z.node = .ok true := by
      rw [ClassTable.isLocal_eq _ hsound, hfinds]
    have hsame := h.fetch_follows hu hscoped hxmem hxmem' hxz hxz' hk howner hname hlocal hitem
    obtain ⟨-, hstr⟩ := Node.propertyName?_eq_some_iff.mp hn'
    obtain ⟨-, -, -, hstr'⟩ := Site.property?_eq_some_iff.mp hm'
    rw [hstr, hstr'] at hsame
    simpa using hsame

end Completed

theorem DeclaresAt.occurrence {unit : List Node} {i : Nat} {owner : ClassId} {name : String}
    (h : DeclaresAt unit i owner name) : (occurrences unit)[i]? = some (some name) := by
  obtain ⟨x, hx, hitem⟩ := Option.bind_eq_some_iff.mp h
  rw [getElem?_occurrences, hx, Option.map_some, Site.propertyName?_of_property? hitem]

theorem FetchesAt.occurrence {unit : List Node} (hu : WellFormed unit) {s : Session Unit}
    (hs : s.log.Quiet) {i : Nat} {owner : ClassId} {name : String}
    (h : FetchesAt unit s i owner name) : (occurrences unit)[i]? = some (some name) := by
  obtain ⟨y, hy, hk, -, hname, -⟩ := h
  rw [(resolveUnit_eq hu hs).1] at hy
  obtain ⟨x, hx, hxy⟩ := exists_getElem?_of_forall₂ (resolved_sites hu s).flip hy
  have hxy : Resolved x y := hxy
  rw [getElem?_occurrences, hx, Option.map_some, ← hxy.propertyName?,
    Node.propertyName?_eq_some_iff.mpr ⟨Or.inr hk, hname⟩]

/-- No search for a hashed name goes on for ever in a chain of runs. -/
def ChainEnds (chain : List Settings) (unit : List Node) (s : Session Unit) : Prop :=
  (∃ settings ∈ chain, Strategy.ofAtom? settings.strategy = some .hashed) →
    ∀ name, (renameChain chain unit s).reply ≠ .error (.searchAbandoned name)

/-- A chain of scoped runs keeps which property each local fetch means. -/
theorem renameChain_keeps_meaning {chain : List Settings}
    (hchain : ∀ settings ∈ chain, Names.Proper settings ∧ settings.scopedKeys = true)
    {unit : List Node} {s : Session Unit} (hunit : Clear unit s) (hends : ChainEnds chain unit s) :
    KeepsMeaning chain unit s := by
  induction chain generalizing unit s with
  | nil =>
    exact ⟨unit, rfl, fun i j owner n m hf hd => ⟨n, m, hf.occurrence hunit.wellFormed hunit.quiet,
      hd.occurrence, Iff.rfl⟩⟩
  | cons settings chain ih =>
    obtain ⟨hproper, hscoped⟩ := hchain settings List.mem_cons_self
    rcases exists_completed hproper hunit.wellFormed hunit.quiet (fun _ => hunit.colonFree) with
      ⟨report, s', p, d, h⟩ | ⟨hhashed, name, hname⟩
    · have hstep : renameChain (settings :: chain) unit s =
          renameChain chain report.nodes (renameUnit settings unit s).session := by
        rw [renameChain]
        simp only [h.reply]
      have hends' : ChainEnds chain report.nodes (renameUnit settings unit s).session := by
        rintro ⟨settings', hmem, hhashed⟩ name
        rw [← hstep]
        exact hends ⟨settings', List.mem_cons_of_mem _ hmem, hhashed⟩ name
      obtain ⟨final, hfinal, hkeeps⟩ := ih (fun settings' hmem =>
        hchain settings' (List.mem_cons_of_mem _ hmem)) (h.clear hunit) hends'
      refine ⟨final, hstep ▸ hfinal, fun i j owner n m hf hd => ?_⟩
      obtain ⟨n₁, m₁, hf₁, hd₁, hiff₁⟩ := h.keeps_meaning hunit hscoped hf hd
      obtain ⟨n', m', hn', hm', hiff⟩ := hkeeps i j owner n₁ m₁ hf₁ hd₁
      exact ⟨n', m', hn', hm', hiff.trans hiff₁⟩
    · refine absurd ?_ (hends ⟨settings, List.mem_cons_self, hhashed⟩ name)
      rw [renameChain]
      simp only [hname]
      rfl

theorem clear_sampleUnit : Clear sampleUnit sampleSession where
  wellFormed := wellFormed_sampleUnit
  quiet := by decide
  colonFree := colonFree_sampleUnit
  scopes a ha b hb := by
    have htable : (resolveUnit sampleUnit sampleSession).session.classes =
        ⟨[.str "Point", .null]⟩ := by
      rw [classes_resolveUnit wellFormed_sampleUnit (by decide)]
      rfl
    have hall : ∀ a ∈ owners sampleUnit, ∀ b ∈ owners sampleUnit,
        ((ClassTable.mk [.str "Point", .null]).scope a).label =
          ((ClassTable.mk [.str "Point", .null]).scope b).label → a = b := by decide
    rw [htable]
    exact hall a ha b hb
  once := by decide

theorem renameChain_keeps_meaning_sample :
    FetchesAt sampleUnit sampleSession 7 0 "x" ∧ DeclaresAt sampleUnit 2 0 "x" ∧
      Clear sampleUnit sampleSession ∧
      KeepsMeaning [{ scopedKeys := true }, { lead := .text "p_", scopedKeys := true }] sampleUnit
        sampleSession := by
  refine ⟨⟨_, rfl, rfl, rfl, rfl, rfl⟩, rfl, clear_sampleUnit,
    renameChain_keeps_meaning ?_ clear_sampleUnit ?_⟩
  · simp only [List.forall_mem_cons, List.not_mem_nil, false_imp_iff, implies_true, and_true]
    exact ⟨⟨⟨.alphabetic, by decide⟩, "", rfl⟩, ⟨.alphabetic, by decide⟩, "p_", rfl⟩
  · rintro ⟨settings, hmem, hhashed⟩
    simp only [List.mem_cons, List.not_mem_nil, or_false] at hmem
    rcases hmem with rfl | rfl <;> cases hhashed

end PropertyRenaming
