import PropertyRenaming.Proofs.Run

namespace PropertyRenaming

open List (Forall₂)
open Context (Calm)
open Declarations (Plan)

section Rewriting

variable {new : Rewriting}

theorem ClassTable.finds_rewrite
    (h : ∀ {x a}, new x = some a → x.node.kind = .propertyItem ∨ x.node.kind.isFetch)
    (t : ClassTable) (x : Site) : t.finds (x.rewrite new).node = t.finds x.node := by
  unfold finds
  simp only [Site.rewrite, Node.place_rewrite, Node.kind_rewrite,
    Node.get_rewrite_of_ne (f := .object) (by decide),
    Node.get_rewrite_of_ne (f := .cls) (by decide), Value.isThis_rewrite h,
    Value.tokenText?_rewrite]

theorem Site.localFetch?_rewrite (h : new.Fits) (t : ClassTable) {x : Site}
    (hnone : x.node.kind.isFetch = true → new x = none) :
    (x.rewrite new).node.localFetch? t = x.node.localFetch? t := by
  cases hk : x.node.kind.isFetch with
  | true =>
    have hname : ((x.rewrite new).node.get .name).str? = (x.node.get .name).str? :=
      Node.str?_name_rewrite (hnone hk)
    have hkind : (x.rewrite new).node.kind = x.node.kind := Node.kind_rewrite ..
    have hplace : (x.rewrite new).node.place = x.node.place := Node.place_rewrite ..
    simp only [Node.localFetch?, hname, hkind, hplace, t.finds_rewrite h.kind]
  | false =>
    have hkind : (x.rewrite new).node.kind.isFetch = false := by
      rw [← hk, Site.rewrite, Node.kind_rewrite]
    rw [Node.localFetch?_eq_none (n := x.node) fun _ _ => by simp [hk],
      Node.localFetch?_eq_none fun _ _ => by simp [hkind]]

theorem Site.name_rewrite (h : new.Fits) {x : Site} (hx : x.node.WellFormed) {a : Atom}
    (ha : new x = some a) : (x.rewrite new).node.get .name = .atom a :=
  Node.get_name_rewrite_of_some hx.filled (h.name_mem ha) ha

end Rewriting

namespace Declarations.Plan

variable {γ : Type} {p : Plan γ} {asked : List (ClassId × String)} {d : Drawing γ}

theorem itemRewriting_of_isFetch {new : ClassId → Atom → Option Atom} {x : Site}
    (h : x.node.kind.isFetch = true) : itemRewriting new x = none := by
  have hk : x.node.kind ≠ .propertyItem := by
    intro hk
    simp [hk, Kind.isFetch] at h
  rw [itemRewriting, Site.declared?_eq_none (Or.inl hk), Option.bind_none]

/-- How both rewritings leave a node. -/
structure Renames (p : Plan γ) (m : RenameMap) (table : ClassTable) (before after : Site) :
    Prop where
  spot : after.spot = before.spot
  kind : after.node.kind = before.node.kind
  place : after.node.place = before.node.place
  wellFormed : after.node.WellFormed
  finds (t : ClassTable) : t.finds after.node = t.finds before.node
  cls : (after.node.get .cls).tokenText? = (before.node.get .cls).tokenText?
  item {a : Atom} : itemRewriting (p.answer m) before = some a → after.node.get .name = .atom a
  fetch {a : Atom} : fetchRewriting m table before = some a → after.node.get .name = .atom a
  kept : itemRewriting (p.answer m) before = none → fetchRewriting m table before = none →
    (after.node.get .name).str? = (before.node.get .name).str?

theorem Scanned.renames (h : p.Scanned asked d) (table : ClassTable) {x : Site}
    (hx : x.node.WellFormed) :
    Renames p d.map table x
      ((x.rewrite (itemRewriting (p.answer d.map))).rewrite (fetchRewriting d.map table)) := by
  have hitems := h.fits_items
  have hfetches := h.fits_fetches table
  obtain ⟨y, hy⟩ : ∃ y, y = x.rewrite (itemRewriting (p.answer d.map)) := ⟨_, rfl⟩
  have hywf : y.node.WellFormed := hy ▸ hx.rewrite hitems _
  have hykind : y.node.kind = x.node.kind := hy ▸ Node.kind_rewrite ..
  -- The second rewriting sees what the first one has left alone.
  have hfetch : fetchRewriting d.map table y = fetchRewriting d.map table x := by
    unfold fetchRewriting
    rw [hy, Site.localFetch?_rewrite hitems table itemRewriting_of_isFetch]
  rw [← hy]
  exact {
    spot := by rw [hy]; rfl
    kind := (Node.kind_rewrite ..).trans hykind
    place := (Node.place_rewrite ..).trans (hy ▸ Node.place_rewrite ..)
    wellFormed := hywf.rewrite hfetches _
    finds := fun t => by rw [t.finds_rewrite hfetches.kind, hy, t.finds_rewrite hitems.kind]
    cls := by
      rw [hy]
      simp only [Site.rewrite, Node.get_rewrite_of_ne (f := .cls) (by decide),
        Value.tokenText?_rewrite]
    item := fun {a} ha => by
      have hnone : fetchRewriting d.map table y = none := by
        rw [Option.eq_none_iff_forall_ne_some]
        intro b hb
        have hk := (Renamer.fetchRewriting_literal hb).1
        rw [hykind] at hk
        simp [itemRewriting_of_isFetch hk] at ha
      have hname : y.node.get .name = .atom a := hy ▸ Site.name_rewrite hitems hx ha
      have hkept : ((y.rewrite (fetchRewriting d.map table)).node.get .name) =
          (y.node.get .name).rewrite _ (y.spot.under y.node) := Node.get_name_rewrite_of_none hnone
      rw [hkept, hname, Value.rewrite_atom]
    fetch := fun {a} ha => Site.name_rewrite hfetches hywf (hfetch.trans ha)
    kept := fun hi hf => by
      have hname : (y.node.get .name).str? = (x.node.get .name).str? :=
        hy ▸ Node.str?_name_rewrite hi
      rw [← hname]
      exact Node.str?_name_rewrite (hfetch.trans hf) }

theorem Scanned.renamedBy (h : p.Scanned asked d) (table : ClassTable) {nodes : List Node}
    (hn : WellFormed nodes) :
    Forall₂ (p.Renames d.map table) (sites nodes)
      (sites (PropertyRenaming.renamedBy p d.map table nodes)) := by
  rw [PropertyRenaming.renamedBy, sites_rewriteUnit (h.fits_fetches _)
    (hn.rewriteUnit h.fits_items), sites_rewriteUnit h.fits_items hn, List.map_map,
    List.forall₂_map_right_iff]
  exact List.forall₂_same.mpr fun y hy => h.renames _ (hn _ (node_mem_preorder hy))

theorem Scanned.wellFormed_renamedBy (h : p.Scanned asked d) (table : ClassTable)
    {nodes : List Node} (hn : WellFormed nodes) :
    WellFormed (PropertyRenaming.renamedBy p d.map table nodes) := by
  refine wellFormed_of_sites fun z hz => ?_
  obtain ⟨y, -, hyz⟩ := mem_of_forall₂_right (h.renamedBy table hn) hz
  exact hyz.wellFormed

end Declarations.Plan

/-- How a run with the given final mapping leaves the node at a site. -/
structure Substituted (settings : Settings) (table : ClassTable) (mapping : List (Key × Atom))
    (before after : Site) : Prop where
  spot : after.spot = before.spot
  kind : after.node.kind = before.node.kind
  enclosing : after.node.place.enclosing = before.spot.owner
  declared {owner : ClassId} {name : String} : before.declared? = some (owner, .text name) →
    Atom.isIn (.text name) settings.ignore = false →
    ∃ new, after.node.get .name = .atom new ∧
      RenameMap.find? (propertyKey settings.scopedKeys table.scope owner (.text name)) mapping =
        some new
  fetched {owner : ClassId} {name : String} : before.node.kind.isFetch = true →
    before.node.get .name = .str name → before.spot.owner = some owner →
    table.isLocal after.node = .ok true →
    after.node.get .name = .atom ((RenameMap.find?
      (propertyKey settings.scopedKeys table.scope owner (.text name)) mapping).getD (.text name))
  kept : (∀ owner name, before.declared? = some (owner, .text name) →
      Atom.isIn (.text name) settings.ignore = true) →
    ¬ (before.node.kind.isFetch = true ∧ (before.node.get .name).str?.isSome = true ∧
      table.isLocal after.node = .ok true) →
    (after.node.get .name).str? = (before.node.get .name).str?

namespace Declarations.Plan

variable {γ : Type} {p : Plan γ} {d : Drawing γ} {settings : Settings} {table : ClassTable}
  {unit : List Node}

/-- The scan of a unit under some settings: its declared items are what is asked for. -/
structure Scans (p : Plan γ) (settings : Settings) (table : ClassTable) (unit : List Node)
    (d : Drawing γ) : Prop where
  ignore : p.terms.ignore = settings.ignore
  scope : p.terms.scope = table.scope
  perClass : p.perClass = settings.scopedKeys
  scanned : ∃ asked, p.Scanned asked d ∧ p.Apart asked ∧
    ∀ q, q ∈ asked ↔ ∃ x ∈ sites unit, x.declared? = some (q.1, .text q.2)

namespace Scans

theorem key_eq (h : p.Scans settings table unit d) (owner : ClassId) (name : String) :
    p.key (owner, name) = propertyKey settings.scopedKeys table.scope owner (.text name) := by
  rw [Plan.key, h.perClass, h.scope]

theorem ignores_iff (h : p.Scans settings table unit d) (name : String) :
    p.Ignores name ↔ Atom.isIn (.text name) settings.ignore = true := by
  rw [Plan.Ignores, h.ignore]

theorem find?_eq (h : p.Scans settings table unit d) (owner : ClassId) (name : String) :
    RenameMap.find? (propertyKey settings.scopedKeys table.scope owner (.text name))
      d.map.entries = d.map.get? (p.key (owner, name)) := by
  rw [h.key_eq]
  rfl

theorem exists_get? (h : p.Scans settings table unit d) {x : Site} (hx : x ∈ sites unit)
    {owner : ClassId} {name : String} (hdeclared : x.declared? = some (owner, .text name))
    (hig : Atom.isIn (.text name) settings.ignore = false) :
    ∃ new, d.map.get? (p.key (owner, name)) = some new := by
  obtain ⟨asked, hscanned, -, hasked⟩ := h.scanned
  have hq : (owner, name) ∈ asked := (hasked (owner, name)).mpr ⟨x, hx, hdeclared⟩
  exact Option.isSome_iff_exists.mp (hscanned.complete hq (by rw [h.ignores_iff, hig]; simp))

/-- The final map has exactly the declared items that are not ignored. -/
theorem mem_keys_iff (h : p.Scans settings table unit d) (key : Key) :
    key ∈ d.map.entries.map Prod.fst ↔ ∃ x ∈ sites unit, ∃ owner name,
      x.declared? = some (owner, .text name) ∧ Atom.isIn (.text name) settings.ignore = false ∧
      key = propertyKey settings.scopedKeys table.scope owner (.text name) := by
  obtain ⟨asked, hscanned, -, hasked⟩ := h.scanned
  constructor
  · intro hkey
    obtain ⟨e, he, rfl⟩ := List.mem_map.mp hkey
    obtain ⟨q, hq, hig, hk, -⟩ := hscanned.drawn he
    obtain ⟨x, hx, hdeclared⟩ := (hasked q).mp hq
    rw [h.ignores_iff, Bool.not_eq_true] at hig
    exact ⟨x, hx, q.1, q.2, hdeclared, hig, hk.trans (h.key_eq q.1 q.2)⟩
  · rintro ⟨x, hx, owner, name, hdeclared, hig, rfl⟩
    rw [← h.key_eq]
    obtain ⟨v, hv⟩ := h.exists_get? hx hdeclared hig
    obtain ⟨e, he, hcode, -⟩ := RenameMap.exists_mem_of_find?_eq_some hv
    rw [(hscanned.drawn he).code, Plan.code_key] at hcode
    exact hcode ▸ List.mem_map_of_mem he

theorem itemRewriting_eq (h : p.Scans settings table unit d) {x y : Site}
    (hxy : Resolved x y) (hx : x.node.WellFormed) {owner : ClassId} {name : String}
    (hdeclared : x.declared? = some (owner, .text name)) :
    itemRewriting (p.answer d.map) y = if Atom.isIn (.text name) settings.ignore then none
      else d.map.get? (p.key (owner, name)) := by
  rw [itemRewriting, hxy.declared? hx, hdeclared]
  simp only [Option.bind_some, Plan.answer, h.ignore, Plan.key]

theorem fetchRewriting_eq (h : p.Scans settings table unit d) {y : Site}
    {owner : ClassId} {name : String} (hlocal : y.node.localFetch? table = some (owner, name)) :
    fetchRewriting d.map table y = d.map.get? (p.key (owner, name)) := by
  obtain ⟨asked, hscanned, -, -⟩ := h.scanned
  rw [fetchRewriting, hlocal, Option.bind_some, Plan.key, hscanned.perClass, h.scope]

theorem substituted_site (h : p.Scans settings table unit d) {x y z : Site}
    (hx : x ∈ sites unit) (hxwf : x.node.WellFormed) (hxy : Resolved x y)
    (hyz : p.Renames d.map table y z) (hz : z.node.Sound) :
    Substituted settings table d.map.entries x z := by
  have henclosing : y.node.place.enclosing = x.spot.owner := hxy.enclosing
  -- Locality is read off the node after the run, but was settled before it.
  have hlocal : table.isLocal z.node = .ok true ↔ table.finds y.node = true := by
    rw [ClassTable.isLocal_eq _ hz, hyz.finds, Except.ok.injEq]
  have hname : ∀ {name : String}, (y.node.get .name).str? = some name ↔
      x.node.get .name = .str name := by
    intro name
    rw [hxy.name, Value.str?_eq_some_iff]
  exact {
    spot := hyz.spot.trans hxy.spot
    kind := hyz.kind.trans hxy.kind
    enclosing := by rw [hyz.place, henclosing]
    declared := fun {owner name} hdeclared hig => by
      obtain ⟨new, hnew⟩ := h.exists_get? hx hdeclared hig
      refine ⟨new, hyz.item ?_, (h.find?_eq owner name).trans hnew⟩
      rw [h.itemRewriting_eq hxy hxwf hdeclared, hig]
      exact hnew
    fetched := fun {owner name} hk hstr howner hloc => by
      have hky : y.node.kind.isFetch = true := by rw [hxy.kind, hk]
      have hfetch : y.node.localFetch? table = some (owner, name) :=
        Node.localFetch?_eq_some_iff.mpr
          ⟨Value.str?_eq_some_iff.mp (hname.mpr hstr), henclosing.trans howner, hky, hlocal.mp hloc⟩
      have hnew := h.fetchRewriting_eq hfetch
      rw [h.find?_eq]
      cases hget : d.map.get? (p.key (owner, name)) with
      | some new => exact hyz.fetch (hnew.trans hget)
      | none =>
        have hkept := hyz.kept (Plan.itemRewriting_of_isFetch hky) (hnew.trans hget)
        exact Value.str?_eq_some_iff.mp (hkept.trans (hname.mpr hstr))
    kept := fun hitem hfetch => by
      rw [← hxy.name]
      refine hyz.kept ?_ ?_
      · rw [Option.eq_none_iff_forall_ne_some]
        intro a ha
        obtain ⟨⟨owner, b⟩, hb, -⟩ := Option.bind_eq_some_iff.mp ha
        rw [hxy.declared? hxwf] at hb
        obtain ⟨hk, -, -, hb'⟩ := Site.declared?_eq_some_iff.mp hb
        obtain ⟨name, hn⟩ := hxwf.item_name hk
        obtain rfl : b = .text name := Value.atom.inj (hb'.symm.trans hn)
        simp [h.itemRewriting_eq hxy hxwf hb, hitem owner name hb] at ha
      · rw [Option.eq_none_iff_forall_ne_some]
        intro a ha
        obtain ⟨⟨owner, name⟩, hf, -⟩ := Option.bind_eq_some_iff.mp ha
        obtain ⟨hn, -, hk, hfinds⟩ := Node.localFetch?_eq_some_iff.mp hf
        refine hfetch ⟨hxy.kind ▸ hk, ?_, hlocal.mpr hfinds⟩
        rw [← hxy.name, hn]
        rfl }

/-- A unit whose class context is worked out and whose items and fetches are then renamed by the
final map. -/
theorem substituted (h : p.Scans settings table unit d) (hu : WellFormed unit) (s : Session γ) :
    Forall₂ (Substituted settings table d.map.entries) (sites unit)
      (sites (renamedBy p d.map table (resolution unit s).1)) := by
  obtain ⟨asked, hscanned, -, -⟩ := h.scanned
  have hwf := wellFormed_resolution hu s
  have hsound := (hscanned.wellFormed_renamedBy table hwf).sound
  have hsites : Forall₂ (fun x z => ∃ y, Resolved x y ∧ p.Renames d.map table y z) (sites unit)
      (sites (renamedBy p d.map table (resolution unit s).1)) :=
    forall₂_trans (fun _ y _ hxy hyz => ⟨y, hxy, hyz⟩) (resolved_sites hu s)
      (hscanned.renamedBy table hwf)
  refine List.forall₂_iff_get.mpr ⟨hsites.length_eq, fun i hi hi' => ?_⟩
  obtain ⟨y, hxy, hyz⟩ := hsites.get hi hi'
  have hx := List.get_mem (sites unit) ⟨i, hi⟩
  exact h.substituted_site hx (hu _ (node_mem_preorder hx)) hxy hyz
    (hsound _ (node_mem_preorder (List.get_mem _ _)))

end Scans

end Declarations.Plan

namespace Completed

variable {settings : Settings} {unit : List Node} {s : Session Unit} {report : Report}
  {s' : Session Names.Source} {p : Plan Names.Source} {d : Declarations.Drawing Names.Source}

theorem scans (h : Completed settings unit s report s' p d) :
    p.Scans settings (renameUnit settings unit s).session.classes unit d :=
  ⟨by rw [h.terms], by rw [h.terms, h.table], h.perClass, h.scanned⟩

theorem renamed (h : Completed settings unit s report s' p d) (hu : WellFormed unit) :
    Forall₂ (p.Renames d.map (resolution unit s').2.classes)
      (PropertyRenaming.sites (resolution unit s').1) (PropertyRenaming.sites report.nodes) := by
  obtain ⟨asked, hscanned, -, -⟩ := h.scanned
  rw [h.nodes]
  exact hscanned.renamedBy _ (wellFormed_resolution hu s')

theorem wellFormed (h : Completed settings unit s report s' p d) (hu : WellFormed unit) :
    WellFormed report.nodes := by
  obtain ⟨asked, hscanned, -, -⟩ := h.scanned
  rw [h.nodes]
  exact hscanned.wellFormed_renamedBy _ (wellFormed_resolution hu s')

theorem mem_keys_iff (h : Completed settings unit s report s' p d) (key : Key) :
    key ∈ report.mapping.map Prod.fst ↔ ∃ x ∈ PropertyRenaming.sites unit, ∃ owner name,
      x.declared? = some (owner, .text name) ∧ Atom.isIn (.text name) settings.ignore = false ∧
      key = propertyKey settings.scopedKeys (renameUnit settings unit s).session.classes.scope
        owner (.text name) := by
  rw [h.mapping]
  exact h.scans.mem_keys_iff key

theorem find?_eq (h : Completed settings unit s report s' p d) (owner : ClassId) (name : String) :
    RenameMap.find? (propertyKey settings.scopedKeys
        (renameUnit settings unit s).session.classes.scope owner (.text name)) report.mapping =
      d.map.get? (p.key (owner, name)) := by
  rw [h.mapping]
  exact h.scans.find?_eq owner name

theorem substituted (h : Completed settings unit s report s' p d) (hu : WellFormed unit) :
    Forall₂ (Substituted settings (renameUnit settings unit s).session.classes report.mapping)
      (PropertyRenaming.sites unit) (PropertyRenaming.sites report.nodes) := by
  rw [h.mapping, h.nodes, ← h.table]
  exact h.scans.substituted hu s'

end Completed

/-- The entries of the map after names have been drawn for the first items of a unit. -/
def entriesAfter (settings : Settings) (source : Names.Source) (unit : List Node)
    (s : Session Unit) (count : Nat) : List (Key × Atom) :=
  let o := resolveUnit unit { s.withOwn source with log := s.log.add (unitStart unit settings) }
  let terms : Declarations.Terms Names.Source :=
    { supply := Names.Source.draw, reserved := (reservedNames o.subject).toOption.getD []
      ignore := settings.ignore, scope := o.session.classes.scope }
  let d : Declarations.Drawing Names.Source :=
    { memory := source, map := { perClass := settings.scopedKeys }, log := o.session.log }
  (terms.serveAll ((Declarations.requests o.subject).take count) d).1.map.entries

/-- A run returns, and what it returns is the unit with its own final mapping put in: the keys of
the mapping are those of the declared items that are not ignored, each node is left as the mapping
says, and no entry has ever been overwritten. -/
def Substitutes (settings : Settings) (unit : List Node) (s : Session Unit) : Prop :=
  let o := renameUnit settings unit s
  ∃ report, o.reply = .ok report ∧ (report.mapping.map Prod.fst).Nodup ∧
    (∀ key, key ∈ report.mapping.map Prod.fst ↔ ∃ x ∈ sites unit, ∃ owner name,
      x.declared? = some (owner, .text name) ∧ Atom.isIn (.text name) settings.ignore = false ∧
      key = propertyKey settings.scopedKeys o.session.classes.scope owner (.text name)) ∧
    Forall₂ (Substituted settings o.session.classes report.mapping) (sites unit)
      (sites report.nodes) ∧
    ∀ source count, Names.Source.ofSettings settings = .ok source →
      entriesAfter settings source unit s count <+: report.mapping

/-- No search for a hashed name goes on for ever. -/
def SearchesEnd (settings : Settings) (unit : List Node) (s : Session Unit) : Prop :=
  Strategy.ofAtom? settings.strategy = some .hashed →
    ∀ name, (renameUnit settings unit s).reply ≠ .error (.searchAbandoned name)

theorem Completed.entriesAfter {settings : Settings} {unit : List Node} {s : Session Unit}
    {report : Report} {s' : Session Names.Source} {p : Plan Names.Source}
    {d : Declarations.Drawing Names.Source} (h : Completed settings unit s report s' p d)
    (hu : WellFormed unit) (hs : s.log.Quiet) {source : Names.Source}
    (hsource : Names.Source.ofSettings settings = .ok source) (count : Nat) :
    entriesAfter settings source unit s count <+: report.mapping := by
  obtain ⟨hsource', hstart⟩ := h.started
  obtain rfl : s'.own = source := Except.ok.inj (hsource'.symm.trans hsource)
  have hresolve := (resolveUnit_eq hu (s := s') (hstart ▸ hs.add _)).1
  have hgrown := h.grown count
  rw [h.terms] at hgrown
  rw [PropertyRenaming.entriesAfter, ← hstart, hresolve, h.mapping]
  dsimp only
  rw [reservedNames_eq (wellFormed_resolution hu s'), propertyNames_resolution hu]
  exact hgrown

/-- On every well-formed unit a run substitutes its final mapping. -/
theorem renameUnit_substitutes {settings : Settings} (hsettings : Names.Proper settings)
    {unit : List Node} (hunit : WellFormed unit) {s : Session Unit} (hlog : s.log.Quiet)
    (hcolon : settings.scopedKeys = true → ColonFree unit) (hends : SearchesEnd settings unit s) :
    Substitutes settings unit s := by
  rcases exists_completed hsettings hunit hlog hcolon with ⟨report, s', p, d, h⟩ | ⟨hs, name, hname⟩
  · obtain ⟨asked, hscanned, -, -⟩ := h.scanned
    exact ⟨report, h.reply, h.mapping ▸ hscanned.nodup, h.mem_keys_iff, h.substituted hunit,
      fun source count hsource => h.entriesAfter hunit hlog hsource count⟩
  · exact absurd hname (hends hs name)

section Sample

def sampleItem (name : String) : Value := .node ⟨.propertyItem, {}, [.str name, .null]⟩

def sampleFetch (object name : String) : Value :=
  .node ⟨.exprStmt, {}, [.node ⟨.fetch, {},
    [.node ⟨.variableRef, {}, [.str object]⟩, .str name, .bool false]⟩]⟩

def sampleStatic (cls name : String) : Value :=
  .node ⟨.exprStmt, {}, [.node ⟨.staticFetch, {},
    [.node ⟨.className, {}, [.str cls]⟩, .str name]⟩]⟩

/-- A named class with private and public properties, fetched locally and not, and inside it a class
without a name that declares one of the same names. -/
def sampleUnit : List Node :=
  [⟨.classDecl 0, {}, [.str "Point",
    .list [.node ⟨.propertyDecl, {}, [.int 4, .list [sampleItem "x", sampleItem "y"]]⟩,
      .node ⟨.propertyDecl, {}, [.int 1, .list [sampleItem "z"]]⟩,
      sampleFetch "this" "x", sampleFetch "this" "z", sampleFetch "other" "y",
      sampleStatic "self" "y", sampleStatic "Point" "x",
      .node ⟨.classDecl 1, {}, [.null,
        .list [.node ⟨.propertyDecl, {}, [.int 4, .list [sampleItem "x"]]⟩,
          sampleFetch "this" "x"], .null, .null]⟩],
    .node ⟨.className, {}, [.str "Shape"]⟩, .null]⟩]

def sampleSession : Session Unit := { classes := ⟨[.null, .null]⟩, own := () }

theorem wellFormed_sampleUnit : WellFormed sampleUnit := by decide

theorem colonFree_sampleUnit : ColonFree sampleUnit := by decide

end Sample

theorem renameUnit_substitutes_sample : Names.Proper { scopedKeys := true } ∧
    WellFormed sampleUnit ∧ ColonFree sampleUnit ∧ Log.Quiet {} ∧
    Substitutes { scopedKeys := true } sampleUnit sampleSession := by
  have hproper : Names.Proper { scopedKeys := true } := ⟨⟨.alphabetic, by decide⟩, "", rfl⟩
  have hquiet : Log.Quiet {} := by decide
  exact ⟨hproper, wellFormed_sampleUnit, colonFree_sampleUnit, hquiet,
    renameUnit_substitutes hproper wellFormed_sampleUnit hquiet (fun _ => colonFree_sampleUnit)
      nofun⟩

end PropertyRenaming
