import PropertyRenaming.Proofs.Fetches
import PropertyRenaming.Proofs.Scan

namespace PropertyRenaming

open Context (Calm)
open Declarations (Plan)
open Names (Steady)

/-- The property name that a node declares or fetches, if it is written out. -/
def Node.propertyName? (n : Node) : Option String :=
  if n.kind = .propertyItem || n.kind.isFetch then (n.get .name).str? else none

def propertyNames (unit : List Node) : List String := (preorder unit).filterMap Node.propertyName?

theorem Node.WellFormed.reservedName?_eq {n : Node} (hn : n.WellFormed) :
    n.reservedName? = n.propertyName?.map fun name => .ok (.text name) := by
  unfold Node.reservedName? Node.propertyName?
  by_cases hk : n.kind = .propertyItem
  · obtain ⟨name, hname⟩ := hn.item_name hk
    simp [hk, hname, Value.asName, Value.str?]
  · cases hf : n.kind.isFetch <;> simp [hk]

theorem reservedNames_eq {unit : List Node} (hu : WellFormed unit) :
    reservedNames unit = .ok ((propertyNames unit).map .text) := by
  have hmap : (preorder unit).filterMap Node.reservedName? =
      ((propertyNames unit).map .text).map Except.ok := by
    rw [propertyNames, List.map_map, List.map_filterMap]
    exact List.filterMap_congr fun n hn => (hu n hn).reservedName?_eq
  have hok : ∀ l : List Atom, (l.map (Except.ok : Atom → Except Fault Atom)).mapM id = .ok l := by
    intro l
    induction l with
    | nil => rfl
    | cons a l ih =>
      rw [List.map_cons, List.mapM_cons, ih]
      rfl
  rw [reservedNames, hmap, hok]

namespace Declarations

variable {γ : Type}

theorem exists_asked {unit : List Node} (hu : WellFormed unit) :
    ∃ asked : List (ClassId × String), requests unit = asked.map Plan.request ∧
      ∀ q, q ∈ asked ↔ ∃ x ∈ sites unit, x.declared? = some (q.1, .text q.2) := by
  have htext : ∀ x ∈ sites unit, ∀ e, x.declared? = some e → ∃ name, e.2 = .text name := by
    rintro x hx ⟨owner, a⟩ he
    obtain ⟨hk, -, -, hname⟩ := Site.declared?_eq_some_iff.mp he
    obtain ⟨name, h⟩ := (hu x.node (node_mem_preorder hx)).item_name hk
    exact ⟨name, Value.atom.inj (hname.symm.trans h)⟩
  obtain ⟨asked, hasked⟩ : requests unit ∈ Set.range (List.map Plan.request) := by
    rw [Set.range_list_map]
    intro r hr
    obtain ⟨x, hx, ⟨owner, a⟩, he, rfl⟩ := (mem_requests_iff hu).mp hr
    obtain ⟨name, rfl⟩ := htext x hx _ he
    exact ⟨(owner, name), rfl⟩
  have hinj : Function.Injective Plan.request := by
    rintro ⟨o, n⟩ ⟨o', n'⟩ h
    simpa [Plan.request] using h
  refine ⟨asked, hasked.symm, fun q => ?_⟩
  rw [← List.mem_map_of_injective hinj, hasked, mem_requests_iff hu]
  refine exists_congr fun x => and_congr_right fun _ => ?_
  constructor
  · rintro ⟨e, he, h⟩
    obtain ⟨ho, hn⟩ : q.1 = e.1 ∧ Atom.text q.2 = e.2 := by
      simpa [Plan.request, requestFor] using h
    rw [he, ho, hn]
  · exact fun he => ⟨_, he, rfl⟩

theorem finalNames_eq (d : Drawing γ) (asked : List (ClassId × String))
    (new : ClassId × String → Option Atom) :
    d.finalNames (asked.map Plan.request) (asked.map new) = asked.map new := by
  induction asked with
  | nil => rfl
  | cons q asked ih => simpa [Drawing.finalNames, Plan.request, Request.slot] using ih

/-- Renaming the declared items of a unit rewrites it by the final map, or a search goes on for
ever. -/
theorem renameAll_eq {p : Plan γ} {unit : List Node} (hu : WellFormed unit)
    {asked : List (ClassId × String)} (hasked : requests unit = asked.map Plan.request)
    (hapart : p.Apart asked) {d : Drawing γ} (hd : p.Scanned [] d) :
    (∃ d' names, p.terms.serveAll (asked.map Plan.request) { d with given := [] } =
          (d', names, none) ∧ renameAll p.terms unit d =
          ⟨rewriteUnit (itemRewriting (p.answer d'.map)) unit, d',
            .ok (names.countP Option.isSome)⟩ ∧
        p.Scanned asked.reverse d') ∨
      ∃ name taken, (renameAll p.terms unit d).count = .error (.searchAbandoned (.text name)) ∧
        (p.terms.supply (.text name) taken p.memory).name =
          .error (.searchAbandoned (.text name)) := by
  have hd' : p.Scanned [] { d with given := [] } :=
    ⟨hd.memory, hd.perClass, hd.quiet, hd.nodup, hd.drawn, hd.complete⟩
  rcases Plan.serveAll_eq hd' asked (by simpa using hapart) with
    ⟨d', hserve, hscanned, -⟩ | ⟨d', names, name, taken, hserve, hname⟩
  · refine Or.inl ⟨d', _, hserve, ?_, by simpa using hscanned⟩
    have hnames : asked.map (fun q => p.answer d'.map q.1 (.text q.2)) =
        (requests unit).map (answer (p.answer d'.map)) := by
      rw [hasked, List.map_map]
      rfl
    rw [renameAll, hasked, hserve]
    dsimp only
    rw [finalNames_eq, hnames, rename_eq hu]
  · refine Or.inr ⟨name, taken, ?_, hname⟩
    rw [renameAll, hasked, hserve]

end Declarations

variable {γ : Type} {supply : Names.Supply γ}

def runPlan (settings : Settings) (nodes : List Node) (table : ClassTable) {memory : γ}
    {candidate : Atom → Nat → String} (steady : Steady supply memory candidate) : Plan γ where
  terms :=
    { supply, reserved := (propertyNames nodes).map .text, ignore := settings.ignore
      scope := table.scope }
  memory
  candidate
  perClass := settings.scopedKeys
  steady

namespace Renamer

def start (settings : Settings) (memory : γ) : Renamer γ :=
  { memory, map := { perClass := settings.scopedKeys }, ignore := settings.ignore }

theorem before_eq {settings : Settings} {nodes : List Node} (hu : WellFormed nodes)
    {s : Session γ} (hs : Calm s) {candidate : Atom → Nat → String}
    (steady : Steady supply s.own candidate) {asked : List (ClassId × String)}
    (hasked : Declarations.requests nodes = asked.map Plan.request)
    (hapart : (runPlan settings nodes s.classes steady).Apart asked) :
    let p := runPlan settings nodes s.classes steady
    (∃ d names count, p.terms.serveAll (asked.map Plan.request)
          { memory := s.own, map := { perClass := settings.scopedKeys }, log := s.log } =
            (d, names, none) ∧
        before supply nodes (s.withOwn (start settings s.own)) =
          Session.done ⟨d.log, s.classes, s.shares,
              { start settings s.own with map := d.map, declarations := count }⟩
            (rewriteUnit (itemRewriting (p.answer d.map)) nodes) .keep ∧
        p.Scanned asked.reverse d) ∨
      ∃ name taken, (before supply nodes (s.withOwn (start settings s.own))).reply =
          .error (.searchAbandoned (.text name)) ∧
        (supply (.text name) taken s.own).name = .error (.searchAbandoned (.text name)) := by
  intro p
  have hscanned := p.scanned_nil hs.2
  have hreserved := reservedNames_eq hu
  rcases Declarations.renameAll_eq hu hasked hapart hscanned with
    ⟨d, names, hserve, hrename, hd⟩ | ⟨name, taken, hcount, hname⟩
  · refine Or.inl ⟨d, names, names.countP Option.isSome, hserve, ?_, hd⟩
    have hmemory : d.memory = s.own := hd.memory
    rw [before, hreserved]
    dsimp only [p, runPlan] at hrename
    dsimp only [Session.withOwn, start, restart, RenameMap.clear]
    rw [hrename]
    dsimp only
    rw [hmemory]
    rfl
  · refine Or.inr ⟨name, taken, ?_, hname⟩
    rw [before, hreserved]
    dsimp only [p, runPlan] at hcount
    dsimp only [Session.withOwn, start, restart, RenameMap.clear]
    rw [hcount]
    rfl

theorem after_eq {s : Session (Renamer γ)} (hs : s.log.Quiet) (unit : List Node) :
    after unit s = Session.done { s with log := s.log.add s.own.summary } unit .keep := by
  simp only [after, Session.note]
  rw [hs.write (r := s.own.summary) (by simp [summary])]

/-- A walk once the items are renamed: it sweeps the fetches and writes what it has counted. -/
theorem traverse_eq {limit : Nat} {unit items : List Node} {s t : Session (Renamer γ)}
    (hbefore : before supply unit s = t.done items .keep) (hd : depth items ≤ limit)
    (hitems : ∀ n ∈ preorder items, n.Legible) (ht : t.log.Quiet) :
    traverse limit [visitor supply] unit s =
      let o := sweepUnit sweep t.settled items
      ⟨o.1, { o.2 with log := o.2.log.add o.2.own.summary }, .ok o.1⟩ := by
  have hcalm : Calm t.settled := ⟨rfl, ht⟩
  have hquiet := ((describes supply).walkUnit hd hitems hcalm).2.2
  exact (describes supply).traverse (v := visitor supply) hbefore hd hitems hcalm
    (after_eq hquiet _)

end Renamer

namespace Declarations.Plan

variable {p : Plan γ} {asked : List (ClassId × String)} {d : Drawing γ}

theorem Scanned.get?_text (h : p.Scanned asked d) {key : Key} {v : Atom}
    (hv : d.map.get? key = some v) : ∃ t, v = .text t := by
  obtain ⟨e, he, -, rfl⟩ := RenameMap.exists_mem_of_find?_eq_some hv
  obtain ⟨q, -, -, -, k, hvalue, -⟩ := h.drawn he
  exact ⟨_, hvalue⟩

theorem Scanned.fits_items (h : p.Scanned asked d) : (itemRewriting (p.answer d.map)).Fits where
  kind hx := by
    obtain ⟨⟨o, a⟩, hx, -⟩ := Option.bind_eq_some_iff.mp hx
    exact Or.inl (Site.declared?_eq_some_iff.mp hx).1
  literal hn hx := by
    obtain ⟨⟨o, a⟩, hx, -⟩ := Option.bind_eq_some_iff.mp hx
    exact hn.item_name (Site.declared?_eq_some_iff.mp hx).1
  text {x a} hx := by
    obtain ⟨e, -, he⟩ := Option.bind_eq_some_iff.mp hx
    unfold answer at he
    split at he
    · cases he
    · exact h.get?_text he

theorem Scanned.fits_fetches (h : p.Scanned asked d) (table : ClassTable) :
    (fetchRewriting d.map table).Fits where
  kind hx := Or.inr (Renamer.fetchRewriting_literal hx).1
  literal _ hx := (Renamer.fetchRewriting_literal hx).2
  text {x a} hx := by
    obtain ⟨e, -, he⟩ := Option.bind_eq_some_iff.mp hx
    exact h.get?_text he

end Declarations.Plan

/-- A unit with its items and then its local fetches renamed by a map. -/
def renamedBy (p : Plan γ) (m : RenameMap) (table : ClassTable) (nodes : List Node) : List Node :=
  rewriteUnit (fetchRewriting m table) (rewriteUnit (itemRewriting (p.answer m)) nodes)

theorem renameResolved_def (settings : Settings) (nodes : List Node) (s : Session γ) :
    renameResolved supply settings nodes s =
      let o := traverse (depth nodes) [Renamer.visitor supply] nodes
        (s.withOwn (Renamer.start settings s.own))
      ⟨o.subject, o.session.withOwn o.session.own.memory, o.reply.map o.session.own.report⟩ := rfl

/-- A run once the items are renamed: it rewrites the fetches and comes to its end. -/
theorem renameResolved_of_before {settings : Settings} {nodes items : List Node} {s : Session γ}
    {t : Session (Renamer γ)}
    (hbefore : Renamer.before supply nodes (s.withOwn (Renamer.start settings s.own)) =
      t.done items .keep)
    (hd : depth items ≤ depth nodes) (hitems : ∀ n ∈ preorder items, n.Legible)
    (ht : t.log.Quiet) :
    let o := renameResolved supply settings nodes s
    ∃ report, o.reply = .ok report ∧ o.subject = report.nodes ∧
      report.nodes = rewriteUnit (fetchRewriting t.own.map t.classes) items ∧
      report.mapping = t.own.map.entries ∧ o.session.classes = t.classes ∧
      o.session.log.Quiet := by
  intro o
  obtain ⟨hsweep, hkeeps⟩ := Renamer.sweepUnit_eq t.settled items
  have hquiet := (Renamer.quiet_of_keeps hkeeps ⟨rfl, ht⟩).2
  have htraverse := Renamer.traverse_eq hbefore hd hitems ht
  obtain ⟨u, hu⟩ : ∃ u, u = (sweepUnit Renamer.sweep t.settled items).2 := ⟨_, rfl⟩
  rw [← hu] at hkeeps hquiet
  dsimp only at htraverse
  rw [hsweep, ← hu] at htraverse
  refine ⟨u.own.report (rewriteUnit (fetchRewriting t.own.map t.classes) items), ?_, ?_, rfl,
    congrArg RenameMap.entries hkeeps.map, ?_, ?_⟩ <;>
    rw [show o = _ from renameResolved_def settings nodes s, htraverse]
  · rfl
  · rfl
  · exact hkeeps.classes
  · exact hquiet.add _

theorem renameResolved_eq {settings : Settings} {nodes : List Node} (hu : WellFormed nodes)
    {s : Session γ} (hs : Calm s) {candidate : Atom → Nat → String}
    (steady : Steady supply s.own candidate) {asked : List (ClassId × String)}
    (hasked : Declarations.requests nodes = asked.map Plan.request)
    (hapart : (runPlan settings nodes s.classes steady).Apart asked) :
    let p := runPlan settings nodes s.classes steady
    let o := renameResolved supply settings nodes s
    (∃ d names report, p.terms.serveAll (asked.map Plan.request)
          { memory := s.own, map := { perClass := settings.scopedKeys }, log := s.log } =
            (d, names, none) ∧ o.reply = .ok report ∧ o.subject = report.nodes ∧
        report.nodes = renamedBy p d.map s.classes nodes ∧ report.mapping = d.map.entries ∧
        p.Scanned asked.reverse d ∧ o.session.classes = s.classes ∧ o.session.log.Quiet) ∨
      ∃ name taken, o.reply = .error (.searchAbandoned (.text name)) ∧
        (supply (.text name) taken s.own).name = .error (.searchAbandoned (.text name)) := by
  intro p o
  rcases Renamer.before_eq hu hs steady hasked hapart with
    ⟨d, names, count, hserve, hbefore, hd⟩ | ⟨name, taken, hbefore, hname⟩
  · have hwf := (hu.rewriteUnit hd.fits_items).legible
    obtain ⟨report, hreply, hsubject, hnodes, hmapping, hclasses, hquiet⟩ :=
      renameResolved_of_before hbefore (depth_rewriteUnit _ _) hwf hd.quiet
    exact Or.inl ⟨d, names, report, hserve, hreply, hsubject, hnodes, hmapping, hd, hclasses, hquiet⟩
  · refine Or.inr ⟨name, taken, ?_, hname⟩
    have hvisitor : ((Renamer.visitor supply).before nodes
        (s.withOwn (Renamer.start settings s.own))).reply =
          .error (.searchAbandoned (.text name)) :=
      hbefore
    rw [show o = _ from renameResolved_def settings nodes s]
    simp only [traverse_of_before_error hvisitor, Except.map]

theorem propertyNames_eq_sites (unit : List Node) :
    propertyNames unit = (sites unit).filterMap fun x => x.node.propertyName? := by
  rw [propertyNames, ← map_node_sites, List.filterMap_map]
  rfl

theorem Resolved.propertyName? {x y : Site} (h : Resolved x y) :
    y.node.propertyName? = x.node.propertyName? := by
  simp only [Node.propertyName?, h.kind, h.name]

theorem propertyNames_resolution {unit : List Node} (hu : WellFormed unit) (s : Session γ) :
    propertyNames (resolution unit s).1 = propertyNames unit := by
  rw [propertyNames_eq_sites, propertyNames_eq_sites]
  have h := resolved_sites hu s
  generalize sites unit = xs at h ⊢
  generalize sites (resolution unit s).1 = ys at h ⊢
  induction h with
  | nil => rfl
  | cons hxy _ ih => simp only [List.filterMap_cons, hxy.propertyName?, ih]

def ColonFree (unit : List Node) : Prop := ∀ name ∈ propertyNames unit, ':' ∉ name.toList

instance (unit : List Node) : Decidable (ColonFree unit) :=
  inferInstanceAs (Decidable (∀ name ∈ propertyNames unit, ':' ∉ name.toList))

theorem mem_propertyNames_of_declared {unit : List Node} {x : Site} (hx : x ∈ sites unit)
    {owner : ClassId} {name : String} (h : x.declared? = some (owner, .text name)) :
    name ∈ propertyNames unit := by
  obtain ⟨hk, -, -, hname⟩ := Site.declared?_eq_some_iff.mp h
  refine List.mem_filterMap.mpr ⟨x.node, node_mem_preorder hx, ?_⟩
  simp [Node.propertyName?, hk, hname, Value.str?]

theorem Resolved.declared? {x y : Site} (h : Resolved x y) (hx : x.node.WellFormed) :
    y.declared? = x.declared? := by
  by_cases hk : x.node.kind = .propertyItem
  · obtain ⟨name, hname⟩ := hx.item_name hk
    have hstr : (y.node.get .name).str? = some name := by rw [h.name, hname]; rfl
    simp only [Site.declared?, h.kind, h.spot, hname, Value.str?_eq_some_iff.mp hstr]
  · rw [Site.declared?_eq_none (Or.inl hk), Site.declared?_eq_none (Or.inl (h.kind ▸ hk))]

theorem exists_declared_resolution {unit : List Node} (hu : WellFormed unit) (s : Session γ)
    (e : ClassId × Atom) :
    (∃ y ∈ sites (resolution unit s).1, y.declared? = some e) ↔
      ∃ x ∈ sites unit, x.declared? = some e := by
  have h := resolved_sites hu s
  have hwf : ∀ x ∈ sites unit, x.node.WellFormed := fun x hx => hu x.node (node_mem_preorder hx)
  generalize sites unit = xs at h hwf ⊢
  generalize sites (resolution unit s).1 = ys at h ⊢
  induction h with
  | nil => simp
  | cons hxy _ ih =>
    simp only [List.mem_cons, exists_eq_or_imp, hxy.declared? (hwf _ List.mem_cons_self),
      ih fun x hx => hwf x (List.mem_cons_of_mem _ hx)]

/-- In flat runs a key is the name, and in scoped runs a name without a colon can be read off it. -/
theorem apart_runPlan {settings : Settings} {nodes : List Node} (table : ClassTable) {memory : γ}
    {candidate : Atom → Nat → String} (steady : Steady supply memory candidate)
    (hcolon : settings.scopedKeys = true → ColonFree nodes) {asked : List (ClassId × String)}
    (hasked : ∀ q ∈ asked, ∃ x ∈ sites nodes, x.declared? = some (q.1, .text q.2)) :
    (runPlan settings nodes table steady).Apart asked := by
  have hfree : ∀ q ∈ asked, settings.scopedKeys = true → ':' ∉ q.2.toList := by
    intro q hq hscoped
    obtain ⟨x, hx, hdeclared⟩ := hasked q hq
    exact hcolon hscoped q.2 (mem_propertyNames_of_declared hx hdeclared)
  intro q hq q' hq' hkey
  exact (propertyKey_inj (hfree q hq) (hfree q' hq') hkey).1

/-- A run resolves, and then renames what it has resolved. -/
theorem renameWith_eq {settings : Settings} {strategy : Strategy}
    (hcheck : settings.check = .ok strategy) {unit : List Node} (hu : WellFormed unit)
    {s : Session γ} (hs : s.log.Quiet) {s' : Session γ}
    (hs' : s' = { s with log := s.log.add (unitStart unit settings) }) :
    renameWith supply settings unit s =
      renameResolved supply settings (resolution unit s').1
        ((resolution unit s').2.withOwn s'.own) := by
  have hnote : s.log.write (unitStart unit settings) =
      .ok (s.log.add (unitStart unit settings)) := hs.write (r := unitStart unit settings) nofun
  have hquiet : s'.log.Quiet := hs' ▸ hs.add _
  simp only [renameWith, hcheck, Session.note, hnote, ← hs', (resolveUnit_eq hu hquiet).1]

theorem renameUnit_eq {settings : Settings} {strategy : Strategy}
    (hcheck : settings.check = .ok strategy) {source : Names.Source}
    (hsource : Names.Source.ofSettings settings = .ok source) {unit : List Node}
    (hu : WellFormed unit) {s : Session Unit} (hs : s.log.Quiet) {s' : Session Names.Source}
    (hs' : s' = { s.withOwn source with log := s.log.add (unitStart unit settings) }) :
    renameUnit settings unit s =
      let o := renameResolved Names.Source.draw settings (resolution unit s').1
        ((resolution unit s').2.withOwn s'.own)
      ⟨o.subject, o.session.withOwn (), o.reply⟩ := by
  simp only [renameUnit, hcheck, hsource, renameWith_eq hcheck hu (s := s.withOwn source) hs hs']

theorem renameResolved_resolution {settings : Settings} {unit : List Node} (hu : WellFormed unit)
    {s : Session γ} (hs : s.log.Quiet) {candidate : Atom → Nat → String}
    (steady : Steady supply s.own candidate)
    (hcolon : settings.scopedKeys = true → ColonFree unit) :
    let nodes := (resolution unit s).1
    let t := (resolution unit s).2.withOwn s.own
    let p := runPlan settings nodes t.classes steady
    let o := renameResolved supply settings nodes t
    (∃ asked d names report, Declarations.requests nodes = asked.map Plan.request ∧
        p.terms.serveAll (asked.map Plan.request)
          { memory := s.own, map := { perClass := settings.scopedKeys }, log := t.log } =
            (d, names, none) ∧ o.reply = .ok report ∧ o.subject = report.nodes ∧
        report.nodes = renamedBy p d.map t.classes nodes ∧ report.mapping = d.map.entries ∧
        o.session.classes = t.classes ∧ o.session.log.Quiet ∧ p.Scanned asked.reverse d ∧
        p.Apart asked ∧ ∀ q, q ∈ asked ↔ ∃ x ∈ sites unit, x.declared? = some (q.1, .text q.2)) ∨
      ∃ name taken, o.reply = .error (.searchAbandoned (.text name)) ∧
        (supply (.text name) taken s.own).name = .error (.searchAbandoned (.text name)) := by
  intro nodes t p o
  obtain ⟨-, hcalm⟩ := resolveUnit_eq hu hs
  have hwf := wellFormed_resolution hu s
  obtain ⟨asked, hasked, hmem⟩ := Declarations.exists_asked hwf
  have hcolon' : settings.scopedKeys = true → ColonFree (resolution unit s).1 := by
    intro hscoped
    rw [ColonFree, propertyNames_resolution hu]
    exact hcolon hscoped
  have hapart : p.Apart asked := apart_runPlan t.classes steady hcolon' fun q => (hmem q).mp
  refine (renameResolved_eq hwf (s := t) hcalm steady hasked hapart).imp ?_ id
  rintro ⟨d, names, report, hserve, hreply, hsubject, hnodes, hmapping, hscanned, hclasses, hquiet⟩
  refine ⟨asked, d, names, report, hasked, hserve, hreply, hsubject, hnodes, hmapping, hclasses,
    hquiet, hscanned, hapart, fun q => ?_⟩
  rw [hmem, exists_declared_resolution hu]

/-- What there is to know of a run that has come to its end: the session in which the class context
was worked out, the rules of the scan and where it ended. -/
structure Completed (settings : Settings) (unit : List Node) (s : Session Unit) (report : Report)
    (s' : Session Names.Source) (p : Plan Names.Source)
    (d : Declarations.Drawing Names.Source) : Prop where
  reply : (renameUnit settings unit s).reply = .ok report
  subject : (renameUnit settings unit s).subject = report.nodes
  table : (renameUnit settings unit s).session.classes = (resolution unit s').2.classes
  quiet : (renameUnit settings unit s).session.log.Quiet
  started : Names.Source.ofSettings settings = .ok s'.own ∧
    s' = { s.withOwn s'.own with log := s.log.add (unitStart unit settings) }
  nodes : report.nodes = renamedBy p d.map (resolution unit s').2.classes (resolution unit s').1
  mapping : report.mapping = d.map.entries
  terms : p.terms =
    { supply := Names.Source.draw, reserved := (propertyNames unit).map .text
      ignore := settings.ignore, scope := (resolution unit s').2.classes.scope }
  perClass : p.perClass = settings.scopedKeys
  grown (k : Nat) : (p.terms.serveAll ((Declarations.requests (resolution unit s').1).take k)
      { memory := s'.own, map := { perClass := settings.scopedKeys }
        log := (resolution unit s').2.log }).1.map.entries <+: d.map.entries
  scanned : ∃ asked, p.Scanned asked d ∧ p.Apart asked ∧
    ∀ q, q ∈ asked ↔ ∃ x ∈ sites unit, x.declared? = some (q.1, .text q.2)

/-- A run comes to its end, or one of its searches for a name does not. -/
theorem exists_completed {settings : Settings} (hset : Names.Proper settings) {unit : List Node}
    (hu : WellFormed unit) {s : Session Unit} (hs : s.log.Quiet)
    (hcolon : settings.scopedKeys = true → ColonFree unit) :
    (∃ report s' p d, Completed settings unit s report s' p d) ∨
      (Strategy.ofAtom? settings.strategy = some .hashed ∧
        ∃ name, (renameUnit settings unit s).reply = .error (.searchAbandoned name)) := by
  obtain ⟨strategy, hstrategy, hcheck, -⟩ := hset.strategy
  obtain ⟨source, candidate, hsource, steady, hends⟩ := hset.steady
  obtain ⟨s', hs'⟩ : ∃ s' : Session Names.Source,
      s' = { s.withOwn source with log := s.log.add (unitStart unit settings) } := ⟨_, rfl⟩
  have hquiet' : s'.log.Quiet := hs' ▸ hs.add _
  have hown : s'.own = source := by rw [hs']; rfl
  have hrun := renameUnit_eq hcheck hsource hu hs hs'
  have steady' : Steady Names.Source.draw s'.own candidate := hown ▸ steady
  rcases renameResolved_resolution hu hquiet' steady' hcolon with
    ⟨asked, d, names, report, hasked, hserve, hreply, hsubject, hnodes, hmapping, hclasses, hquiet,
      hscanned, hapart, hmem⟩ | ⟨name, taken, hreply, hname⟩
  · refine Or.inl ⟨report, s', runPlan settings (resolution unit s').1
      (resolution unit s').2.classes steady', d, ?_⟩
    exact {
      reply := by rw [hrun]; exact hreply
      subject := by rw [hrun]; exact hsubject
      table := by rw [hrun]; exact hclasses
      quiet := by rw [hrun]; exact hquiet
      started := ⟨by rw [hown]; exact hsource, by rw [hown]; exact hs'⟩
      nodes := hnodes
      mapping := hmapping
      terms := by rw [← propertyNames_resolution hu s']; rfl
      perClass := rfl
      grown := fun k => by
        rw [hasked]
        exact Plan.serveAll_take
          (Plan.scanned_nil _ (resolveUnit_eq hu hquiet').2.2) (by simpa using hapart) hserve k
      scanned := ⟨asked.reverse, hscanned, hapart.mono (by simp), by simpa using hmem⟩ }
  · refine Or.inr ⟨?_, .text name, by rw [hrun]; exact hreply⟩
    cases strategy with
    | hashed => exact hstrategy
    | alphabetic =>
      -- This strategy has more candidates than there are names in use.
      rw [hown] at hname
      exact absurd hname (hends hstrategy _ _)

end PropertyRenaming
