import PropertyRenaming.Proofs.Substitution

namespace PropertyRenaming

open Declarations (Plan)

namespace Declarations.Plan

variable {γ : Type} {p : Plan γ} {asked : List (ClassId × String)} {d : Drawing γ}

theorem Scanned.key_eq_of_value_eq (h : p.Scanned asked d) {e f : Key × Atom}
    (he : e ∈ d.map.entries) (hf : f ∈ d.map.entries) (hv : e.2 = f.2) : e.1 = f.1 := by
  by_contra hne
  obtain ⟨q, -, -, hkey, k, hvalue, hfree⟩ := h.drawn he
  have hcode : f.1.code ≠ e.1.code := by
    rw [(h.drawn he).code, (h.drawn hf).code]
    exact fun hc => hne hc.symm
  refine hfree.free (List.mem_append_right _ ?_)
  rw [← hvalue, hv]
  exact mem_others hf hcode

theorem Scanned.value_not_mem_reserved (h : p.Scanned asked d) {e : Key × Atom}
    (he : e ∈ d.map.entries) : e.2 ∉ p.terms.reserved := by
  obtain ⟨q, -, -, -, k, hvalue, hfree⟩ := h.drawn he
  rw [hvalue]
  exact fun hmem => hfree.free (List.mem_append_left _ hmem)

/-- The map has one name for two properties only if they have one name already. -/
theorem Scanned.name_eq_of_get?_eq (h : p.Scanned asked d) {q r : ClassId × String} {v : Atom}
    (hq : p.perClass = true → ':' ∉ q.2.toList) (hr : p.perClass = true → ':' ∉ r.2.toList)
    (hgq : d.map.get? (p.key q) = some v) (hgr : d.map.get? (p.key r) = some v) : q.2 = r.2 := by
  obtain ⟨e, he, hce, hve⟩ := RenameMap.exists_mem_of_find?_eq_some hgq
  obtain ⟨f, hf, hcf, hvf⟩ := RenameMap.exists_mem_of_find?_eq_some hgr
  have hkey : p.key q = p.key r := by
    rw [← code_key q, ← code_key r, ← hce, ← hcf, h.key_eq_of_value_eq he hf (hve.trans hvf.symm)]
  exact (propertyKey_inj hq hr hkey).1

end Declarations.Plan

/-- The property names of a unit by the nodes that have them, in pre-order. -/
def occurrences (unit : List Node) : List (Option String) := (preorder unit).map Node.propertyName?

theorem getElem?_occurrences (unit : List Node) (i : Nat) :
    (occurrences unit)[i]? = (sites unit)[i]?.map fun x => x.node.propertyName? := by
  rw [occurrences, ← map_node_sites, List.map_map, List.getElem?_map]
  rfl

theorem mem_propertyNames_of_site {unit : List Node} {x : Site} (hx : x ∈ sites unit)
    {name : String} (h : x.node.propertyName? = some name) : name ∈ propertyNames unit :=
  List.mem_filterMap.mpr ⟨x.node, node_mem_preorder hx, h⟩

theorem Node.propertyName?_eq_some_iff {n : Node} {name : String} :
    n.propertyName? = some name ↔
      (n.kind = .propertyItem ∨ n.kind.isFetch = true) ∧ n.get .name = .str name := by
  unfold Node.propertyName?
  by_cases hk : n.kind = .propertyItem
  · simp [hk, Value.str?_eq_some_iff]
  · cases hf : n.kind.isFetch <;> simp [hk, Value.str?_eq_some_iff]

namespace Completed

variable {settings : Settings} {unit : List Node} {s : Session Unit} {report : Report}
  {s' : Session Names.Source} {p : Plan Names.Source} {d : Declarations.Drawing Names.Source}

theorem fate (h : Completed settings unit s report s' p d) {x z : Site}
    (hxz : Substituted settings (renameUnit settings unit s).session.classes report.mapping x z)
    {name : String} (hname : x.node.propertyName? = some name) :
    z.node.propertyName? = some name ∨
      ∃ owner new, z.node.propertyName? = some new ∧
        d.map.get? (p.key (owner, name)) = some (.text new) := by
  obtain ⟨asked, hscanned, -, -⟩ := h.scanned
  obtain ⟨hkind, hstr⟩ := Node.propertyName?_eq_some_iff.mp hname
  have hkindz : z.node.kind = .propertyItem ∨ z.node.kind.isFetch = true := hxz.kind ▸ hkind
  -- A kept text is the name; a new one comes from the map.
  have hkept : (z.node.get .name).str? = (x.node.get .name).str? →
      z.node.propertyName? = some name := by
    intro heq
    rw [hstr] at heq
    exact Node.propertyName?_eq_some_iff.mpr ⟨hkindz, Value.str?_eq_some_iff.mp heq⟩
  have hnew : ∀ {owner : ClassId} {a : Atom}, z.node.get .name = .atom a →
      d.map.get? (p.key (owner, name)) = some a → ∃ owner new, z.node.propertyName? = some new ∧
        d.map.get? (p.key (owner, name)) = some (.text new) := by
    intro owner a hz hget
    obtain ⟨new, rfl⟩ := hscanned.get?_text hget
    exact ⟨owner, new, Node.propertyName?_eq_some_iff.mpr ⟨hkindz, hz⟩, hget⟩
  by_cases hlocal : x.node.kind.isFetch = true ∧
      (renameUnit settings unit s).session.classes.isLocal z.node = .ok true
  · obtain ⟨hk, hloc⟩ := hlocal
    obtain ⟨owner, howner⟩ := ClassTable.exists_enclosing_of_isLocal hloc
    rw [hxz.enclosing] at howner
    have hz := hxz.fetched hk hstr howner hloc
    rw [h.find?_eq] at hz
    cases hget : d.map.get? (p.key (owner, name)) with
    | none =>
      rw [hget] at hz
      exact Or.inl (Node.propertyName?_eq_some_iff.mpr ⟨hkindz, hz⟩)
    | some a =>
      rw [hget] at hz
      exact Or.inr (hnew hz hget)
  · by_cases hitem : ∃ owner, x.declared? = some (owner, .text name) ∧
        Atom.isIn (.text name) settings.ignore = false
    · obtain ⟨owner, hdeclared, hig⟩ := hitem
      obtain ⟨a, hz, hfind⟩ := hxz.declared hdeclared hig
      rw [h.find?_eq] at hfind
      exact Or.inr (hnew hz hfind)
    · refine Or.inl (hkept (hxz.kept (fun owner b hb => ?_) fun hf => hlocal ⟨hf.1, hf.2.2⟩))
      obtain ⟨-, -, -, hb'⟩ := Site.declared?_eq_some_iff.mp hb
      obtain rfl : b = name := Atom.text.inj (Value.atom.inj (hb'.symm.trans hstr))
      by_contra hig
      exact hitem ⟨owner, hb, by simpa using hig⟩

theorem exists_substituted (h : Completed settings unit s report s' p d) (hu : WellFormed unit)
    {i : Nat} {x : Site} (hx : (PropertyRenaming.sites unit)[i]? = some x) :
    ∃ z, (PropertyRenaming.sites report.nodes)[i]? = some z ∧ x ∈ PropertyRenaming.sites unit ∧
      Substituted settings (renameUnit settings unit s).session.classes report.mapping x z := by
  obtain ⟨z, hz, hxz⟩ := exists_getElem?_of_forall₂ (h.substituted hu) hx
  exact ⟨z, hz, List.mem_of_getElem? hx, hxz⟩

theorem value_ne (h : Completed settings unit s report s' p d) {e : Key × Atom}
    (he : e ∈ report.mapping) {name : String} (hname : name ∈ propertyNames unit) :
    e.2 ≠ .text name := by
  obtain ⟨asked, hscanned, -, -⟩ := h.scanned
  rw [h.mapping] at he
  intro hv
  refine hscanned.value_not_mem_reserved he ?_
  rw [hv, h.terms]
  exact List.mem_map_of_mem hname

theorem names_ne (h : Completed settings unit s report s' p d)
    (hcolon : settings.scopedKeys = true → ColonFree unit) {x x' z z' : Site}
    (hx : x ∈ PropertyRenaming.sites unit) (hx' : x' ∈ PropertyRenaming.sites unit)
    (hxz : Substituted settings (renameUnit settings unit s).session.classes report.mapping x z)
    (hxz' : Substituted settings (renameUnit settings unit s).session.classes report.mapping x' z')
    {n m : String} (hn : x.node.propertyName? = some n) (hm : x'.node.propertyName? = some m)
    (hne : n ≠ m) :
    ∃ n' m', z.node.propertyName? = some n' ∧ z'.node.propertyName? = some m' ∧ n' ≠ m' := by
  obtain ⟨asked, hscanned, -, -⟩ := h.scanned
  have hmem := mem_propertyNames_of_site hx hn
  have hmem' := mem_propertyNames_of_site hx' hm
  have hfresh : ∀ {key : Key} {new : String}, d.map.get? key = some (.text new) →
      new ∉ propertyNames unit := by
    intro key new hget hnew
    obtain ⟨e, he, -, hv⟩ := RenameMap.exists_mem_of_find?_eq_some hget
    exact h.value_ne (h.mapping ▸ he) hnew hv
  rcases h.fate hxz hn with hz | ⟨owner, new, hz, hget⟩ <;>
    rcases h.fate hxz' hm with hz' | ⟨owner', new', hz', hget'⟩
  · exact ⟨n, m, hz, hz', hne⟩
  · exact ⟨n, new', hz, hz', fun heq => hfresh hget' (heq ▸ hmem)⟩
  · exact ⟨new, m, hz, hz', fun heq => hfresh hget (heq ▸ hmem')⟩
  · refine ⟨new, new', hz, hz', fun heq => hne ?_⟩
    subst heq
    exact hscanned.name_eq_of_get?_eq (q := (owner, n)) (r := (owner', m))
      (fun hp => hcolon (h.perClass ▸ hp) n hmem) (fun hp => hcolon (h.perClass ▸ hp) m hmem')
      hget hget'

theorem names_eq (h : Completed settings unit s report s' p d)
    (hcolon : settings.scopedKeys = true → ColonFree unit) {x x' z z' : Site}
    (hx : x ∈ PropertyRenaming.sites unit) (hx' : x' ∈ PropertyRenaming.sites unit)
    (hxz : Substituted settings (renameUnit settings unit s).session.classes report.mapping x z)
    (hxz' : Substituted settings (renameUnit settings unit s).session.classes report.mapping x' z')
    {n m new : String} (hn : x.node.propertyName? = some n) (hm : x'.node.propertyName? = some m)
    (hz : z.node.propertyName? = some new) (hz' : z'.node.propertyName? = some new) : n = m := by
  by_contra hne
  obtain ⟨n', m', hn', hm', hne'⟩ := h.names_ne hcolon hx hx' hxz hxz' hn hm hne
  have hnn : some n' = some new := hn'.symm.trans hz
  have hmm : some m' = some new := hm'.symm.trans hz'
  exact hne' ((Option.some.inj hnn).trans (Option.some.inj hmm).symm)

theorem exists_name (h : Completed settings unit s report s' p d) {x z : Site}
    (hxz : Substituted settings (renameUnit settings unit s).session.classes report.mapping x z)
    {name : String} (hname : x.node.propertyName? = some name) :
    ∃ new, z.node.propertyName? = some new := by
  rcases h.fate hxz hname with hz | ⟨-, new, hz, -⟩
  · exact ⟨name, hz⟩
  · exact ⟨new, hz⟩

end Completed

/-- A run returns, any two different property names of the unit are different in what it returns,
and no value of the mapping is a property name of the unit. -/
def CapturesNothing (settings : Settings) (unit : List Node) (s : Session Unit) : Prop :=
  ∃ report, (renameUnit settings unit s).reply = .ok report ∧
    (∀ (i j : Nat) (n m : String), (occurrences unit)[i]? = some (some n) →
      (occurrences unit)[j]? = some (some m) → n ≠ m →
      ∃ n' m', (occurrences report.nodes)[i]? = some (some n') ∧
        (occurrences report.nodes)[j]? = some (some m') ∧ n' ≠ m') ∧
    ∀ e ∈ report.mapping, ∀ name ∈ propertyNames unit, e.2 ≠ .text name

/-- On every well-formed unit a run captures no property name. -/
theorem renameUnit_captures_nothing {settings : Settings} (hsettings : Names.Proper settings)
    {unit : List Node} (hunit : WellFormed unit) {s : Session Unit} (hlog : s.log.Quiet)
    (hcolon : settings.scopedKeys = true → ColonFree unit) (hends : SearchesEnd settings unit s) :
    CapturesNothing settings unit s := by
  rcases exists_completed hsettings hunit hlog hcolon with ⟨report, s', p, d, h⟩ | ⟨hs, name, hname⟩
  · refine ⟨report, h.reply, fun i j n m hi hj hne => ?_, fun e he name => h.value_ne he⟩
    rw [getElem?_occurrences, Option.map_eq_some_iff] at hi hj
    obtain ⟨x, hx, hn⟩ := hi
    obtain ⟨x', hx', hm⟩ := hj
    obtain ⟨z, hz, hxmem, hxz⟩ := h.exists_substituted hunit hx
    obtain ⟨z', hz', hxmem', hxz'⟩ := h.exists_substituted hunit hx'
    obtain ⟨n', m', hn', hm', hne'⟩ := h.names_ne hcolon hxmem hxmem' hxz hxz' hn hm hne
    refine ⟨n', m', ?_, ?_, hne'⟩
    · rw [getElem?_occurrences, hz, Option.map_some, hn']
    · rw [getElem?_occurrences, hz', Option.map_some, hm']
  · exact absurd hname (hends hs name)

theorem renameUnit_captures_nothing_sample : Names.Proper { lead := .text "p_" } ∧
    WellFormed sampleUnit ∧ Log.Quiet {} ∧
    CapturesNothing { lead := .text "p_" } sampleUnit sampleSession := by
  have hproper : Names.Proper { lead := .text "p_" } := ⟨⟨.alphabetic, by decide⟩, "p_", rfl⟩
  have hquiet : Log.Quiet {} := by decide
  exact ⟨hproper, wellFormed_sampleUnit, hquiet,
    renameUnit_captures_nothing hproper wellFormed_sampleUnit hquiet nofun nofun⟩

end PropertyRenaming
