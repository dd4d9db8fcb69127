import PropertyRenaming.Proofs.Chain

namespace PropertyRenaming

open Declarations (Plan)

def DeclaredPrivately (unit : List Node) (name : String) : Prop :=
  ∃ x ∈ sites unit, ∃ owner, x.declared? = some (owner, .text name)

def NeverPrivate (unit : List Node) (owner : ClassId) (name : String) : Prop :=
  ∀ x ∈ sites unit, x.declared? ≠ some (owner, .text name)

instance (unit : List Node) (owner : ClassId) (name : String) :
    Decidable (NeverPrivate unit owner name) :=
  inferInstanceAs (Decidable (∀ x ∈ sites unit, _))

namespace Completed

variable {settings : Settings} {unit : List Node} {s : Session Unit} {report : Report}
  {s' : Session Names.Source} {p : Plan Names.Source} {d : Declarations.Drawing Names.Source}

theorem isSome_find?_flat (h : Completed settings unit s report s' p d)
    (hflat : settings.scopedKeys = false) {name : String}
    (hig : Atom.isIn (.text name) settings.ignore = false) :
    (RenameMap.find? (.plain (.text name)) report.mapping).isSome = true ↔
      DeclaredPrivately unit name := by
  -- Without scopes the class of a property leaves no trace in its key.
  have hkey : ∀ owner : ClassId, ∀ n : String, propertyKey settings.scopedKeys
      (renameUnit settings unit s).session.classes.scope owner (.text n) = .plain (.text n) := by
    intro owner n
    rw [hflat]
    rfl
  constructor
  · intro hsome
    obtain ⟨new, hnew⟩ := Option.isSome_iff_exists.mp hsome
    obtain ⟨e, he, hcode, -⟩ := RenameMap.exists_mem_of_find?_eq_some hnew
    obtain ⟨x, hx, owner, n, hdeclared, -, hen⟩ :=
      (h.mem_keys_iff e.1).mp (List.mem_map_of_mem he)
    rw [hen, hkey] at hcode
    obtain rfl : n = name := by simpa [Key.code, Atom.code] using hcode
    exact ⟨x, hx, owner, hdeclared⟩
  · rintro ⟨x, hx, owner, hdeclared⟩
    obtain ⟨new, hnew⟩ := h.scans.exists_get? hx hdeclared hig
    rw [← hkey owner, h.find?_eq, hnew]
    rfl

theorem fetch_flat (h : Completed settings unit s report s' p d) (hu : WellFormed unit)
    (hs : s.log.Quiet) (hflat : settings.scopedKeys = false) {i : Nat} {owner : ClassId}
    {name : String} (hf : FetchesAt unit s i owner name) :
    ∃ new, (occurrences report.nodes)[i]? = some (some new) ∧
      Atom.text new =
        (RenameMap.find? (.plain (.text name)) report.mapping).getD (.text name) := by
  obtain ⟨x, y, z, hx, hz, -, -, hk, howner, hname, hfinds⟩ := h.exists_fetch hu hs hf
  obtain ⟨_, hz', -, hxz⟩ := h.exists_substituted hu hx
  obtain rfl := Option.some.inj (hz.symm.trans hz')
  have hsound := (h.wellFormed hu).sound z.node (node_mem_preorder (List.mem_of_getElem? hz))
  have hlocal : (renameUnit settings unit s).session.classes.isLocal z.node = .ok true := by
    rw [ClassTable.isLocal_eq _ hsound, hfinds]
  have hnew := hxz.fetched hk hname howner hlocal
  obtain ⟨new, hnew'⟩ := h.exists_name hxz (Node.propertyName?_eq_some_iff.mpr ⟨Or.inr hk, hname⟩)
  refine ⟨new, by rw [getElem?_occurrences, hz, Option.map_some, hnew'], ?_⟩
  rw [(Node.propertyName?_eq_some_iff.mp hnew').2, hflat] at hnew
  exact Value.atom.inj hnew

/-- A local fetch keeps its name in a flat run just if no class has a private property of that
name. -/
theorem fetch_kept_iff (h : Completed settings unit s report s' p d) (hu : WellFormed unit)
    (hs : s.log.Quiet) (hflat : settings.scopedKeys = false) {i : Nat} {owner : ClassId}
    {name : String} (hig : Atom.isIn (.text name) settings.ignore = false)
    (hf : FetchesAt unit s i owner name) :
    (occurrences report.nodes)[i]? = some (some name) ↔ ¬DeclaredPrivately unit name := by
  obtain ⟨new, hocc, hnew⟩ := h.fetch_flat hu hs hflat hf
  rw [← h.isSome_find?_flat hflat hig, hocc, Option.some.injEq, Option.some.injEq]
  cases hfind : RenameMap.find? (.plain (.text name)) report.mapping with
  | none =>
    rw [hfind] at hnew
    simpa using hnew
  | some a =>
    rw [hfind, Option.getD_some] at hnew
    obtain ⟨e, he, -, hv⟩ := RenameMap.exists_mem_of_find?_eq_some hfind
    -- A replacement is no name that the unit has.
    have hmem : name ∈ propertyNames unit := by
      obtain ⟨x, hx, hocc'⟩ := Option.map_eq_some_iff.mp
        ((getElem?_occurrences unit i).symm.trans (hf.occurrence hu hs))
      exact mem_propertyNames_of_site (List.mem_of_getElem? hx) hocc'
    have hne : new ≠ name := by
      rintro rfl
      exact h.value_ne he hmem (hv.trans hnew.symm)
    simp [hne]

theorem property_kept (h : Completed settings unit s report s' p d) (hu : WellFormed unit)
    {owner : ClassId} {name : String} (hnever : NeverPrivate unit owner name) {i : Nat}
    (hd : DeclaresAt unit i owner name) :
    (occurrences report.nodes)[i]? = some (some name) := by
  obtain ⟨x, hx, hitem⟩ := Option.bind_eq_some_iff.mp hd
  obtain ⟨z, hz, hxmem, hxz⟩ := h.exists_substituted hu hx
  obtain ⟨hk, -, howner, hname⟩ := Site.property?_eq_some_iff.mp hitem
  have hkept : (z.node.get .name).str? = (x.node.get .name).str? := by
    apply hxz.kept
    · intro o b hb
      have hob := (Site.property?_of_declared hb).symm.trans hitem
      obtain ⟨rfl, rfl⟩ := Prod.mk.inj (Option.some.inj hob)
      exact absurd hb (hnever x hxmem)
    · rintro ⟨hf, -⟩
      rw [hk] at hf
      cases hf
  rw [hname] at hkept
  rw [getElem?_occurrences, hz, Option.map_some]
  exact congrArg some (Node.propertyName?_eq_some_iff.mpr
    ⟨Or.inl (hxz.kind.trans hk), Value.str?_eq_some_iff.mp hkept⟩)

end Completed

theorem exists_completed_default {unit : List Node} (hu : WellFormed unit) {s : Session Unit}
    (hs : s.log.Quiet) : ∃ report s' p d, Completed {} unit s report s' p d := by
  have hproper : Names.Proper {} := ⟨⟨.alphabetic, by decide⟩, "", rfl⟩
  rcases exists_completed hproper hu hs nofun with h | ⟨hhashed, -⟩
  · exact h
  · cases hhashed

/-- With the default settings, a property that its class never declares in private keeps its name,
and a local fetch of it keeps the name just if no other class has a private property so called;
otherwise it gets the name that the mapping has. -/
theorem renameUnit_public_fetch {unit : List Node} (hu : WellFormed unit) {s : Session Unit}
    (hs : s.log.Quiet) :
    ∃ report, (renameUnit {} unit s).reply = .ok report ∧
      ∀ owner name, NeverPrivate unit owner name →
        (∀ i, DeclaresAt unit i owner name →
          (occurrences report.nodes)[i]? = some (some name)) ∧
        ∀ i, FetchesAt unit s i owner name →
          ((occurrences report.nodes)[i]? = some (some name) ↔ ¬DeclaredPrivately unit name) ∧
          ∃ new, (occurrences report.nodes)[i]? = some (some new) ∧ Atom.text new =
            (RenameMap.find? (.plain (.text name)) report.mapping).getD (.text name) := by
  obtain ⟨report, s', p, d, h⟩ := exists_completed_default hu hs
  refine ⟨report, h.reply, fun owner name hnever => ⟨fun i hd => ?_, fun i hf => ⟨?_, ?_⟩⟩⟩
  · exact h.property_kept hu hnever hd
  · exact h.fetch_kept_iff hu hs rfl rfl hf
  · exact h.fetch_flat hu hs rfl hf

section Sample

def sharedNameUnit : List Node :=
  [⟨.classDecl 0, {}, [.str "A",
      .list [.node ⟨.propertyDecl, {}, [.int 4, .list [sampleItem "x"]]⟩], .null, .null]⟩,
    ⟨.classDecl 1, {}, [.str "B",
      .list [.node ⟨.propertyDecl, {}, [.int 1, .list [sampleItem "x"]]⟩,
        .node ⟨.propertyDecl, {}, [.int 1, .list [sampleItem "y"]]⟩,
        sampleFetch "this" "x", sampleFetch "this" "y"], .null, .null]⟩]

theorem wellFormed_sharedNameUnit : WellFormed sharedNameUnit := by decide

theorem fetchesAt_sharedNameUnit : FetchesAt sharedNameUnit sampleSession 9 1 "x" :=
  ⟨_, rfl, rfl, rfl, rfl, rfl⟩

theorem renameUnit_public_fetch_sample : WellFormed sharedNameUnit ∧ Log.Quiet {} ∧
    NeverPrivate sharedNameUnit 1 "x" ∧ NeverPrivate sharedNameUnit 1 "y" ∧
    ∃ report, (renameUnit {} sharedNameUnit sampleSession).reply = .ok report ∧
      (occurrences report.nodes)[5]? = some (some "x") ∧
      (occurrences report.nodes)[9]? ≠ some (some "x") ∧
      (occurrences report.nodes)[12]? = some (some "y") := by
  have hquiet : Log.Quiet {} := by decide
  have hx : NeverPrivate sharedNameUnit 1 "x" := by decide
  have hy : NeverPrivate sharedNameUnit 1 "y" := by decide
  have hprivate : DeclaredPrivately sharedNameUnit "x" :=
    ⟨_, List.mem_of_getElem? (show (sites sharedNameUnit)[2]? = some _ from rfl), 0, rfl⟩
  have hpublic : ¬DeclaredPrivately sharedNameUnit "y" := by
    have hall : ∀ x ∈ sites sharedNameUnit, x.declared?.map Prod.snd ≠ some (.text "y") := by
      decide
    rintro ⟨x, hmem, owner, h⟩
    exact hall x hmem (by rw [h]; rfl)
  obtain ⟨report, hreply, h⟩ :=
    renameUnit_public_fetch wellFormed_sharedNameUnit (s := sampleSession) hquiet
  refine ⟨wellFormed_sharedNameUnit, hquiet, hx, hy, report, hreply, (h 1 "x" hx).1 5 rfl, ?_, ?_⟩
  · rw [Ne, ((h 1 "x" hx).2 9 fetchesAt_sharedNameUnit).1, not_not]
    exact hprivate
  · exact ((h 1 "y" hy).2 12 ⟨_, rfl, rfl, rfl, rfl, rfl⟩).1.mpr hpublic

/-- A fetch of a public property is renamed along with the private property of another class. -/
theorem renameUnit_renames_public_fetch : WellFormed sharedNameUnit ∧
    NeverPrivate sharedNameUnit 1 "x" ∧ DeclaresAt sharedNameUnit 5 1 "x" ∧
    FetchesAt sharedNameUnit sampleSession 9 1 "x" ∧
    ((renameUnit {} sharedNameUnit sampleSession).reply.toOption.map fun report =>
      ((occurrences report.nodes)[5]?, (occurrences report.nodes)[9]?)) =
        some (some (some "x"), some (some "a")) :=
  ⟨wellFormed_sharedNameUnit, by decide, rfl, fetchesAt_sharedNameUnit, by decide +kernel⟩

end Sample

end PropertyRenaming
