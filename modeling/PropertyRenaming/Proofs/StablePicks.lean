import PropertyRenaming.Proofs.FlatMap

namespace PropertyRenaming

open List (Forall₂)

namespace Names

/-- How a name is picked for the name to replace, by the names that are taken. -/
abbrev Pick := (asked : Atom) → (taken : Finset Atom) → String

namespace Pick

def supply (pick : Pick) : Supply Unit := fun asked taken memory =>
  { memory, name := .ok (.text (pick asked taken.toFinset)) }

structure Lawful (pick : Pick) : Prop where
  identifier (asked : Atom) (taken : Finset Atom) : isIdentifier (pick asked taken) = true
  free (asked : Atom) (taken : Finset Atom) : Atom.text (pick asked taken) ∉ taken

/-- A pick stays the same while more names are taken, as long as it is not among them. -/
def Stable (pick : Pick) : Prop :=
  ∀ (asked : Atom) (taken taken' : Finset Atom), taken ⊆ taken' →
    Atom.text (pick asked taken) ∉ taken' → pick asked taken' = pick asked taken

variable (pick : Pick)

/-- What has been picked so often, each time with the picks before it taken. -/
def picked (asked : Atom) : Nat → Finset Atom
  | 0 => ∅
  | k + 1 => insert (.text (pick asked (picked asked k))) (picked asked k)

def candidate (asked : Atom) (k : Nat) : String := pick asked (pick.picked asked k)

variable {pick}

theorem mem_picked {asked a : Atom} {k : Nat} :
    a ∈ pick.picked asked k ↔ ∃ j < k, a = .text (pick.candidate asked j) := by
  induction k with
  | zero => simp [picked]
  | succ k ih =>
    rw [picked, Finset.mem_insert, ih]
    constructor
    · rintro (rfl | ⟨j, hj, rfl⟩)
      · exact ⟨k, by omega, rfl⟩
      · exact ⟨j, by omega, rfl⟩
    · rintro ⟨j, hj, rfl⟩
      rcases Nat.lt_succ_iff_lt_or_eq.mp hj with hj | rfl
      · exact Or.inr ⟨j, hj, rfl⟩
      · exact Or.inl rfl

/-- A name that is not taken has not been picked before. -/
theorem Lawful.candidate_injective (h : pick.Lawful) (asked : Atom) :
    Function.Injective (pick.candidate asked) := by
  have hne : ∀ {j k : Nat}, j < k → pick.candidate asked j ≠ pick.candidate asked k := by
    intro j k hjk heq
    refine h.free asked (pick.picked asked k) (mem_picked.mpr ⟨j, hjk, ?_⟩)
    exact congrArg Atom.text heq.symm
  intro j k heq
  rcases lt_trichotomy j k with hjk | hjk | hjk
  · exact absurd heq (hne hjk)
  · exact hjk
  · exact absurd heq.symm (hne hjk)

/-- A stable pick is the first free candidate. -/
theorem Stable.eq_candidate (h : pick.Stable) {asked : Atom} {taken : List Atom} {k : Nat}
    (hk : FirstFree (pick.candidate asked) taken k) :
    pick asked taken.toFinset = pick.candidate asked k := by
  apply h
  · intro a ha
    obtain ⟨j, hj, rfl⟩ := mem_picked.mp ha
    exact List.mem_toFinset.mpr (hk.tried hj)
  · rw [List.mem_toFinset]
    exact hk.free

theorem Lawful.steady (h : pick.Lawful) (hstable : pick.Stable) :
    Steady pick.supply () pick.candidate where
  identifier asked k := h.identifier asked _
  stays _ _ := rfl
  notes hr := by simp [supply] at hr
  name asked taken := by
    obtain ⟨k, -, hk⟩ := exists_firstFree (h.candidate_injective asked) taken
    exact Or.inl ⟨k, hk, by rw [supply, hstable.eq_candidate hk]⟩

section Alphabetic

variable {lead : String}

theorem exists_free (lead : String) (taken : Finset Atom) :
    ∃ k, Atom.text (alphabeticCandidate lead k) ∉ taken := by
  obtain ⟨k, -, hk⟩ := exists_firstFree (alphabeticCandidate_injective lead) taken.toList
  exact ⟨k, fun hmem => hk.free (Finset.mem_toList.mpr hmem)⟩

def alphabetic (lead : String) : Pick := fun _ taken =>
  alphabeticCandidate lead (Nat.find (exists_free lead taken))

theorem lawful_alphabetic (hlead : lead = "" ∨ isIdentifier lead = true) :
    (alphabetic lead).Lawful where
  identifier _ _ := isIdentifier_alphabeticCandidate hlead _
  free _ taken := Nat.find_spec (exists_free lead taken)

theorem stable_alphabetic (lead : String) : (alphabetic lead).Stable := by
  intro asked taken taken' hsub hfree
  refine congrArg (alphabeticCandidate lead) ((Nat.find_eq_iff _).mpr ⟨hfree, fun j hj => ?_⟩)
  exact not_not.mpr (hsub (not_not.mp (Nat.find_min (exists_free lead taken) hj)))

end Alphabetic

section Numbering

def longerWord (taken : Finset Atom) : String :=
  String.ofList (List.replicate (taken.sup (fun a => a.spelling.length) + 1) 'a')

theorem isIdentifier_longerWord (taken : Finset Atom) : isIdentifier (longerWord taken) = true := by
  have hstart : isIdentifierStart 'a' = true := by decide
  have hpart : isIdentifierPart 'a' = true := by decide
  rw [longerWord, isIdentifier, String.toList_ofList, List.replicate_succ]
  simp [hstart, hpart]

theorem longerWord_not_mem (taken : Finset Atom) : Atom.text (longerWord taken) ∉ taken := by
  intro hmem
  have hle := Finset.le_sup (f := fun a : Atom => a.spelling.length) hmem
  have hlength : (longerWord taken).length = taken.sup (fun a => a.spelling.length) + 1 := by
    simp [longerWord]
  change (longerWord taken).length ≤ _ at hle
  omega

/-- The asked name with the number of taken names behind it, if that is a free identifier. -/
def numbering : Pick := fun asked taken =>
  let name := asked.spelling ++ "_" ++ toString taken.card
  if isIdentifier name = true ∧ Atom.text name ∉ taken then name else longerWord taken

theorem lawful_numbering : numbering.Lawful where
  identifier asked taken := by
    unfold numbering
    dsimp only
    split
    · rename_i h
      exact h.1
    · exact isIdentifier_longerWord taken
  free asked taken := by
    unfold numbering
    dsimp only
    split
    · rename_i h
      exact h.2
    · exact longerWord_not_mem taken

end Numbering

end Pick

end Names

/-- A node has the name that a flat mapping has for it, if it is an item that is renamed or a local
fetch of one. -/
structure CarriesMapping (settings : Settings) (table : ClassTable) (mapping : List (Key × Atom))
    (before after : Site) : Prop where
  item {owner : ClassId} {name : String} : before.declared? = some (owner, .text name) →
    Atom.isIn (.text name) settings.ignore = false →
    ∃ new, RenameMap.find? (.plain (.text name)) mapping = some new ∧
      after.node.get .name = .atom new
  fetch {name : String} {new : Atom} : before.node.kind.isFetch = true →
    before.node.get .name = .str name → table.isLocal after.node = .ok true →
    RenameMap.find? (.plain (.text name)) mapping = some new → after.node.get .name = .atom new

theorem Substituted.carriesMapping {settings : Settings} (hflat : settings.scopedKeys = false)
    {table : ClassTable} {mapping : List (Key × Atom)} {x z : Site}
    (h : Substituted settings table mapping x z) : CarriesMapping settings table mapping x z where
  item hdeclared hig := by
    obtain ⟨new, hz, hfind⟩ := h.declared hdeclared hig
    rw [hflat] at hfind
    exact ⟨new, hfind, hz⟩
  fetch {name new} hk hname hlocal hfind := by
    obtain ⟨owner, howner⟩ := ClassTable.exists_enclosing_of_isLocal hlocal
    rw [h.enclosing] at howner
    have hplain : RenameMap.find?
        (propertyKey settings.scopedKeys table.scope owner (.text name)) mapping = some new := by
      rw [hflat]
      exact hfind
    rw [h.fetched hk hname howner hlocal, hplain, Option.getD_some]

/-- With a lawful and stable pick, a flat run leaves each item and each local fetch of it with the
name in the mapping. -/
theorem renameWith_carries_mapping {pick : Names.Pick} (hpick : pick.Lawful) (hstable : pick.Stable)
    {settings : Settings} (hcheck : ∃ strategy, settings.check = .ok strategy)
    (hflat : settings.scopedKeys = false) {unit : List Node} (hu : WellFormed unit)
    {s : Session Unit} (hs : s.log.Quiet) :
    ∃ report, (renameWith pick.supply settings unit s).reply = .ok report ∧
      Forall₂ (CarriesMapping settings (renameWith pick.supply settings unit s).session.classes
        report.mapping) (sites unit) (sites report.nodes) := by
  obtain ⟨strategy, hcheck⟩ := hcheck
  obtain ⟨s', hs'⟩ : ∃ s' : Session Unit,
      s' = { s with log := s.log.add (unitStart unit settings) } := ⟨_, rfl⟩
  have hquiet : s'.log.Quiet := hs' ▸ hs.add _
  have hcolon : settings.scopedKeys = true → ColonFree unit := by simp [hflat]
  rw [renameWith_eq hcheck hu hs hs']
  rcases renameResolved_resolution hu hquiet (hpick.steady hstable) hcolon with
    ⟨asked, d, names, report, -, -, hreply, -, hnodes, hmapping, hclasses, -, hscanned, hapart,
      hmem⟩ | ⟨name, taken, -, hname⟩
  · refine ⟨report, hreply, ?_⟩
    rw [hnodes, hmapping, hclasses]
    have hscans : (runPlan settings (resolution unit s').1 (resolution unit s').2.classes
        (hpick.steady hstable)).Scans settings (resolution unit s').2.classes unit d :=
      ⟨rfl, rfl, rfl, asked.reverse, hscanned, hapart.mono (by simp), by simpa using hmem⟩
    exact (hscans.substituted hu s').imp fun _ _ h => h.carriesMapping hflat
  · -- Such a supply always has an answer.
    cases hname

section Sample

/-- A name that two classes declare in private, with another one between them. -/
def repeatedNameUnit : List Node :=
  [⟨.classDecl 0, {}, [.str "A",
      .list [.node ⟨.propertyDecl, {}, [.int 4, .list [sampleItem "x", sampleItem "y"]]⟩,
        sampleFetch "this" "x"], .null, .null]⟩,
    ⟨.classDecl 1, {}, [.str "B",
      .list [.node ⟨.propertyDecl, {}, [.int 4, .list [sampleItem "x"]]⟩], .null, .null]⟩]

theorem wellFormed_repeatedNameUnit : WellFormed repeatedNameUnit := by decide

theorem renameWith_carries_mapping_sample : (Names.Pick.alphabetic "").Lawful ∧
    (Names.Pick.alphabetic "").Stable ∧ ({} : Settings).check = .ok .alphabetic ∧
    WellFormed repeatedNameUnit ∧ Log.Quiet {} ∧
    ∃ report, (renameWith (Names.Pick.alphabetic "").supply {} repeatedNameUnit
        sampleSession).reply = .ok report ∧
      Forall₂ (CarriesMapping {} (renameWith (Names.Pick.alphabetic "").supply {} repeatedNameUnit
        sampleSession).session.classes report.mapping) (sites repeatedNameUnit)
          (sites report.nodes) := by
  have hlawful : (Names.Pick.alphabetic "").Lawful := Names.Pick.lawful_alphabetic (Or.inl rfl)
  have hstable := Names.Pick.stable_alphabetic ""
  have hquiet : Log.Quiet {} := by decide
  exact ⟨hlawful, hstable, rfl, wellFormed_repeatedNameUnit, hquiet,
    renameWith_carries_mapping hlawful hstable ⟨_, rfl⟩ rfl wellFormed_repeatedNameUnit
      (s := sampleSession) hquiet⟩

/-- A lawful pick with which the first item of a name does not have the name in the mapping, nor the
name of its fetch. -/
theorem renameWith_parts_items : Names.Pick.numbering.Lawful ∧ WellFormed repeatedNameUnit ∧
    ((renameWith Names.Pick.numbering.supply {} repeatedNameUnit sampleSession).reply.toOption.map
      fun report => (report.mapping, occurrences report.nodes)) =
        some ([(.plain (.text "x"), .text "x_3"), (.plain (.text "y"), .text "y_3")],
          [none, none, some "x_2", some "y_3", none, some "x_3", none, none, none, some "x_3"]) :=
  ⟨Names.Pick.lawful_numbering, wellFormed_repeatedNameUnit, by decide +kernel⟩

end Sample

end PropertyRenaming
