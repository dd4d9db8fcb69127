import Mathlib.Data.Nat.Nth
import PropertyRenaming.Proofs.PrivateDeclarations
import PropertyRenaming.Proofs.RefusedSettings
import PropertyRenaming.Proofs.ScannedWalk

namespace PropertyRenaming

open Declarations (Drawing Plan Terms others)
open Names (FirstFree Source)

theorem eraseDups_concat {α : Type} [DecidableEq α] (as : List α) (a : α) :
    (as ++ [a]).eraseDups = if a ∈ as then as.eraseDups else as.eraseDups ++ [a] := by
  rw [List.eraseDups_append]
  by_cases ha : a ∈ as <;> simp [List.removeAll, ha, List.eraseDups_cons]

namespace Names

section Remaining

variable (candidate : Nat → String) (reserved : List Atom)

noncomputable def remainingIndex (i : Nat) : Nat :=
  Nat.nth (fun k => Atom.text (candidate k) ∉ reserved) i

/-- The `i`-th candidate that is not reserved. -/
noncomputable def remaining (i : Nat) : String := candidate (remainingIndex candidate reserved i)

variable {candidate} (hinj : Function.Injective candidate)

include hinj

theorem infinite_remaining :
    (Set.ofPred fun k => Atom.text (candidate k) ∉ reserved).Infinite := by
  have hinj' : Function.Injective fun k => Atom.text (candidate k) := fun a b h =>
    hinj (Atom.text.inj h)
  exact ((List.finite_toSet reserved).preimage hinj'.injOn).infinite_compl

/-- Where all remaining names before some number are taken, but for one, that one is the first free
name. If none of them is free, it is the next one. -/
theorem firstFree_remaining {taken : List Atom} {i count : Nat} (hi : i ≤ count)
    (htaken : ∀ a, a ∈ taken ↔ a ∈ reserved ∨
      ∃ j < count, j ≠ i ∧ a = .text (remaining candidate reserved j)) :
    FirstFree candidate taken (remainingIndex candidate reserved i) := by
  have hinf := infinite_remaining reserved hinj
  have hmem := Nat.nth_mem_of_infinite hinf i
  refine ⟨fun hfree => ?_, fun {k} hk => (htaken _).mpr ?_⟩
  · rcases (htaken _).mp hfree with hreserved | ⟨j, -, hne, hsame⟩
    · exact hmem hreserved
    · exact hne (Nat.nth_injective hinf (hinj (Atom.text.inj hsame))).symm
  · by_cases hreserved : Atom.text (candidate k) ∈ reserved
    · exact Or.inl hreserved
    · -- An earlier candidate that is not reserved has a number before `i` among the remaining ones.
      have hcount : remainingIndex candidate reserved
          (Nat.count (fun k => Atom.text (candidate k) ∉ reserved) k) = k := Nat.nth_count hreserved
      have hlt : Nat.count (fun k => Atom.text (candidate k) ∉ reserved) k < i := by
        rw [← hcount] at hk
        exact (Nat.nth_lt_nth hinf).mp hk
      exact Or.inr ⟨_, hlt.trans_le hi, hlt.ne, by rw [remaining, hcount]⟩

end Remaining

end Names

noncomputable def entriesInOrder (lead : String) (reserved : List Atom) (keys : List Key) :
    List (Key × Atom) :=
  keys.mapIdx fun i key =>
    (key, .text (Names.remaining (Names.alphabeticCandidate lead) reserved i))

section Entries

variable {lead : String} {reserved : List Atom} {keys : List Key} {key : Key} {e : Key × Atom}

theorem mem_entriesInOrder : e ∈ entriesInOrder lead reserved keys ↔
    ∃ i, keys[i]? = some e.1 ∧
      e.2 = .text (Names.remaining (Names.alphabeticCandidate lead) reserved i) := by
  simp only [entriesInOrder, List.mem_iff_getElem?, List.getElem?_mapIdx, Option.map_eq_some_iff]
  constructor
  · rintro ⟨i, k, hk, rfl⟩
    exact ⟨i, hk, rfl⟩
  · rintro ⟨i, hk, hv⟩
    exact ⟨i, e.1, hk, Prod.ext rfl hv.symm⟩

variable (hnodup : keys.Nodup) (hcodes : ∀ k ∈ keys, k.code = k) (hkey : key.code = key)

include hnodup hcodes hkey

theorem mem_others_entriesInOrder {a : Atom} : a ∈ others (entriesInOrder lead reserved keys) key ↔
    ∃ i < keys.length, i ≠ keys.idxOf key ∧
      a = .text (Names.remaining (Names.alphabeticCandidate lead) reserved i) := by
  have hindex : ∀ {i} (hi : i < keys.length), keys[i] = key ↔ i = keys.idxOf key := by
    intro i hi
    constructor
    · rintro rfl
      exact (hnodup.idxOf_getElem i hi).symm
    · rintro rfl
      exact List.getElem_idxOf hi
  simp only [others, List.mem_map, List.mem_filter, mem_entriesInOrder]
  constructor
  · rintro ⟨e, ⟨⟨i, hi, hv⟩, hne⟩, rfl⟩
    obtain ⟨hlt, hget⟩ := List.getElem?_eq_some_iff.mp hi
    refine ⟨i, hlt, fun hidx => ?_, hv⟩
    rw [← hget, (hindex hlt).mpr hidx] at hne
    simp at hne
  · rintro ⟨i, hlt, hne, rfl⟩
    refine ⟨(keys[i], _), ⟨⟨i, List.getElem?_eq_getElem hlt, rfl⟩, ?_⟩, rfl⟩
    have hother : keys[i] ≠ key := fun h => hne ((hindex hlt).mp h)
    simpa [hcodes _ (List.getElem_mem hlt), hkey] using hother

theorem find?_entriesInOrder (hmem : key ∈ keys) :
    RenameMap.find? key (entriesInOrder lead reserved keys) = some (.text
      (Names.remaining (Names.alphabeticCandidate lead) reserved (keys.idxOf key))) := by
  cases hfind : RenameMap.find? key (entriesInOrder lead reserved keys) with
  | none =>
    obtain ⟨i, hi⟩ := List.mem_iff_getElem?.mp hmem
    have hentry : (key, Atom.text (Names.remaining (Names.alphabeticCandidate lead) reserved i)) ∈
        entriesInOrder lead reserved keys := mem_entriesInOrder.mpr ⟨i, hi, rfl⟩
    exact absurd rfl (RenameMap.find?_eq_none_iff.mp hfind _ hentry)
  | some v =>
    obtain ⟨e, he, hcode, rfl⟩ := RenameMap.exists_mem_of_find?_eq_some hfind
    obtain ⟨i, hi, hv⟩ := mem_entriesInOrder.mp he
    obtain ⟨hlt, hget⟩ := List.getElem?_eq_some_iff.mp hi
    rw [← hget, hcodes _ (List.getElem_mem hlt), hkey] at hcode
    rw [hv, ← hcode, hnodup.idxOf_getElem i hlt]

end Entries

/-- The invariant of the scan, after items with the given keys have got names. -/
structure NamedInOrder (t : Terms Source) (lead : String) (perClass : Bool) (keys : List Key)
    (d : Drawing Source) : Prop where
  memory : d.memory = .alphabetic lead
  perClass : d.map.perClass = perClass
  quiet : d.log.Quiet
  nodup : keys.eraseDups.Nodup
  codes : ∀ k ∈ keys, k.code = k
  entries : d.map.entries = entriesInOrder lead t.reserved keys.eraseDups

namespace NamedInOrder

variable {t : Terms Source} {lead : String} {perClass : Bool} {keys : List Key}
  {d : Drawing Source} {key : Key}

theorem firstFree (h : NamedInOrder t lead perClass keys d) (hkey : key.code = key) :
    FirstFree (Names.alphabeticCandidate lead) (t.reserved ++ others d.map.entries key)
      (Names.remainingIndex (Names.alphabeticCandidate lead) t.reserved
        (keys.eraseDups.idxOf key)) := by
  have hcodes : ∀ k ∈ keys.eraseDups, k.code = k := fun k hk => h.codes k (List.mem_eraseDups.mp hk)
  have hindex : keys.eraseDups.idxOf key ≤ keys.eraseDups.length := List.idxOf_le_length
  refine Names.firstFree_remaining t.reserved (Names.alphabeticCandidate_injective lead) hindex
    fun a => ?_
  rw [List.mem_append, h.entries, mem_others_entriesInOrder h.nodup hcodes hkey]

theorem insert (h : NamedInOrder t lead perClass keys d) (hkey : key.code = key) {log : Log}
    (hlog : log.Quiet) :
    NamedInOrder t lead perClass (keys ++ [key]) { d with
      log
      map := d.map.insert key (.text (Names.remaining (Names.alphabeticCandidate lead) t.reserved
        (keys.eraseDups.idxOf key))) } := by
  have hcodes : ∀ k ∈ keys.eraseDups, k.code = k := fun k hk => h.codes k (List.mem_eraseDups.mp hk)
  have hcodes' : ∀ k ∈ keys ++ [key], k.code = k := by
    intro k hk
    rcases List.mem_append.mp hk with hk | hk
    · exact h.codes k hk
    · rw [List.mem_singleton.mp hk, hkey]
  by_cases hmem : key ∈ keys
  · -- The key has that name already.
    have hmem' : key ∈ keys.eraseDups := List.mem_eraseDups.mpr hmem
    have hsame : (keys ++ [key]).eraseDups = keys.eraseDups := by
      rw [eraseDups_concat, if_pos hmem]
    refine ⟨h.memory, h.perClass, hlog, hsame ▸ h.nodup, hcodes', ?_⟩
    rw [hsame]
    change RenameMap.put _ _ d.map.entries = _
    rw [h.entries, RenameMap.put_of_find?_eq_some
      (find?_entriesInOrder h.nodup hcodes hkey hmem')]
  · -- The key is new, and its number is the next one.
    have hmem' : key ∉ keys.eraseDups := fun hk => hmem (List.mem_eraseDups.mp hk)
    have hnew : (keys ++ [key]).eraseDups = keys.eraseDups ++ [key] := by
      rw [eraseDups_concat, if_neg hmem]
    have hnone : RenameMap.find? key (entriesInOrder lead t.reserved keys.eraseDups) = none := by
      rw [RenameMap.find?_eq_none_iff]
      intro e he hcode
      obtain ⟨i, hi, -⟩ := mem_entriesInOrder.mp he
      rw [hcodes _ (List.mem_of_getElem? hi), hkey] at hcode
      exact hmem' (hcode ▸ List.mem_of_getElem? hi)
    refine ⟨h.memory, h.perClass, hlog, ?_, hcodes', ?_⟩
    · rw [hnew]
      exact List.nodup_append.mpr ⟨h.nodup, List.nodup_singleton key, fun a ha b hb hab =>
        hmem' (List.mem_singleton.mp hb ▸ hab ▸ ha)⟩
    · rw [hnew]
      change RenameMap.put _ _ d.map.entries = _
      rw [h.entries, RenameMap.put_of_find?_eq_none hnone, entriesInOrder, entriesInOrder,
        List.mapIdx_concat, List.idxOf_eq_length_iff.mpr hmem']

section Serving

variable (ht : t.supply = Source.draw) (hlead : lead = "" ∨ isIdentifier lead = true)

include ht hlead

theorem serve (h : NamedInOrder t lead perClass keys d) (q : ClassId × String) :
    ∃ d' new, t.serve (Plan.request q) d = (d', new, none) ∧
      NamedInOrder t lead perClass (keys ++ if (Atom.text q.2).isIn t.ignore then [] else
        [propertyKey perClass t.scope q.1 (.text q.2)]) d' := by
  obtain ⟨owner, name⟩ := q
  cases hignored : (Atom.text name).isIn t.ignore with
  | true =>
    refine ⟨{ d with log := d.log.add (Declarations.ignored (.text name)) }, none, ?_, ?_⟩
    · rw [Plan.request, t.serve_ignored owner hignored, Declarations.write_ignored h.quiet]
    · rw [if_pos rfl, List.append_nil]
      exact ⟨h.memory, h.perClass, h.quiet.add _, h.nodup, h.codes, h.entries⟩
  | false =>
    obtain ⟨log, hlog, hserve⟩ := Declarations.Terms.serve_quiet (t := t) h.quiet owner
      (.text name) (by simp) hignored (by simp [ht, h.memory, Source.draw])
    rw [h.perClass] at hserve
    have hcode := code_propertyKey perClass t.scope owner name
    obtain ⟨k, hfree, hname⟩ := Names.exists_alphabetic hlead (.text name)
      (t.reserved ++ others d.map.entries (propertyKey perClass t.scope owner (.text name)))
    obtain rfl := hfree.unique (h.firstFree hcode)
    rw [ht, h.memory] at hserve
    simp only [Source.draw, hname] at hserve
    rw [← h.memory] at hserve
    exact ⟨_, _, hserve, h.insert hcode hlog⟩

theorem serveAll (h : NamedInOrder t lead perClass keys d) (asked : List (ClassId × String)) :
    ∃ d' names, t.serveAll (asked.map Plan.request) d = (d', names, none) ∧
      NamedInOrder t lead perClass (keys ++
        (asked.filter fun q => !(Atom.text q.2).isIn t.ignore).map fun q =>
          propertyKey perClass t.scope q.1 (.text q.2)) d' := by
  induction asked generalizing keys d with
  | nil => exact ⟨d, [], rfl, by simpa using h⟩
  | cons q asked ih =>
    obtain ⟨d₁, new, hserve, hfirst⟩ := h.serve ht hlead q
    obtain ⟨d₂, names, hall, hrest⟩ := ih hfirst
    refine ⟨d₂, new :: names, ?_, ?_⟩
    · rw [List.map_cons, Declarations.Terms.serveAll_cons_served hserve, hall]
    · convert hrest using 1
      rw [List.append_assoc, List.filter_cons]
      cases (Atom.text q.2).isIn t.ignore <;> rfl

end Serving

end NamedInOrder

namespace Declarations

/-- The items of the private declarations inside classes, each with its class: the declarations in
pre-order, and the items of each from the left. -/
def scannedItems (unit : List Node) : List (ClassId × Atom) :=
  ((sites unit).filterMap declarationAt?).flatMap fun d =>
    (itemNames (d.1.get .props)).filterMap fun name => name.toOption.map (d.2, ·)

def Request.named? : Request → Option (ClassId × Atom)
  | .item owner name _ => some (owner, name)
  | .bad _ => none

theorem filterMap_named?_requests {unit : List Node} (hu : ∀ n ∈ preorder unit, Scannable n) :
    (requests unit).filterMap Request.named? = scannedItems unit := by
  rw [requests_of_scannable hu, privateDeclarations_eq_sites, List.filterMap_flatMap, scannedItems]
  refine List.flatMap_congr fun d _ => ?_
  rw [requestsOf, List.filterMap_map]
  refine List.filterMap_congr fun name _ => ?_
  cases name <;> simp [Request.named?, Request.ofName, Except.toOption]

theorem scannedItems_eq {unit : List Node} (hu : WellFormed unit) {asked : List (ClassId × String)}
    (hasked : requests unit = asked.map Plan.request) :
    scannedItems unit = asked.map fun q => (q.1, .text q.2) := by
  rw [← filterMap_named?_requests fun n hn => scannable_of_wellFormed (hu n hn), hasked,
    List.filterMap_map, ← List.filterMap_eq_map]
  exact List.filterMap_congr fun q _ => by simp [Request.named?, Plan.request]

end Declarations

def scannedKeys (settings : Settings) (table : ClassTable) (unit : List Node) : List Key :=
  ((Declarations.scannedItems unit).filter fun e => !e.2.isIn settings.ignore).map fun e =>
    propertyKey settings.scopedKeys table.scope e.1 e.2

theorem Settings.Good.alphabetic {settings : Settings} {lead : String} (h : settings.Good lead)
    (hlead : settings.lead = .text lead) (hstrategy : settings.strategy = .text "alphabetic") :
    (∃ strategy, settings.check = .ok strategy) ∧
      Source.ofSettings settings = .ok (.alphabetic lead) := by
  constructor
  · rcases Settings.check_cases hlead with ⟨-, hcheck⟩ | ⟨hbad, -⟩
    · exact hcheck
    · exact absurd h hbad
  · rcases h.source hlead with hsource | ⟨hhash, -⟩
    · exact hsource
    · simp [hstrategy] at hhash

theorem Renamer.exists_named_in_order {lead : String} (hlead : lead = "" ∨ isIdentifier lead = true)
    {settings : Settings} {nodes : List Node} (hu : WellFormed nodes) {t : Session (Renamer Source)}
    (ht : t.log.Quiet) (hown : t.own = Renamer.start settings (.alphabetic lead)) :
    ∃ d names, Renamer.Ended Source.draw nodes t d names
        (traverse (depth nodes) [Renamer.visitor Source.draw] nodes t) ∧
      d.map.entries = entriesInOrder lead ((propertyNames nodes).map .text)
        (scannedKeys settings t.classes nodes).eraseDups := by
  obtain ⟨asked, hasked, -⟩ := Declarations.exists_asked hu
  -- Nothing is noted yet, so the names are in order.
  have hstart : NamedInOrder (Renamer.scanTerms Source.draw nodes t) lead settings.scopedKeys []
      (Renamer.scanStart t) :=
    ⟨by rw [Renamer.scanStart, hown]; rfl, by rw [Renamer.scanStart, hown]; rfl, ht, by simp,
      by simp, rfl⟩
  obtain ⟨d, names, hserve, hend⟩ := hstart.serveAll rfl hlead asked
  rw [← hasked] at hserve
  have hplain : Names.Plain Source.draw (.alphabetic lead) := Source.BuiltIn.plain trivial
  have hspares := Declarations.Terms.serveAll_spares (t := Renamer.scanTerms Source.draw nodes t)
    (d := Renamer.scanStart t) hplain.yields hstart.memory fun q hq =>
      (Declarations.slot_of_mem_requests hu hq).1
  rw [hserve] at hspares
  have hkeys : scannedKeys settings t.classes nodes =
      (asked.filter fun q => !(Atom.text q.2).isIn t.own.ignore).map fun q =>
        propertyKey settings.scopedKeys t.classes.scope q.1 (.text q.2) := by
    rw [scannedKeys, Declarations.scannedItems_eq hu hasked, List.filter_map, List.map_map, hown]
    rfl
  exact ⟨d, names, Renamer.ended_of_served hu le_rfl ht hserve hspares, hkeys ▸ hend.entries⟩

/-- A run with alphabetic names returns. Its mapping has the distinct keys in the order in which the
scan comes to them, and the names in the order of the alphabet, with the reserved ones left out and
no other. -/
theorem renameUnit_names_in_order {settings : Settings} {lead : String}
    (hgood : settings.Good lead) (hlead : settings.lead = .text lead)
    (hstrategy : settings.strategy = .text "alphabetic") {unit : List Node} (hu : WellFormed unit)
    {s : Session Unit} (hs : s.log.Quiet) :
    ∃ report reserved, (renameUnit settings unit s).reply = .ok report ∧
      reservedNames unit = .ok reserved ∧
      report.mapping = entriesInOrder lead reserved
        (scannedKeys settings (renameUnit settings unit s).session.classes unit).eraseDups := by
  obtain ⟨⟨strategy, hcheck⟩, hsource⟩ := hgood.alphabetic hlead hstrategy
  obtain ⟨t, hquiet, -, hown, hrun⟩ :=
    exists_walk Source.draw hcheck hu (s := s.withOwn (.alphabetic lead)) hs
  obtain ⟨nodes, hnodes⟩ : ∃ ns, ns = (resolution unit (s.withOwn (Source.alphabetic lead))).1 :=
    ⟨_, rfl⟩
  rw [← hnodes] at hrun
  have hwf : WellFormed nodes := hnodes ▸ wellFormed_resolution hu _
  obtain ⟨d, names, hended, hentries⟩ :=
    Renamer.exists_named_in_order hgood.lead hwf hquiet hown
  have hclasses : (renameUnit settings unit s).session.classes = t.classes := by
    simp only [renameUnit, hcheck, hsource, hrun]
    exact hended.classes
  -- The class context has no part in which items are asked for and which names are reserved.
  have hitems : Declarations.scannedItems nodes = Declarations.scannedItems unit := by
    obtain ⟨asked, hasked, -⟩ := Declarations.exists_asked hwf
    have hrequests : Declarations.requests nodes = Declarations.requests unit :=
      hnodes ▸ Declarations.requests_sweepUnit hu.sound _
    rw [Declarations.scannedItems_eq hwf hasked,
      Declarations.scannedItems_eq hu (hrequests.symm.trans hasked)]
  have hnames : propertyNames nodes = propertyNames unit := hnodes ▸ propertyNames_resolution hu _
  refine ⟨(traverse (depth nodes) [Renamer.visitor Source.draw] nodes t).session.own.report
    (traverse (depth nodes) [Renamer.visitor Source.draw] nodes t).subject,
    (propertyNames unit).map .text, ?_, reservedNames_eq hu, ?_⟩
  · simp only [renameUnit, hcheck, hsource, hrun, hended.reply]
    rfl
  · rw [hclasses, Renamer.report, hended.own, ← hnames, scannedKeys, ← hitems]
    exact hentries

/-- A class that declares `b` twice around an item called `a`: `b` comes first and is asked for
again when `c` has been given out already. -/
def askedAgainUnit : List Node :=
  [⟨.classDecl 0, {}, [.str "Point",
    .list [.node ⟨.propertyDecl, {}, [.int 4, .list [sampleItem "b", sampleItem "a"]]⟩,
      .node ⟨.propertyDecl, {}, [.int 4, .list [sampleItem "b", sampleItem "e"]]⟩,
      sampleFetch "this" "b"], .null, .null]⟩]

theorem renameUnit_names_in_order_sample : Settings.Good {} "" ∧ WellFormed askedAgainUnit ∧
    Log.Quiet {} ∧
    ∃ report reserved, (renameUnit {} askedAgainUnit sampleSession).reply = .ok report ∧
      reservedNames askedAgainUnit = .ok reserved ∧
      report.mapping = entriesInOrder "" reserved
        (scannedKeys {} (renameUnit {} askedAgainUnit sampleSession).session.classes
          askedAgainUnit).eraseDups := by
  have hgood : Settings.Good {} "" := ⟨Or.inl rfl, Or.inl rfl, by decide, by decide⟩
  have hunit : WellFormed askedAgainUnit := by decide
  have hquiet : Log.Quiet {} := by decide
  exact ⟨hgood, hunit, hquiet, renameUnit_names_in_order hgood rfl rfl hunit hquiet⟩

/-- There the reserved names are `a`, `b` and `e`, so the keys get `c`, `d` and `f`. -/
example : (renameUnit {} askedAgainUnit sampleSession).reply.toOption.map Report.mapping =
    some [(.plain (.text "b"), .text "c"), (.plain (.text "a"), .text "d"),
      (.plain (.text "e"), .text "f")] := by
  decide +kernel

end PropertyRenaming
