import PropertyRenaming.Proofs.DistinctNames
import PropertyRenaming.Proofs.OneWalk

namespace PropertyRenaming

open Declarations (others Plan Spares)
open Names (Hashing Source)

section Search

variable {h : Hashing} {asked : Atom} {taken : List Atom}

theorem Names.Hashing.search_of_mem {first : Nat}
    (hc : Atom.text (h.candidate asked first) ∈ taken) :
    h.search asked taken first = h.search asked taken (first + 1) := by
  rw [Hashing.search, if_pos (by simpa using hc)]

theorem Names.Hashing.search_of_not_mem {first : Nat}
    (hc : Atom.text (h.candidate asked first) ∉ taken) :
    h.search asked taken first = some first := by
  rw [Hashing.search, if_neg (by simpa using hc)]

theorem Names.Hashing.search_ne_none {n first : Nat}
    (hc : Atom.text (h.candidate asked (first + n)) ∉ taken) :
    h.search asked taken first ≠ none := by
  induction n generalizing first with
  | zero =>
    rw [Nat.add_zero] at hc
    rw [search_of_not_mem hc]
    nofun
  | succ n ih =>
    by_cases hfirst : Atom.text (h.candidate asked first) ∈ taken
    · rw [search_of_mem hfirst]
      apply ih
      rwa [show first + 1 + n = first + (n + 1) by omega]
    · rw [search_of_not_mem hfirst]
      nofun

/-- A search has no end just if all its candidates are taken. -/
theorem Names.Hashing.firstAttempt?_eq_none_iff :
    h.firstAttempt? asked taken = none ↔ ∀ k, Atom.text (h.candidate asked k) ∈ taken := by
  constructor
  · intro hnone k
    by_contra hk
    rw [← Nat.zero_add k] at hk
    exact search_ne_none hk hnone
  · intro hall
    cases hk : h.firstAttempt? asked taken with
    | none => rfl
    | some k => exact absurd (hall k) (Hashing.search_some hk).2.1

/-- A hashed name can fail to be drawn only because all its candidates are taken. -/
theorem Names.Hashing.draw_error (hlead : h.lead = "" ∨ isIdentifier h.lead = true)
    {e : Fault} (he : (Source.draw asked taken (.hashed h)).name = .error e) :
    e = .searchAbandoned asked ∧ ∀ k, Atom.text (h.candidate asked k) ∈ taken := by
  simp only [Source.draw, Names.hashed] at he
  cases hk : h.firstAttempt? asked taken with
  | none =>
    rw [hk] at he
    exact ⟨(Except.error.inj he).symm, firstAttempt?_eq_none_iff.mp hk⟩
  | some k =>
    rw [hk] at he
    simp [Names.checked, Names.isIdentifier_hashingCandidate hlead] at he

end Search

section Settings

variable {settings : Settings} {lead : String}

def Fault.BlamesSettings : Fault → Prop
  | .unknownStrategy _ | .badLead _ | .badHashLength _ => True
  | _ => False

/-- Settings with a known strategy, with no lead or one that is an identifier, and with a length
from 4 to 32. -/
structure Settings.Good (settings : Settings) (lead : String) : Prop where
  strategy : settings.strategy = .text "alphabetic" ∨ settings.strategy = .text "hash"
  lead : lead = "" ∨ isIdentifier lead = true
  length : 4 ≤ settings.hashLength ∧ settings.hashLength ≤ 32

theorem Strategy.ofAtom?_isSome_iff {a : Atom} :
    (Strategy.ofAtom? a).isSome = true ↔ a = .text "alphabetic" ∨ a = .text "hash" := by
  unfold Strategy.ofAtom?
  split <;> simp_all

theorem checkLead_text (lead : String) :
    (lead = "" ∨ isIdentifier lead = true) ∧ checkLead (.text lead) = .ok () ∨
      ¬ (lead = "" ∨ isIdentifier lead = true) ∧
        checkLead (.text lead) = .error (.badLead lead) := by
  by_cases h : lead = "" ∨ isIdentifier lead = true
  · exact Or.inl ⟨h, by simp [checkLead, h]⟩
  · refine Or.inr ⟨h, ?_⟩
    rw [not_or] at h
    simp [checkLead, h.1, h.2]

theorem Settings.check_cases (hlead : settings.lead = .text lead) :
    (settings.Good lead ∧ ∃ strategy, settings.check = .ok strategy) ∨
      ¬ settings.Good lead ∧ ∃ e, e.BlamesSettings ∧ settings.check = .error e := by
  unfold Settings.check
  cases hs : Strategy.ofAtom? settings.strategy with
  | none =>
    refine Or.inr ⟨fun h => ?_, .unknownStrategy settings.strategy, trivial, rfl⟩
    have hsome := Strategy.ofAtom?_isSome_iff.mpr h.strategy
    rw [hs] at hsome
    cases hsome
  | some strategy =>
    have hstrategy := Strategy.ofAtom?_isSome_iff.mp (by rw [hs]; rfl)
    dsimp only
    rw [hlead]
    obtain ⟨hgood, hcheck⟩ | ⟨hbad, hcheck⟩ := checkLead_text lead
    · rw [hcheck]
      by_cases hlength : 4 ≤ settings.hashLength ∧ settings.hashLength ≤ 32
      · exact Or.inl ⟨⟨hstrategy, hgood, hlength⟩, strategy, by simp [bind, Except.bind, hlength]⟩
      · refine Or.inr ⟨fun h => hlength h.length, .badHashLength settings.hashLength, trivial, ?_⟩
        simpa [bind, Except.bind] using hlength
    · rw [hcheck]
      exact Or.inr ⟨fun h => hbad h.lead, .badLead lead, trivial, rfl⟩

theorem Settings.Good.source (h : settings.Good lead) (hlead : settings.lead = .text lead) :
    Source.ofSettings settings = .ok (.alphabetic lead) ∨
      settings.strategy = .text "hash" ∧ ∃ hashing : Hashing,
        Source.ofSettings settings = .ok (.hashed hashing) ∧
          (hashing.lead = "" ∨ isIdentifier hashing.lead = true) := by
  rcases h.strategy with hs | hs
  · exact Or.inl (by simp [Source.ofSettings, Strategy.ofAtom?, hs, hlead, Atom.spelling])
  · refine Or.inr ⟨hs, ⟨settings.salt.spelling, if settings.lead.holds then settings.lead.spelling
      else "", settings.hashLength⟩, by simp only [Source.ofSettings, Strategy.ofAtom?, hs], ?_⟩
    rw [hlead]
    dsimp only
    split
    · exact h.lead
    · exact Or.inl rfl

end Settings

section Scans

variable {γ : Type} {supply : Names.Supply γ}

namespace Declarations

variable {t : Terms γ} {d : Drawing γ}

/-- A request for a property can fault only where the supply has no name, and then the names of all
other keys were taken. -/
theorem Terms.serve_refused (hnotes : Names.Hushed t.supply) (hq : d.log.Quiet)
    {q : ClassId × String} {e : Fault} (h : (t.serve (Plan.request q) d).2.2 = some e) :
    (t.supply (.text q.2) (t.reserved ++ others d.map.entries
      (propertyKey d.map.perClass t.scope q.1 (.text q.2))) d.memory).name = .error e := by
  obtain ⟨owner, name⟩ := q
  cases hignored : (Atom.text name).isIn t.ignore with
  | true =>
    rw [Plan.request, t.serve_ignored owner hignored, write_ignored hq] at h
    cases h
  | false =>
    obtain ⟨log, -, hserve⟩ := Terms.serve_quiet (t := t) hq owner (.text name) (by simp) hignored
      fun taken => hnotes _ _ _
    rw [Plan.request, hserve] at h
    dsimp only at h ⊢
    generalize (t.supply (.text name) _ d.memory).name = drawn at h ⊢
    cases drawn with
    | error e' => exact congrArg Except.error (Option.some.inj h)
    | ok new => cases h

theorem Terms.serveAll_refused (hnotes : Names.Hushed t.supply)
    (hstays : ∀ asked taken, (t.supply asked taken d.memory).memory = d.memory)
    (hq : d.log.Quiet) {asked : List (ClassId × String)} {e : Fault}
    (h : (t.serveAll (asked.map Plan.request) d).2.2 = some e) :
    ∃ k q, asked[k]? = some q ∧
      (t.supply (.text q.2) (t.reserved ++ others
        (t.serveAll ((asked.map Plan.request).take k) d).1.map.entries
        (propertyKey d.map.perClass t.scope q.1 (.text q.2))) d.memory).name = .error e := by
  induction asked generalizing d with
  | nil => cases h
  | cons q asked ih =>
    have hgrows := t.serve_grows (Plan.request q) d
    have hfirst := fun e => Terms.serve_refused (t := t) (d := d) (q := q) (e := e) hnotes hq
    rw [List.map_cons] at h ⊢
    obtain ⟨⟨d', name, fault⟩, hserve⟩ : ∃ o, t.serve (Plan.request q) d = o := ⟨_, rfl⟩
    rw [hserve] at hgrows hfirst
    cases fault with
    | some e' =>
      rw [serveAll_cons_fault hserve] at h
      exact ⟨0, q, rfl, hfirst e h⟩
    | none =>
      rw [serveAll_cons_served hserve] at h
      have hmemory : d'.memory = d.memory := hgrows.memory hstays rfl
      have hquiet : d'.log.Quiet := hq.of_threshold hgrows.threshold
      -- The supply forgets nothing and learns nothing, so the rest is served as from the start.
      obtain ⟨k, q', hk, hname⟩ := ih (by rwa [hmemory]) hquiet h
      refine ⟨k + 1, q', hk, ?_⟩
      rw [List.take_succ_cons, serveAll_cons_served hserve, ← hmemory, ← hgrows.perClass]
      exact hname

end Declarations

/-- A walk that renames properties comes to its end, or the supply has no name for an item. -/
theorem Renamer.traverse_cases {nodes : List Node} (hu : WellFormed nodes) {limit : Nat}
    (hd : depth nodes ≤ limit) {s : Session (Renamer γ)} (hs : s.log.Quiet)
    (hsupply : Names.Plain supply s.own.memory) :
    (∃ result, (traverse limit [visitor supply] nodes s).reply = .ok result) ∨
      ∃ k q e, (traverse limit [visitor supply] nodes s).reply = .error e ∧
        (Declarations.requests nodes)[k]? = some (Plan.request q) ∧
        (supply (.text q.2) ((propertyNames nodes).map .text ++ others
          ((scanTerms supply nodes s).serveAll ((Declarations.requests nodes).take k)
            (scanStart s)).1.map.entries
          (propertyKey s.own.map.perClass s.classes.scope q.1 (.text q.2))) s.own.memory).name =
            .error e := by
  cases hreply : (before supply nodes s).reply with
  | ok reply =>
    obtain ⟨names, t, hbefore, hspares, -, hthreshold⟩ := before_done hsupply.yields hu rfl hreply
    have htraverse := traverse_eq hbefore ((Declarations.depth_rename_le hu hspares).trans hd)
      (Declarations.wellFormed_rename hu hspares fun _ => id).legible (hs.of_threshold hthreshold)
    exact Or.inl ⟨_, congrArg Outcome.reply htraverse⟩
  | error e =>
    -- All names are drawn before the first node is entered, so the walk ends there.
    have hwalk := traverse_of_before_error (v := visitor supply) hreply limit []
    obtain ⟨asked, hasked, -⟩ := Declarations.exists_asked hu
    rw [before_eq_drawn hu, hasked] at hreply
    rw [hasked]
    cases hstop : ((scanTerms supply nodes s).serveAll (asked.map Plan.request)
        (scanStart s)).2.2 with
    | none => simp [drawn, hstop, Session.done] at hreply
    | some e' =>
      obtain rfl : e' = e := by simpa [drawn, hstop, Session.fail] using hreply
      obtain ⟨k, q, hk, hname⟩ := Declarations.Terms.serveAll_refused
        (t := scanTerms supply nodes s) (d := scanStart s) hsupply.hushed hsupply.stays hs hstop
      refine Or.inr ⟨k, q, e', hwalk, ?_, hname⟩
      rw [List.getElem?_map, hk]
      rfl

end Scans

theorem renameUnit_cases {settings : Settings} {strategy : Strategy}
    (hcheck : settings.check = .ok strategy) {source : Source}
    (hsource : Source.ofSettings settings = .ok source) (hplain : Names.Plain Source.draw source)
    {unit : List Node} (hu : WellFormed unit) {s : Session Unit} (hs : s.log.Quiet) :
    (∃ report, (renameUnit settings unit s).reply = .ok report) ∨
      ∃ k owner name e, (renameUnit settings unit s).reply = .error e ∧
        (Declarations.requests unit)[k]? = some (.item owner (.text name) none) ∧
        (Source.draw (.text name) ((propertyNames unit).map .text ++ others
          (entriesAfter settings source unit s k) (propertyKey settings.scopedKeys
            (resolveUnit unit s).session.classes.scope owner (.text name))) source).name =
              .error e := by
  obtain ⟨s', hs'⟩ : ∃ s' : Session Source,
      s' = { s.withOwn source with log := s.log.add (unitStart unit settings) } := ⟨_, rfl⟩
  have hquiet : s'.log.Quiet := hs' ▸ hs.add _
  have hown : s'.own = source := by rw [hs']; rfl
  obtain ⟨hresolve, hcalm⟩ := resolveUnit_eq hu hquiet
  have hwf := wellFormed_resolution hu s'
  have hrequests : Declarations.requests (resolution unit s').1 = Declarations.requests unit :=
    Declarations.requests_sweepUnit hu.sound _
  have hclasses : (resolveUnit unit s).session.classes = (resolution unit s').2.classes := by
    rw [(resolveUnit_eq hu hs).1, classes_resolution unit s', hs']
    exact classes_resolution unit s
  rcases Renamer.traverse_cases hwf le_rfl
      (s := (resolution unit s').2.withOwn (Renamer.start settings s'.own)) hcalm.2
      (hown ▸ hplain) with ⟨result, hreply⟩ | ⟨k, ⟨owner, name⟩, e, hreply, hk, hname⟩
  · left
    rw [renameUnit_eq hcheck hsource hu hs hs', renameResolved_def]
    exact ⟨_, congrArg (Except.map _) hreply⟩
  · refine Or.inr ⟨k, owner, name, e, ?_, hrequests ▸ hk, ?_⟩
    · rw [renameUnit_eq hcheck hsource hu hs hs', renameResolved_def]
      exact congrArg (Except.map _) hreply
    rw [entriesAfter, ← hs', hresolve, hclasses]
    dsimp only
    rw [reservedNames_eq hwf, ← propertyNames_resolution hu s', ← hown]
    exact hname

/-- A run with hashed names that has no end: for some item all candidates are names of the unit or
in use for other keys, and the run is still searching. -/
def SearchesForever (settings : Settings) (unit : List Node) (s : Session Unit) : Prop :=
  ∃ hashing k owner name, Source.ofSettings settings = .ok (.hashed hashing) ∧
    (renameUnit settings unit s).reply = .error (.searchAbandoned (.text name)) ∧
    (Declarations.requests unit)[k]? = some (.item owner (.text name) none) ∧
    ∀ attempt, Atom.text (hashing.candidate (.text name) attempt) ∈
      (propertyNames unit).map .text ++ others (entriesAfter settings (.hashed hashing) unit s k)
        (propertyKey settings.scopedKeys (resolveUnit unit s).session.classes.scope owner
          (.text name))

/-- A run refuses bad settings before it touches anything, and with good ones it has no fault: it
returns, or it goes on searching for a hashed name. -/
theorem renameUnit_fails_only_for_settings {settings : Settings} {lead : String}
    (hlead : settings.lead = .text lead) {unit : List Node} (hunit : WellFormed unit)
    {s : Session Unit} (hlog : s.log.Quiet) :
    (¬ settings.Good lead →
        ∃ e, e.BlamesSettings ∧ renameUnit settings unit s = s.fail unit e) ∧
      (settings.Good lead → (∃ report, (renameUnit settings unit s).reply = .ok report) ∨
        settings.strategy = .text "hash" ∧ SearchesForever settings unit s) := by
  rcases settings.check_cases hlead with ⟨hgood, strategy, hcheck⟩ | ⟨hbad, e, he, hcheck⟩
  · refine ⟨fun h => absurd hgood h, fun _ => ?_⟩
    rcases hgood.source hlead with hsource | ⟨hhash, hashing, hsource, hlead'⟩
    · rcases renameUnit_cases hcheck hsource (Source.BuiltIn.plain trivial) hunit hlog with
        hreply | ⟨k, owner, name, e, -, -, hname⟩
      · exact Or.inl hreply
      · -- There are more words than names in use.
        obtain ⟨j, -, hj⟩ := Names.exists_alphabetic hgood.lead (.text name) _
        exact absurd (hname.symm.trans hj) nofun
    · rcases renameUnit_cases hcheck hsource (Source.BuiltIn.plain trivial) hunit hlog with
        hreply | ⟨k, owner, name, e, hreply, hk, hname⟩
      · exact Or.inl hreply
      · -- Candidates are cut to a fixed length, so they may all be in use.
        obtain ⟨rfl, hall⟩ := Hashing.draw_error hlead' hname
        exact Or.inr ⟨hhash, hashing, k, owner, name, hsource, hreply, hk, hall⟩
  · refine ⟨fun _ => ⟨e, he, ?_⟩, fun h => absurd h hbad⟩
    simp only [renameUnit, hcheck]

end PropertyRenaming
