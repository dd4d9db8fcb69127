import PropertyRenaming.Proofs.AlphabeticOrder
import PropertyRenaming.Proofs.Counters
import PropertyRenaming.Proofs.PutBack

namespace PropertyRenaming

open Context (Calm)
open Declarations (Drawing Terms)
open Names (Source)

/-- Whether one of the records written stops a run at a level. -/
def Log.halts (level : Int) (log : Log) : Bool := log.written.any (·.stopsAt level)

section Logs

variable {level : Int} {log log' : Log} {r : Record}

theorem stoppedAt_iff_halts {σ α ρ : Type} {run : Int → Outcome σ α ρ} :
    StoppedAt run level ↔ (run silentLevel).session.log.halts level = true := by
  rw [StoppedAt, Log.halts, List.any_eq_true]

@[simp] theorem Log.halts_add (level : Int) (r : Record) (log : Log) :
    (log.add r).halts level = (r.stopsAt level || log.halts level) := rfl

theorem Record.stopsAt_of_not_clashes (h : r.clashes = false) (level : Int) :
    r.stopsAt level = false := by
  simp [stopsAt, h]

theorem Log.halts_of_write (h : log.write r = .ok log') :
    log'.halts level = (r.stopsAt level || log.halts level) := by
  unfold write at h
  split at h
  · cases h
  · obtain rfl := Except.ok.inj h
    rfl

theorem Log.halts_of_writeAll {rs : List Record} (hrs : ∀ r ∈ rs, r.clashes = false)
    (h : log.writeAll rs = .ok log') : log'.halts level = log.halts level := by
  induction rs generalizing log with
  | nil =>
    obtain rfl := Except.ok.inj h
    rfl
  | cons r rs ih =>
    rw [List.forall_mem_cons] at hrs
    have hstep : log.writeAll (r :: rs) = (log.write r).bind fun log => log.writeAll rs := rfl
    rw [hstep, write_of_not_clashes hrs.1] at h
    rw [ih hrs.2 h, halts_add, Record.stopsAt_of_not_clashes hrs.1, Bool.false_or]

end Logs

section Sweeps

variable {σ : Type} {w : Sweep σ} {Good : Node → Prop} {Ok : Session σ → Prop} {level : Int}
  {marked : Node → Bool}

/-- A sweep that writes a record which stops a run for each node of some sort, and no other. -/
structure Sweep.Marks (w : Sweep σ) (Good : Node → Prop) (Ok : Session σ → Prop) (level : Int)
    (marked : Node → Bool) : Prop where
  opened {n : Node} {s : Session σ} : Good n → Ok s → Ok (w.opened n s) ∧
    (w.opened n s).log.halts level = (marked n || s.log.halts level)
  closed {n : Node} {s : Session σ} : Ok s → Ok (w.closed n s) ∧
    (w.closed n s).log.halts level = s.log.halts level

mutual

theorem Node.halts_sweep (hw : w.Marks Good Ok level marked) (s : Session σ) (hs : Ok s) :
    (n : Node) → (∀ m ∈ n.preorder, Good m) → Ok (n.sweep w s).2 ∧
      (n.sweep w s).2.log.halts level = (n.preorder.any marked || s.log.halts level)
  | ⟨kind, place, fields⟩, hn => by
    rw [Node.preorder, List.forall_mem_cons] at hn
    obtain ⟨hok, hopened⟩ := hw.opened hn.1 hs
    obtain ⟨hbelow, hrest⟩ := Value.halts_sweepAll hw _ hok fields hn.2
    obtain ⟨hend, hclosed⟩ := hw.closed (n := ⟨kind, place, fields⟩) hbelow
    rw [Node.sweep, Node.preorder]
    refine ⟨hend, ?_⟩
    rw [hclosed, hrest, hopened, List.any_cons]
    -- The last record written comes first, but which record stops a run makes no difference.
    ac_rfl

theorem Value.halts_sweep (hw : w.Marks Good Ok level marked) (s : Session σ) (hs : Ok s) :
    (v : Value) → (∀ m ∈ v.preorder, Good m) → Ok (v.sweep w s).2 ∧
      (v.sweep w s).2.log.halts level = (v.preorder.any marked || s.log.halts level)
  | .node n, hv => by
    rw [Value.preorder] at hv ⊢
    rw [Value.sweep]
    exact Node.halts_sweep hw s hs n hv
  | .list vs, hv => by
    rw [Value.preorder] at hv ⊢
    rw [Value.sweep]
    split
    · rename_i hall
      rw [if_pos hall] at hv
      exact Value.halts_sweepAll hw s hs vs hv
    · exact ⟨hs, rfl⟩
  | .atom _, _ | .object, _ => by simp [Value.sweep, Value.preorder, hs]

theorem Value.halts_sweepAll (hw : w.Marks Good Ok level marked) (s : Session σ) (hs : Ok s) :
    (vs : List Value) → (∀ m ∈ Value.preorderAll vs, Good m) → Ok (Value.sweepAll w s vs).2 ∧
      (Value.sweepAll w s vs).2.log.halts level =
        ((Value.preorderAll vs).any marked || s.log.halts level)
  | [], _ => ⟨hs, rfl⟩
  | v :: vs, hvs => by
    rw [Value.preorderAll, List.forall_mem_append] at hvs
    obtain ⟨hok, hfirst⟩ := Value.halts_sweep hw s hs v hvs.1
    obtain ⟨hend, hrest⟩ := Value.halts_sweepAll hw _ hok vs hvs.2
    rw [Value.sweepAll, Value.preorderAll, List.any_append]
    refine ⟨hend, ?_⟩
    rw [hrest, hfirst]
    ac_rfl

end

theorem Sweep.Marks.halts_sweepUnit (hw : w.Marks Good Ok level marked) {s : Session σ} (hs : Ok s)
    {unit : List Node} (hu : ∀ n ∈ preorder unit, Good n) :
    (sweepUnit w s unit).2.log.halts level = ((preorder unit).any marked || s.log.halts level) := by
  have h := (Value.halts_sweepAll hw s hs (unit.map .node) (by rwa [preorderAll_nodes])).2
  rwa [Value.sweepAll_nodes, preorderAll_nodes] at h

end Sweeps

def Node.classReference? (n : Node) : Option String :=
  n.kind.reference?.bind fun f => (n.get f).tokenText?

namespace ClassName

/-- Whether a name is to be looked up: it is neither special nor fully qualified. -/
def isRelative (s : String) : Bool := !isSpecial s && !isFullyQualified s

/-- Just those names change when they are written out in full. -/
theorem resolve_eq_self_iff (ns : Option String) (imports : Imports) (s : String) :
    resolve ns imports s = s ↔ isRelative s = false := by
  unfold isRelative
  cases hkept : isSpecial s || isFullyQualified s with
  | true =>
    rw [resolve, if_pos hkept]
    simpa [or_iff_not_imp_left] using hkept
  | false =>
    obtain ⟨hspecial, hfull⟩ := Bool.or_eq_false_iff.mp hkept
    -- What is looked up comes out fully qualified, which the name was not.
    have hne : resolve ns imports s ≠ s := by
      intro h
      have hfull' : isFullyQualified (resolve ns imports s) = true := by
        rw [resolve, if_neg (by simp [hkept])]
        exact isFullyQualified_append _
      rw [h, hfull] at hfull'
      cases hfull'
    simp [hne, hspecial, hfull]

end ClassName

namespace Context

variable {level : Int}

def isMarked (level : Int) (n : Node) : Bool :=
  decide (level ≤ Level.debug.rank) && n.classReference?.any ClassName.isRelative

theorem stopsAt_resolved (name full : String) (level : Int) :
    (resolved name full).stopsAt level = decide (level ≤ Level.debug.rank) := Bool.and_true _

theorem halts_logged (c : Context) (v : Value) (log : Log) :
    (c.logged v log).halts level =
      (decide (level ≤ Level.debug.rank) && v.tokenText?.any ClassName.isRelative ||
        log.halts level) := by
  have hrewriting : c.rewriting? v = v.tokenText?.bind fun name =>
      if ClassName.isRelative name then
        some (name, ClassName.resolve c.ns c.imports name)
      else none := by
    unfold rewriting? Value.tokenText?
    cases v.token? with
    | none => rfl
    | some token =>
      simp only [Option.bind_eq_bind, Option.bind_some]
      cases (token.get .value).str? with
      | none => rfl
      | some name =>
        have hresolve := ClassName.resolve_eq_self_iff c.ns c.imports name
        cases hrelative : ClassName.isRelative name with
        | true => simp [hresolve, hrelative]
        | false => simp [hresolve, hrelative]
  unfold logged
  rw [hrewriting]
  cases v.tokenText? with
  | none => simp
  | some name =>
    cases hrelative : ClassName.isRelative name with
    | true => simp [hrelative, stopsAt_resolved]
    | false => simp [hrelative]

/-- Working out the class context marks the nodes that refer to a class by a name to look up. -/
theorem marks (level : Int) :
    sweep.Marks (fun _ => True) (fun _ => True) level (isMarked level) where
  opened {n s} _ _ := by
    refine ⟨trivial, ?_⟩
    simp only [sweep, noted, isMarked, Node.classReference?]
    cases n.kind.reference? with
    | none => simp
    | some f => exact halts_logged s.own (n.get f) s.log
  closed {n s} _ := by
    refine ⟨trivial, ?_⟩
    simp only [sweep]
    split <;> rfl

end Context

namespace Declarations

variable {γ : Type} {t : Terms γ} {d d' : Drawing γ} {level : Int} {qs : List Request}
  {names : List (Option Atom)}

theorem stopsAt_ignored (name : Atom) (level : Int) :
    (ignored name).stopsAt level = decide (level ≤ Level.info.rank) := Bool.and_true _

section Serving

variable (ht : ∀ asked taken memory, ∀ r ∈ (t.supply asked taken memory).notes, r.clashes = false)

include ht

theorem Terms.halts_draw {name : Atom} {scope : Option Scope} {new : Option Atom}
    (h : t.draw name scope d = (d', new, none)) : d'.log.halts level = d.log.halts level := by
  have hdraws := t.draws name scope d
  rw [h] at hdraws
  -- Of the ways through a draw only one ends without a fault.
  cases hdraws with
  | noted _ _ _ hrs hwrite =>
    exact Log.halts_of_writeAll (List.forall_mem_append.mpr ⟨ht _ _ _, hrs⟩) hwrite

theorem Terms.halts_serve {q : Request} (hslot : q.slot = none) {new : Option Atom}
    (h : t.serve q d = (d', new, none)) :
    d'.log.halts level =
      (decide (level ≤ Level.info.rank) && q.isIgnored t.ignore || d.log.halts level) := by
  cases q with
  | bad e => cases h
  | item owner name slot =>
    obtain rfl : slot = none := hslot
    cases hname : name.isIn t.ignore with
    | true =>
      rw [t.serve_ignored owner hname] at h
      split at h
      · rename_i log hlog
        obtain ⟨rfl, -⟩ := Prod.mk.inj h
        simp [Log.halts_of_write hlog, stopsAt_ignored, Request.isIgnored, hname]
      · cases h
    | false =>
      rw [t.serve_item owner hname] at h
      rw [Terms.halts_draw ht h]
      simp [Request.isIgnored, hname]

theorem Terms.halts_serveAll (hslots : ∀ q ∈ qs, q.slot = none)
    (h : t.serveAll qs d = (d', names, none)) (level : Int) :
    d'.log.halts level = (decide (level ≤ Level.info.rank) && qs.any (·.isIgnored t.ignore) ||
      d.log.halts level) := by
  induction qs generalizing d names with
  | nil =>
    obtain ⟨rfl, -⟩ := Prod.mk.inj h
    simp
  | cons q qs ih =>
    rw [List.forall_mem_cons] at hslots
    rw [Terms.serveAll] at h
    split at h
    · simp at h
    · rename_i d₁ name hserve
      have hrest : t.serveAll qs d₁ = (d', (t.serveAll qs d₁).2.1, none) := by
        obtain ⟨hd, hnames⟩ := Prod.mk.inj h
        obtain ⟨-, hfault⟩ := Prod.mk.inj hnames
        exact Prod.ext hd (Prod.ext rfl hfault)
      rw [ih hslots.2 hrest, Terms.halts_serve ht hslots.1 hserve, List.any_cons,
        Bool.and_or_distrib_left]
      ac_rfl

end Serving

end Declarations

namespace Renamer

variable {γ : Type} {level : Int} {table : ClassTable}

/-- Whether a node is a fetch by name that is not local. -/
def isForeign (table : ClassTable) (n : Node) : Bool := n.isLiteralFetch && !table.finds n

theorem stopsAt_foreignFetch (name : String) (level : Int) :
    (foreignFetch name).stopsAt level = decide (level ≤ Level.debug.rank) := Bool.and_true _

theorem isLiteralFetch_of_isFetch {n : Node} (hk : n.kind.isFetch = true) :
    n.isLiteralFetch = (n.get .name).str?.isSome := by
  simp [Node.isLiteralFetch, Node.propertyName?, hk]

theorem halts_skip {n : Node} {s : Session (Renamer γ)} (hs : s.log.Quiet) {r : Record}
    (hr : r.level ≠ .warning) :
    ((skip s).note r n fun s => s.done n Reply.keep).session.log.halts level =
      (r.stopsAt level || s.log.halts level) := by
  have hskip : (skip s).log.Quiet := hs
  simp only [Session.note, hskip.write hr]
  rfl

theorem halts_enter {n : Node} (hn : n.Legible) {s : Session (Renamer γ)} (hs : s.log.Quiet) :
    (enter n s).session.log.halts level =
      (decide (level ≤ Level.debug.rank) && isForeign s.classes n || s.log.halts level) := by
  have hentered := entered (s := s) hn
  unfold isForeign
  generalize enter n s = o at hentered ⊢
  cases hentered with
  | passed hk => simp [Node.isLiteralFetch, hk, Session.done]
  | dynamic hk hname =>
    rw [isLiteralFetch_of_isFetch hk, hname, halts_skip hs (by simp [dynamicFetch]),
      Record.stopsAt_of_not_clashes rfl]
    simp
  | foreign hk hname hfinds =>
    rw [isLiteralFetch_of_isFetch hk, hname, hfinds, halts_skip hs (by simp [foreignFetch]),
      stopsAt_foreignFetch]
    simp [Value.str?]
  | unlisted hlocal _ | renamed hlocal _ =>
    obtain ⟨-, -, -, hfinds⟩ := Node.localFetch?_eq_some_iff.mp hlocal
    simp [hfinds, Session.done, Session.withOwn]

theorem marks (table : ClassTable) (level : Int) :
    (sweep : Sweep (Renamer γ)).Marks Node.Legible (fun s => Calm s ∧ s.classes = table) level
    fun n => decide (level ≤ Level.debug.rank) && isForeign table n where
  opened {n s} hn hs := by
    have hkeeps := keeps_enter n s
    refine ⟨⟨quiet_of_keeps hkeeps hs.1, hkeeps.classes.trans hs.2⟩, ?_⟩
    rw [← hs.2]
    exact halts_enter hn hs.1.2
  closed hs := ⟨hs, rfl⟩

end Renamer

section Framed

variable {ignore : List Atom} {given : Atom → Prop} {spot : Spot} {named : Bool} {p : Prop}
  {n m : Node} {v u : Value}

theorem Declarations.not_touched (hk : n.kind ≠ .propertyItem) (f : Field) :
    ¬ Declarations.Touched ignore given spot named n m f := by
  rintro ⟨hitem, -, -, -⟩
  exact hk (Site.declared?_eq_some_iff.mp hitem).1

theorem Declarations.isThis_of_framed
    (h : Value.Framed (Declarations.Touched ignore given) p spot named v u) (hp : ¬ p) :
    u.isThis = v.isThis := by
  cases h with
  | touched hp' => exact absurd hp' hp
  | same _ => rfl
  | nodes _ => rfl
  | @node _ _ _ n m h =>
    rw [Value.isThis, Value.isThis, h.kind_eq]
    by_cases hk : n.kind = .variableRef
    · rw [(h.field .name).str?_eq (Declarations.not_touched (by simp [hk]) .name)]
    · have hne : (n.kind == .variableRef) = false := by simpa using hk
      rw [hne, Bool.false_and, Bool.false_and]

theorem Declarations.tokenText?_of_framed
    (h : Value.Framed (Declarations.Touched ignore given) p spot named v u) (hp : ¬ p) :
    u.tokenText? = v.tokenText? := by
  cases h with
  | touched hp' => exact absurd hp' hp
  | same _ => rfl
  | nodes _ => rfl
  | @node _ _ _ n m h =>
    have hvalue : (m.get .value).str? = (n.get .value).str? := (h.field .value).str?_eq nofun
    by_cases hk : n.kind = .className
    · simp [Value.tokenText?, Value.token?, h.kind_eq, hk, hvalue]
    · simp [Value.tokenText?, Value.token?, h.kind_eq, hk]

theorem Renamer.isForeign_of_framed
    (h : Node.Framed (Declarations.Touched ignore given) spot named n m)
    (hplace : m.place = n.place) (table : ClassTable) :
    isForeign table m = isForeign table n := by
  by_cases hk : n.kind.isFetch = true
  · have hnot : ∀ f, ¬ Declarations.Touched ignore given spot named n m f :=
      Declarations.not_touched fun hitem => by simp [hitem, Kind.isFetch] at hk
    have hfinds : table.finds m = table.finds n := by
      unfold ClassTable.finds
      rw [hplace, h.kind_eq, Declarations.isThis_of_framed (h.field .object) (hnot _),
        Declarations.tokenText?_of_framed (h.field .cls) (hnot _)]
    rw [isForeign, isForeign, isLiteralFetch_of_isFetch hk,
      isLiteralFetch_of_isFetch (h.kind_eq ▸ hk), (h.field .name).str?_eq (hnot _), hfinds]
  · simp [isForeign, Node.isLiteralFetch, h.kind_eq, hk]

/-- Putting names back makes no fetch local, and none foreign. -/
theorem Renamer.any_isForeign_rename {unit : List Node} (hu : WellFormed unit)
    (names : List (Option Atom)) (table : ClassTable) :
    (preorder (Declarations.rename names unit)).any (isForeign table) =
      (preorder unit).any (isForeign table) := by
  -- The frame says what has become of a node and leaves its place open, which comes separately.
  have hframed := forall₂_preorder_of_framed
    (Declarations.framed_rename hu (Declarations.spares_any _ names)) fun n hn => (hu n hn).filled
  have hstanding := Declarations.standing_rename hu names
  generalize preorder unit = ns at hframed hstanding
  generalize preorder (Declarations.rename names unit) = ms at hframed hstanding ⊢
  induction hframed with
  | nil => rfl
  | cons hnm _ ih =>
    obtain ⟨hfirst, hrest⟩ := List.cons.inj hstanding
    obtain ⟨spot, named, hnm⟩ := hnm
    rw [List.any_cons, List.any_cons, ih hrest,
      isForeign_of_framed hnm (congrArg Prod.snd hfirst)]

end Framed

namespace Renamer

variable {γ : Type} {supply : Names.Supply γ} {limit : Nat} {unit : List Node}
  {s : Session (Renamer γ)} {level : Int}

theorem halts_of_served (hu : WellFormed unit) (hd : depth unit ≤ limit) (hs : s.log.Quiet)
    {d : Drawing γ} {names : List (Option Atom)}
    (hserve : (scanTerms supply unit s).serveAll (Declarations.requests unit) (scanStart s) =
      (d, names, none))
    (hnames : Declarations.Spares s.own.ignore Atom.IsText (Declarations.requests unit) names) :
    (traverse limit [visitor supply] unit s).session.log.halts level =
      (decide (level ≤ Level.debug.rank) && (preorder unit).any (isForeign s.classes) ||
        d.log.halts level) := by
  have hquiet := quiet_of_served hs hserve
  have hlegible := Declarations.legible_rename hu hnames
  have hwalk := traverse_eq (before_of_served hu hserve)
    ((Declarations.depth_rename_le hu hnames).trans hd) hlegible hquiet
  have hhalts := (marks s.classes level).halts_sweepUnit (s := (scanned s d names).settled)
    ⟨⟨rfl, hquiet⟩, rfl⟩ hlegible
  have hany : (preorder (Declarations.rename names unit)).any
      (fun n => decide (level ≤ Level.debug.rank) && isForeign s.classes n) =
        (decide (level ≤ Level.debug.rank) && (preorder unit).any (isForeign s.classes)) := by
    rw [← any_isForeign_rename hu names, List.and_any_distrib_left]
  rw [hwalk, Log.halts_add, Record.stopsAt_of_not_clashes rfl, Bool.false_or, hhalts, hany]
  rfl

end Renamer

theorem Names.Source.clashes_draw (asked : Atom) (taken : List Atom) (source : Source) :
    ∀ r ∈ (draw asked taken source).notes, r.clashes = false := by
  intro r hr
  cases source with
  | hashed h =>
    simp only [draw, Names.hashed] at hr
    split at hr
    · obtain ⟨k, -, rfl⟩ := List.mem_map.mp hr
      rfl
    · simp at hr
  | numbered last =>
    simp only [draw] at hr
    split at hr <;> simp at hr
  | listed names => cases names <;> simp [draw] at hr
  | _ => simp [draw] at hr

section Runs

variable {settings : Settings} {lead : String} {unit : List Node} {level : Int}

theorem Declarations.any_isIgnored_requests (hu : WellFormed unit) (ignore : List Atom) :
    (requests unit).any (·.isIgnored ignore) =
      (scannedItems unit).any fun e => e.2.isIn ignore := by
  obtain ⟨asked, hasked, -⟩ := exists_asked hu
  rw [scannedItems_eq hu hasked, hasked, List.any_map, List.any_map]
  rfl

theorem Declarations.scannedItems_resolution {γ : Type} (hu : WellFormed unit) (s : Session γ) :
    scannedItems (resolution unit s).1 = scannedItems unit := by
  have hwf := wellFormed_resolution hu s
  obtain ⟨asked, hasked, -⟩ := exists_asked hwf
  have hrequests : requests (resolution unit s).1 = requests unit :=
    requests_sweepUnit hu.sound _
  rw [scannedItems_eq hwf hasked, scannedItems_eq hu (hrequests.symm.trans hasked)]

theorem halts_resolution {γ : Type} (unit : List Node) (s : Session γ) (level : Int) :
    (resolution unit s).2.log.halts level =
      (decide (level ≤ Level.debug.rank) &&
          ((preorder unit).any fun n => n.classReference?.any ClassName.isRelative) ||
        s.log.halts level) := by
  rw [List.and_any_distrib_left]
  exact (Context.marks level).halts_sweepUnit (s := (s.withOwn ({} : Context)).settled) trivial
    fun n (_ : n ∈ preorder unit) => trivial

theorem Renamer.halts_alphabetic (hlead : lead = "" ∨ isIdentifier lead = true)
    (hu : WellFormed unit) {t : Session (Renamer Source)} (ht : t.log.Quiet)
    (hown : t.own = Renamer.start settings (.alphabetic lead)) (level : Int) :
    let o := traverse (depth unit) [Renamer.visitor Source.draw] unit t
    o.reply = .ok o.subject ∧ o.session.log.halts level =
      (decide (level ≤ Level.debug.rank) && (preorder unit).any (isForeign t.classes) ||
        (decide (level ≤ Level.info.rank) &&
            ((Declarations.scannedItems unit).any fun e => e.2.isIn settings.ignore) ||
          t.log.halts level)) := by
  intro o
  obtain ⟨d, names, hended, -⟩ := Renamer.exists_named_in_order hlead hu ht hown
  have hslots : ∀ q ∈ Declarations.requests unit, q.slot = none := fun q hq =>
    (Declarations.slot_of_mem_requests hu hq).1
  have hmemory : (scanStart t).memory = .alphabetic lead := by
    rw [scanStart, hown]
    rfl
  have hplain : Names.Plain Source.draw (.alphabetic lead) := Source.BuiltIn.plain trivial
  have hspares := Declarations.Terms.serveAll_spares (t := scanTerms Source.draw unit t)
    hplain.yields hmemory hslots
  rw [hended.served] at hspares
  have hscan := Declarations.Terms.halts_serveAll Source.clashes_draw hslots hended.served level
  have hignore : (scanTerms Source.draw unit t).ignore = settings.ignore := by
    rw [scanTerms, hown]
    rfl
  refine ⟨hended.reply, ?_⟩
  rw [halts_of_served hu le_rfl ht hended.served hspares, hscan, hignore,
    Declarations.any_isIgnored_requests hu]
  rfl

/-- The records of a run with alphabetic names, and that it returns if nothing is shown. -/
theorem halts_renameUnit (hgood : settings.Good lead) (hlead : settings.lead = .text lead)
    (hstrategy : settings.strategy = .text "alphabetic") (hu : WellFormed unit) {s : Session Unit}
    (hs : s.log.Quiet) (level : Int) :
    (∃ report, (renameUnit settings unit s).reply = .ok report) ∧
      (renameUnit settings unit s).session.log.halts level =
        (decide (level ≤ Level.debug.rank) && (preorder (resolution unit s).1).any
            (Renamer.isForeign (resolution unit s).2.classes) ||
          (decide (level ≤ Level.info.rank) &&
              ((Declarations.scannedItems unit).any fun e => e.2.isIn settings.ignore) ||
            (decide (level ≤ Level.debug.rank) &&
                ((preorder unit).any fun n => n.classReference?.any ClassName.isRelative) ||
              s.log.halts level))) := by
  obtain ⟨⟨strategy, hcheck⟩, hsource⟩ := hgood.alphabetic hlead hstrategy
  obtain ⟨s', hs'⟩ : ∃ s' : Session Source,
      s' = { s.withOwn (.alphabetic lead) with log := s.log.add (unitStart unit settings) } :=
    ⟨_, rfl⟩
  have hquiet : s'.log.Quiet := hs' ▸ hs.add _
  obtain ⟨nodes, hnodes⟩ : ∃ nodes, nodes = (resolution unit s').1 := ⟨_, rfl⟩
  obtain ⟨t, ht⟩ : ∃ t : Session (Renamer Source),
      t = (resolution unit s').2.withOwn (Renamer.start settings s'.own) := ⟨_, rfl⟩
  have hrun : renameUnit settings unit s =
      let o := traverse (depth nodes) [Renamer.visitor Source.draw] nodes t
      ⟨o.subject, o.session.withOwn (), o.reply.map o.session.own.report⟩ := by
    rw [renameUnit_eq hcheck hsource hu hs hs', renameResolved_def, ht, hnodes]
    rfl
  have hquiet' : t.log.Quiet := by
    rw [ht]
    exact (resolveUnit_eq hu hquiet).2.2
  have hown : t.own = Renamer.start settings (.alphabetic lead) := by
    rw [ht, hs']
    rfl
  obtain ⟨hreply, hhalts⟩ := Renamer.halts_alphabetic hgood.lead
    (hnodes ▸ wellFormed_resolution hu s') hquiet' hown level
  -- The log has no part in what the class context comes to.
  have hclasses : t.classes = (resolution unit s).2.classes := by
    rw [ht, classes_resolution]
    exact (classes_resolution unit s').trans (by rw [hs']; rfl)
  have hlog : t.log.halts level = (decide (level ≤ Level.debug.rank) &&
      ((preorder unit).any fun n => n.classReference?.any ClassName.isRelative) ||
        s.log.halts level) := by
    rw [ht]
    refine (halts_resolution unit s' level).trans ?_
    rw [hs', Log.halts_add, Record.stopsAt_of_not_clashes rfl, Bool.false_or]
  have hitems : Declarations.scannedItems nodes = Declarations.scannedItems unit :=
    hnodes ▸ Declarations.scannedItems_resolution hu s'
  rw [hrun]
  refine ⟨⟨_, by dsimp only; rw [hreply]; rfl⟩, hhalts.trans ?_⟩
  rw [hclasses, hlog, hitems, hnodes, nodes_resolution unit s' s]

theorem Renamer.isForeign_iff {table : ClassTable} {n : Node} (hn : n.Sound) :
    isForeign table n = true ↔ n.isLiteralFetch = true ∧ table.isLocal n = .ok false := by
  rw [table.isLocal_eq hn, isForeign]
  cases table.finds n <;> simp

theorem Renamer.exists_isForeign_iff {nodes : List Node} (hnodes : WellFormed nodes)
    (table : ClassTable) :
    (∃ n ∈ preorder nodes, isForeign table n = true) ↔
      ∃ n ∈ preorder nodes, n.isLiteralFetch = true ∧ table.isLocal n = .ok false :=
  exists_congr fun _ => and_congr_right fun hn => isForeign_iff (hnodes.sound _ hn)

/-- The class context takes nothing from the log. -/
theorem classes_resolution_heardFrom (unit : List Node) (s : Session Unit) (level : Int) :
    (resolution unit (s.heardFrom level)).2.classes = (resolution unit s).2.classes := by
  rw [classes_resolution, classes_resolution]
  rfl

theorem resolveUnit_heardFrom (hu : WellFormed unit) (s : Session Unit)
    (hlevel : Level.info.rank < level) :
    (resolveUnit unit (s.heardFrom level)).reply = .ok (resolution unit s).1 ∧
      (resolveUnit unit (s.heardFrom level)).session.classes = (resolution unit s).2.classes := by
  have hquiet : (s.heardFrom level).log.Quiet := hlevel
  rw [(resolveUnit_eq hu hquiet).1, ← nodes_resolution unit (s.heardFrom level) s,
    ← classes_resolution_heardFrom unit s level]
  exact ⟨rfl, rfl⟩

theorem stoppedAt_renameUnit_iff (hgood : settings.Good lead) (hlead : settings.lead = .text lead)
    (hstrategy : settings.strategy = .text "alphabetic") (hu : WellFormed unit) (s : Session Unit)
    (level : Int) :
    StoppedAt (fun level => renameUnit settings unit (s.heardFrom level)) level ↔
      level ≤ Level.debug.rank ∧ (∃ n ∈ preorder unit, ∃ name, n.classReference? = some name ∧
          ClassName.isRelative name = true) ∨
        level ≤ Level.info.rank ∧
          (∃ e ∈ Declarations.scannedItems unit, e.2.isIn settings.ignore = true) ∨
        level ≤ Level.debug.rank ∧ ∃ n ∈ preorder (resolution unit s).1,
          Renamer.isForeign (resolution unit s).2.classes n = true := by
  -- The records are read off the run that shows none: it writes all of them.
  have hquiet : (s.heardFrom silentLevel).log.Quiet := show Level.info.rank < silentLevel by decide
  have hempty : (s.heardFrom silentLevel).log.halts level = false := rfl
  rw [stoppedAt_iff_halts, (halts_renameUnit hgood hlead hstrategy hu hquiet level).2, hempty,
    classes_resolution_heardFrom, nodes_resolution unit (s.heardFrom silentLevel) s]
  simp only [Bool.or_false, Bool.or_eq_true, Bool.and_eq_true, decide_eq_true_eq,
    List.any_eq_true, Option.any_eq_true]
  exact or_rotate.trans or_left_comm

/-- A run with alphabetic names returns if nothing below a warning is shown. At any level it is
stopped just if a class is referred to by a name that is to be looked up, or if an item is ignored,
or if a fetch by name is not local, and that is shown; if not, nothing differs. -/
theorem renameUnit_stopped_iff (hgood : settings.Good lead) (hlead : settings.lead = .text lead)
    (hstrategy : settings.strategy = .text "alphabetic") (hu : WellFormed unit) (s : Session Unit)
    (level : Int) :
    let run := fun level => renameUnit settings unit (s.heardFrom level)
    let resolved := resolveUnit unit (s.heardFrom Level.warning.rank)
    (∃ report, (run Level.warning.rank).reply = .ok report) ∧
      ((run level).reply = .error stopFault ↔
        level ≤ 10 ∧ (∃ n ∈ preorder unit, ∃ name, n.classReference? = some name ∧
            ClassName.isSpecial name = false ∧ ClassName.isFullyQualified name = false) ∨
          level ≤ 20 ∧ (∃ e ∈ Declarations.scannedItems unit, e.2.isIn settings.ignore = true) ∨
          level ≤ 10 ∧ ∃ nodes, resolved.reply = .ok nodes ∧ ∃ n ∈ preorder nodes,
            n.isLiteralFetch = true ∧ resolved.session.classes.isLocal n = .ok false) ∧
      ((run level).reply ≠ .error stopFault → (run level).Agrees (run Level.warning.rank)) := by
  intro run resolved
  have hstops := stoppedAt_renameUnit_iff hgood hlead hstrategy hu s
  have heffect : LevelEffect run :=
    (stoppable_renameUnit settings unit (s.heardFrom silentLevel)).levelEffect
  have hwarning : ¬ StoppedAt run Level.warning.rank := by
    rw [hstops]
    simp [Level.rank]
  have hsilent : ¬ StoppedAt run silentLevel := by
    rw [hstops]
    simp [Level.rank, silentLevel]
  obtain ⟨report, hreport⟩ := (halts_renameUnit hgood hlead hstrategy hu
    (s := s.heardFrom silentLevel) (show Level.info.rank < silentLevel by decide) level).1
  have hagrees := (heffect.agrees Level.warning.rank silentLevel).mpr (Or.inl ⟨hwarning, hsilent⟩)
  refine ⟨⟨report, hagrees.2.trans hreport⟩, ?_, fun hne => ?_⟩
  · have hquiet : Level.info.rank < Level.warning.rank := by decide
    obtain ⟨hreply, htable⟩ := resolveUnit_heardFrom hu s hquiet
    rw [heffect.fault, hstops, show resolved.reply = _ from hreply,
      show resolved.session.classes = _ from htable,
      Renamer.exists_isForeign_iff (wellFormed_resolution hu s)]
    simp only [ClassName.isRelative, Bool.and_eq_true, Bool.not_eq_true', Level.rank,
      Except.ok.injEq, exists_eq_left']
  · have hlevel : ¬ StoppedAt run level := fun h => hne ((heffect.fault level).mpr h)
    exact (heffect.agrees level Level.warning.rank).mpr (Or.inl ⟨hlevel, hwarning⟩)

/-- A private item called `x` that is ignored stops the run at the level of its record, and at the
next one it does not. -/
theorem renameUnit_stopped_iff_sample :
    Settings.Good { ignore := [.text "x"] } "" ∧ WellFormed sampleUnit ∧
      (renameUnit { ignore := [.text "x"] } sampleUnit (sampleSession.heardFrom 20)).reply =
        .error stopFault ∧
      (renameUnit { ignore := [.text "x"] } sampleUnit (sampleSession.heardFrom 21)).Agrees
        (renameUnit { ignore := [.text "x"] } sampleUnit
          (sampleSession.heardFrom Level.warning.rank)) := by
  have hgood : Settings.Good { ignore := [.text "x"] } "" :=
    ⟨Or.inl rfl, Or.inl rfl, by decide, by decide⟩
  have hitem : ∃ e ∈ Declarations.scannedItems sampleUnit, e.2.isIn [.text "x"] = true :=
    ⟨(0, .text "x"), by decide, by decide⟩
  have hstops := renameUnit_stopped_iff hgood rfl rfl wellFormed_sampleUnit sampleSession
  refine ⟨hgood, wellFormed_sampleUnit, ?_, ?_⟩
  · exact (hstops 20).2.1.mpr (Or.inr (Or.inl ⟨le_rfl, hitem⟩))
  · apply (hstops 21).2.2
    intro hreply
    have hlevel := (hstops 21).2.1.mp hreply
    omega

end Runs

end PropertyRenaming
