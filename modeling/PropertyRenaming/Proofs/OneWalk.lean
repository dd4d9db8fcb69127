import PropertyRenaming.Proofs.FusedSweep
import PropertyRenaming.Proofs.Reuse
import PropertyRenaming.Tree.Decidable

namespace PropertyRenaming

open List (Forall₂)
open Context (Calm)
open Declarations (Spares)
open Names (Source)

def Atom.IsText (a : Atom) : Prop := ∃ t, a = .text t

/-- A supply that keeps its memory, hands out texts and has nothing to warn of. -/
structure Names.Plain {γ : Type} (supply : Names.Supply γ) (memory : γ) : Prop where
  hushed : Names.Hushed supply
  stays (asked : Atom) (taken : List Atom) : (supply asked taken memory).memory = memory
  text {asked : Atom} {taken : List Atom} {new : Atom} :
    (supply asked taken memory).name = .ok new → new.IsText

theorem Names.Plain.yields {γ : Type} {supply : Names.Supply γ} {memory : γ}
    (h : Names.Plain supply memory) : Names.Yields supply (· = memory) Atom.IsText := by
  rintro asked taken _ rfl
  exact ⟨h.stays asked taken, fun _ => h.text⟩

section Scans

variable {γ : Type} {supply : Names.Supply γ}

theorem Declarations.Drawing.finalNames_congr {d d' : Declarations.Drawing γ}
    (h : d'.given = d.given) (qs : List Request) (names : List (Option Atom)) :
    d'.finalNames qs names = d.finalNames qs names := by
  induction qs generalizing names with
  | nil => rfl
  | cons q qs ih => simp only [finalNames, given?, h, ih]

/-- The scan of a unit, and the scan once its class context has been worked out: the same names are
drawn, or there is the same fault. -/
theorem Renamer.before_resolution {unit : List Node} (hu : WellFormed unit)
    {s : Session (Renamer γ)} (hs : s.log.Quiet) (hsupply : Names.Plain supply s.own.memory)
    (hscope : s.own.map.perClass = true → (resolution unit s).2.classes = s.classes) :
    let nodes := (resolution unit s).1
    let t := (resolution unit s).2.withOwn s.own
    (∃ e, (before supply unit s).reply = .error e ∧ (before supply nodes t).reply = .error e ∧
        ∃ asked taken, (supply asked taken s.own.memory).name = .error e) ∨
      ∃ names r log log', Spares s.own.ignore Atom.IsText (Declarations.requests unit) names ∧
        log.Quiet ∧ log'.Quiet ∧
        before supply unit s =
          Session.done ⟨log, s.classes, s.shares, r⟩ (Declarations.rename names unit) .keep ∧
        before supply nodes t =
          Session.done ⟨log', t.classes, t.shares, r⟩ (Declarations.rename names nodes) .keep := by
  intro nodes t
  have hwf : WellFormed nodes := wellFormed_resolution hu s
  obtain ⟨-, hcalm⟩ := resolveUnit_eq hu hs
  have hrequests : Declarations.requests nodes = Declarations.requests unit :=
    Declarations.requests_sweepUnit hu.sound _
  have hterms : scanTerms supply nodes t =
      { scanTerms supply unit s with scope := t.classes.scope } := by
    rw [scanTerms, propertyNames_resolution hu s]
    rfl
  have halike : (scanStart s).Alike (scanStart t) := ⟨rfl, rfl, rfl, hs, hcalm.2⟩
  have hscopes : (scanStart s).map.perClass = true →
      t.classes.scope = (scanTerms supply unit s).scope := fun hp =>
    congrArg ClassTable.scope (hscope hp)
  obtain ⟨hsame, hboth⟩ := Declarations.Terms.serveAll_alike (t := scanTerms supply unit s)
    hsupply.hushed halike hscopes (Declarations.requests unit)
  have hslots : ∀ q ∈ Declarations.requests unit, q.slot = none := fun q hq =>
    (Declarations.slot_of_mem_requests hu hq).1
  have hspares := Declarations.Terms.serveAll_spares (t := scanTerms supply unit s)
    (d := scanStart s) hsupply.yields rfl hslots
  have hfault := fun e => Declarations.Terms.serveAll_fault (t := scanTerms supply unit s)
    (d := scanStart s) (e := e) hsupply.hushed hsupply.stays hs
    fun q hq => (Declarations.slot_of_mem_requests hu hq).2
  rw [before_eq_drawn hu, before_eq_drawn hwf, hterms, hrequests]
  generalize (scanTerms supply unit s).serveAll (Declarations.requests unit) (scanStart s) = o
    at hsame hboth hspares hfault ⊢
  generalize Declarations.Terms.serveAll { scanTerms supply unit s with scope := t.classes.scope }
    (Declarations.requests unit) (scanStart t) = o' at hsame hboth ⊢
  obtain ⟨d, names, fault⟩ := o
  obtain ⟨d', names', fault'⟩ := o'
  obtain ⟨rfl, rfl⟩ := Prod.mk.inj hsame
  cases fault' with
  | some e => exact Or.inl ⟨e, rfl, rfl, hfault e rfl⟩
  | none =>
    change d.Alike d' at hboth
    refine Or.inr ⟨_, _, _, _, Declarations.Drawing.finalNames_spares hslots hspares,
      hboth.quiet, hboth.quiet', rfl, ?_⟩
    simp only [drawn, hrequests, hboth.memory, hboth.map,
      Declarations.Drawing.finalNames_congr hboth.given]
    rfl

end Scans

section Walks

variable {γ : Type} {supply : Names.Supply γ} {limit : Nat} {unit unit' : List Node}

namespace Both

/-- The scan in a walk of both visitors. There is no class context yet. -/
theorem callUnitHooks_before (unit : List Node) (u : Session (Context × Renamer γ)) :
    callUnitHooks .before Visitor.before [contextVisitor, renamerVisitor supply] ⟨unit, none⟩ u =
      callUnitHooks .before Visitor.before [renamerVisitor supply] ⟨unit, none⟩
        (u.withOwn ({}, u.own.2)) :=
  rfl

theorem renamerVisitor_before (unit : List Node) (u : Session (Context × Renamer γ)) :
    (renamerVisitor supply).before unit u =
      let o := Renamer.before supply unit u.right
      ⟨o.subject, o.session.withOwn (u.own.1, o.session.own), o.reply⟩ :=
  rfl

theorem callUnitHooks_after {u : Session (Context × Renamer γ)} (hu : u.log.Quiet)
    (nodes : List Node) :
    callUnitHooks .after Visitor.after [contextVisitor, renamerVisitor supply] ⟨nodes, some nodes⟩
        u =
      Session.done { u with log := u.log.add u.own.2.summary } ⟨nodes, some nodes⟩ () := by
  have hafter : (renamerVisitor supply).after nodes u =
      let o := Renamer.after nodes u.right
      ⟨o.subject, o.session.withOwn (u.own.1, o.session.own), o.reply⟩ := rfl
  change callUnitHooks .after Visitor.after [renamerVisitor supply] ⟨nodes, some nodes⟩ u = _
  rw [Renamer.after_eq (s := u.right) hu] at hafter
  simp only [callUnitHooks, hafter]
  rfl

theorem traverse_eq {u : Session (Context × Renamer γ)} {t : Session (Renamer γ)}
    (hbefore : Renamer.before supply unit u.right = t.done unit' .keep)
    (hd : depth unit' ≤ limit) (hu : WellFormed unit') (ht : t.log.Quiet) :
    ∃ log, traverse limit [contextVisitor, renamerVisitor supply] unit u =
      let o := sweepUnit bothSweep (t.withOwn (({} : Context), t.own)).settled unit'
      ⟨o.1, { o.2 with log }, .ok o.1⟩ := by
  have hcalm : Calm (t.withOwn (({} : Context), t.own)).settled := ⟨rfl, ht⟩
  have hquiet := ((Both.describes supply).walkUnit hd hu.sound hcalm).2.2
  have hscan : callUnitHooks .before Visitor.before [contextVisitor, renamerVisitor supply]
      ⟨unit, none⟩ u = (t.withOwn (({} : Context), t.own)).done ⟨unit', none⟩ () := by
    rw [callUnitHooks_before]
    simp only [callUnitHooks, renamerVisitor_before]
    rw [show (u.withOwn (({} : Context), u.own.2)).right = u.right from rfl, hbefore]
    rfl
  exact ⟨_, (Both.describes supply).traverseAll hscan hd hu.sound hcalm rfl
    (callUnitHooks_after hquiet _)⟩

theorem traverse_of_before_error {u : Session (Context × Renamer γ)} {e : Fault}
    (h : (Renamer.before supply unit u.right).reply = .error e) (limit : Nat) :
    (traverse limit [contextVisitor, renamerVisitor supply] unit u).reply = .error e := by
  apply traverse_of_hooks_error
  rw [callUnitHooks_before]
  simp only [callUnitHooks, renamerVisitor_before]
  rw [show (u.withOwn (({} : Context), u.own.2)).right = u.right from rfl, h]
  rfl

end Both

section Rename

variable {σ : Type} {s : Session σ} {ignore : List Atom} {names : List (Option Atom)}
  (hu : WellFormed unit) (hspares : Spares ignore Atom.IsText (Declarations.requests unit) names)

include hu hspares

theorem spares_resolution : Spares ignore Atom.IsText
    (Declarations.requests (resolution unit s).1) names := by
  rwa [resolution, Declarations.requests_sweepUnit hu.sound]

/-- The fused sweep of one walk and the second sweep of two walks, once names have been put back. -/
theorem sweepUnit_both_rename (hnum : Numbered unit s.classes)
    {u : Session (Context × Renamer γ)} {t : Session (Renamer γ)} (hown : u.own = ({}, t.own))
    (hclasses : u.classes = s.classes) (htable : t.classes = (resolution unit s).2.classes) :
    let one := sweepUnit bothSweep u (Declarations.rename names unit)
    let two := sweepUnit Renamer.sweep t (Declarations.rename names (resolution unit s).1)
    one.1 = two.1 ∧ one.2.own = ((resolution unit s).2.own, two.2.own) ∧
      one.2.classes = two.2.classes := by
  have hwf := Declarations.wellFormed_rename hu hspares fun _ => id
  -- Names may be put back before the class context is worked out or after it.
  have hres := Declarations.resolution_rename hu names s
  have hearly : s.classes.Knows (preorder (Declarations.rename names unit)) :=
    Declarations.knows_rename hu hspares fun _ hn _ hk => hnum.known hn hk
  have hlate : t.classes.Knows (preorder (resolution (Declarations.rename names unit) s).1) := by
    rw [hres, htable]
    exact Declarations.knows_rename (wellFormed_resolution hu s) (spares_resolution hu hspares)
      fun _ hn _ hk => (hnum.resolution hu).known hn hk
  have htable' : t.classes = (resolution (Declarations.rename names unit) s).2.classes := by
    rw [hres, htable]
  have hboth := sweepUnit_both hwf.sound (s := (s.withOwn ({} : Context)).settled) hown hclasses
    htable' rfl hearly hlate
  rwa [show sweepUnit Context.sweep (s.withOwn ({} : Context)).settled
    (Declarations.rename names unit) = _ from hres] at hboth

end Rename

theorem traverse_both (hu : WellFormed unit) (hd : depth unit ≤ limit)
    {u : Session (Context × Renamer γ)} (hs : u.log.Quiet) (hnum : Numbered unit u.classes)
    (hsupply : Names.Plain supply u.own.2.memory)
    (hscope : u.own.2.map.perClass = true → (resolution unit u).2.classes = u.classes) :
    let one := traverse limit [contextVisitor, renamerVisitor supply] unit u
    let two := traverse limit [Renamer.visitor supply] (resolution unit u).1
      ((resolution unit u).2.withOwn u.own.2)
    (∃ e, one.reply = .error e ∧ two.reply = .error e ∧
        ∃ asked taken, (supply asked taken u.own.2.memory).name = .error e) ∨
      ∃ nodes, one.reply = .ok nodes ∧ two.reply = .ok nodes ∧ one.subject = nodes ∧
        two.subject = nodes ∧ one.session.own = ((resolution unit u).2.own, two.session.own) ∧
        one.session.classes = two.session.classes := by
  intro one two
  rcases Renamer.before_resolution hu (s := u.right) hs hsupply hscope with
    ⟨e, he, he', hname⟩ | ⟨names, r, log, log', hspares, hquiet, hquiet', hfirst, hsecond⟩
  · exact Or.inl ⟨e, Both.traverse_of_before_error he limit,
      traverse_of_before_error (v := Renamer.visitor supply) he' limit [], hname⟩
  · have hres : WellFormed (resolution unit u).1 := wellFormed_resolution hu u
    have hspares' := spares_resolution (s := u) hu hspares
    have hdepth := (Declarations.depth_rename_le hu hspares).trans hd
    have hdepth' := (Declarations.depth_rename_le hres hspares').trans
      ((depth_resolution_le hu u).trans hd)
    obtain ⟨log₁, hone⟩ := Both.traverse_eq hfirst hdepth
      (Declarations.wellFormed_rename hu hspares fun _ => id) hquiet
    have htwo := Renamer.traverse_eq hsecond hdepth'
      (Declarations.wellFormed_rename hres hspares' fun _ => id).legible hquiet'
    obtain ⟨hsame, hown, hclasses⟩ := sweepUnit_both_rename hu hspares hnum
      (u := (Session.mk log u.classes u.shares (({} : Context), r)).settled)
      (t := (Session.mk log' (resolution unit u).2.classes (resolution unit u).2.shares r).settled)
      rfl rfl rfl
    refine Or.inr ⟨_, congrArg Outcome.reply hone, ?_, congrArg Outcome.subject hone, ?_, ?_, ?_⟩
    · exact (congrArg Outcome.reply htwo).trans (congrArg Except.ok hsame.symm)
    · exact (congrArg Outcome.subject htwo).trans hsame.symm
    · rw [show two = _ from htwo, show one = _ from hone]
      exact hown
    · rw [show two = _ from htwo, show one = _ from hone]
      exact hclasses

end Walks

section Prequalified

/-- Each class that has a name has its qualified name already, the one that the namespace in force
at the class asks for. -/
def Prequalified (unit : List Node) : Prop :=
  ∀ visit ∈ visits unit, visit.site.node.kind.classId?.isSome = true →
    ∀ name ∈ (visit.site.node.get .name).str?,
      visit.site.node.get .qualifiedName = .str (ClassName.qualify (nsAfter visit.past) name)

instance (unit : List Node) : Decidable (Prequalified unit) :=
  inferInstanceAs (Decidable (∀ visit ∈ visits unit, _ → ∀ name ∈ _, _))

theorem ClassTable.setNames_of_known {t : ClassTable} {es : List (ClassId × Value)}
    (h : ∀ e ∈ es, t.names[e.1]? = some e.2) : t.setNames es = t := by
  induction es with
  | nil => rfl
  | cons e es ih =>
    rw [List.forall_mem_cons] at h
    obtain ⟨hlt, hname⟩ := List.getElem?_eq_some_iff.mp h.1
    have hset : t.setName e.1 e.2 = t := by
      obtain ⟨names⟩ := t
      simp only [setName, ← hname, List.set_getElem_self]
    change (t.setName e.1 e.2).setNames es = t
    rw [hset, ih h.2]

theorem Prequalified.classes_resolution {γ : Type} {unit : List Node} (h : Prequalified unit)
    (hu : WellFormed unit) {s : Session γ} (hnum : Numbered unit s.classes) :
    (resolution unit s).2.classes = s.classes := by
  rw [PropertyRenaming.classes_resolution, namings_turns]
  refine ClassTable.setNames_of_known fun e he => ?_
  obtain ⟨visit, hv, hnaming⟩ := List.mem_filterMap.mp he
  have hmem := site_node_mem_preorder hv
  have hk := kind_of_naming? hu hv hnaming
  have hname := (hu _ hmem).admits .name
  rw [hk] at hname
  rw [hnum.known hmem hk]
  rcases Content.admits_optionalText_iff.mp hname with hnull | ⟨name, hname⟩
  · simp [Visit.naming?, Context.naming?, hk, hnull, Value.isNull] at hnaming
  · have he : (e.1, Context.qualified (contextOf visit.past).ns (.str name)) = e := by
      simpa [Visit.naming?, Context.naming?, hk, hname, Value.isNull] using hnaming
    rw [h visit hv (by rw [hk]; rfl) name (by rw [hname]; rfl), ← congrArg Prod.snd he,
      Context.qualified_str, (hu.contextOf_past hv).1]

end Prequalified

section Sources

theorem Names.hushed_draw : Names.Hushed Source.draw := by
  intro asked taken source r hr
  cases source with
  | hashed h =>
    simp only [Source.draw, Names.hashed] at hr
    split at hr
    · obtain ⟨k, -, rfl⟩ := List.mem_map.mp hr
      simp [Names.collision]
    · simp at hr
  | numbered last =>
    simp only [Source.draw] at hr
    split at hr <;> simp at hr
  | listed names => cases names <;> simp [Source.draw] at hr
  | _ => simp [Source.draw] at hr

theorem Names.isText_of_checked {name : String} {new : Atom} (h : Names.checked name = .ok new) :
    new.IsText := by
  unfold Names.checked at h
  split at h
  · exact ⟨name, (Except.ok.inj h).symm⟩
  · cases h

theorem Names.Source.BuiltIn.plain {source : Source} (h : source.BuiltIn) :
    Names.Plain Source.draw source where
  hushed := Names.hushed_draw
  stays := h.memory_draw
  text {asked taken new} hnew := by
    cases source with
    | alphabetic lead =>
      simp only [Source.draw, Names.alphabetic] at hnew
      split at hnew
      · exact Names.isText_of_checked hnew
      · cases hnew
    | hashed hashing =>
      simp only [Source.draw, Names.hashed] at hnew
      split at hnew
      · exact Names.isText_of_checked hnew
      · cases hnew
    | _ => exact h.elim

end Sources

namespace Bench

variable {i j : Nat} {c : Context} {r : Renamer Source} {s : Session Bench}

/-- The class context and the renames in one walk, by two visitors of a bench. -/
def onePass (limit i j : Nat) (unit : List Node) (s : Session Bench) :
    Outcome Bench (List Node) Report :=
  let o := PropertyRenaming.traverse limit [s.own.visitor i, s.own.visitor j] unit s
  ⟨o.subject, o.session, o.reply.map (o.session.own.renamer j).report⟩

/-- A bench whose visitors for the class context and for renames have other states. -/
def putBoth (i j : Nat) (b : Bench) (p : Context × Renamer Source) : Bench :=
  put j (.renamer p.2) (put i (.context p.1) b)

section Both

variable {b : Bench} (hi : b.actors[i]? = some (.context c))
  (hj : b.actors[j]? = some (.renamer r)) (hij : i ≠ j)

include hij

include hi in
theorem context_putBoth (p : Context × Renamer Source) : (putBoth i j b p).context i = p.1 := by
  rw [putBoth, context, getElem?_put_of_ne hij.symm, getElem?_put_self hi]

include hj in
theorem renamer_putBoth (p : Context × Renamer Source) : (putBoth i j b p).renamer j = p.2 :=
  renamer_put ((getElem?_put_of_ne hij _ b).trans hj) p.2

theorem put_context_putBoth (c : Context) (p : Context × Renamer Source) :
    put i (.context c) (putBoth i j b p) = putBoth i j b (c, p.2) := by
  rw [putBoth, put_comm hij, put_put, putBoth]

omit hij in
theorem put_renamer_putBoth (r : Renamer Source) (p : Context × Renamer Source) :
    put j (.renamer r) (putBoth i j b p) = putBoth i j b (p.1, r) := by
  rw [putBoth, put_put, putBoth]

include hi hj in
theorem inStep_visitors : Forall₂ (Visitor.InStep fun p b' => b' = putBoth i j b p)
    [contextVisitor, renamerVisitor Source.draw] [b.visitor i, b.visitor j] := by
  rw [Bench.visitor, hi, Bench.visitor, hj]
  refine .cons (inStep_focuses ?_ ?_ _) (.cons (inStep_focuses ?_ ?_ _) .nil)
  · rintro p _ rfl
    exact context_putBoth hi hij p
  · rintro c p _ rfl
    exact put_context_putBoth hij c p
  · rintro p _ rfl
    exact renamer_putBoth hj hij p
  · rintro r p _ rfl
    exact put_renamer_putBoth r p

end Both

/-- One pass by two visitors, told by the walk of these two alone. -/
theorem onePass_eq (hi : s.own.actors[i]? = some (.context c))
    (hj : s.own.actors[j]? = some (.renamer r)) (limit : Nat) (unit : List Node) :
    onePass limit i j unit s =
      let o := PropertyRenaming.traverse limit [contextVisitor, renamerVisitor Source.draw] unit
        (s.withOwn (c, r))
      ⟨o.subject, o.session.withOwn (putBoth i j s.own o.session.own),
        o.reply.map o.session.own.2.report⟩ := by
  have hij : i ≠ j := by
    rintro rfl
    simp [hi] at hj
  have hown : s.own = putBoth i j s.own (c, r) := by
    rw [putBoth, put_of_getElem? hi, put_of_getElem? hj]
  unfold onePass
  rw [traverse_of_inStep (inStep_visitors hi hj hij) hown]
  simp only [Session.withOwn, renamer_putBoth hj hij]

/-- One walk for the class context and the renames does what two walks do, one for each. -/
theorem onePass_eq_twoPasses {limit : Nat} {unit : List Node} (hu : WellFormed unit)
    (hd : depth unit ≤ limit) {s : Session Bench} (hs : s.log.Quiet)
    (hnum : Numbered unit s.classes) {i j : Nat} {c : Context} {r : Renamer Source}
    (hi : s.own.actors[i]? = some (.context c)) (hj : s.own.actors[j]? = some (.renamer r))
    (hr : r.memory.BuiltIn) (hscope : r.map.perClass = true → Prequalified unit) :
    let one := onePass limit i j unit s
    let two := twoPasses limit i j unit s
    one.reply = two.reply ∧
      (∀ report, one.reply = .ok report → one.subject = report.nodes ∧ two.subject = report.nodes ∧
        one.session.own = two.session.own ∧ one.session.classes = two.session.classes) ∧
      ∀ e, one.reply = .error e →
        ∃ asked taken, (Source.draw asked taken r.memory).name = .error e := by
  intro one two
  obtain ⟨o, ho⟩ : ∃ o, o = PropertyRenaming.traverse limit
      [contextVisitor, renamerVisitor Source.draw] unit (s.withOwn (c, r)) := ⟨_, rfl⟩
  obtain ⟨p, hp⟩ : ∃ p, p = PropertyRenaming.traverse limit [Renamer.visitor Source.draw]
      (resolution unit s).1 ((resolution unit s).2.withOwn r) := ⟨_, rfl⟩
  have hone : one = ⟨o.subject, o.session.withOwn (putBoth i j s.own o.session.own),
      o.reply.map o.session.own.2.report⟩ := ho ▸ onePass_eq hi hj limit unit
  have htwo : two = ⟨p.subject, p.session.withOwn
      (putBoth i j s.own ((resolution unit s).2.own, p.session.own)),
      p.reply.map p.session.own.report⟩ := by
    rw [show two = _ from twoPasses_eq hi hj limit unit,
      traverse_visitor_eq hu hd (s := s.withOwn {}) hs, hp]
    rfl
  have hboth : (∃ e, o.reply = .error e ∧ p.reply = .error e ∧
        ∃ asked taken, (Source.draw asked taken r.memory).name = .error e) ∨
      ∃ nodes, o.reply = .ok nodes ∧ p.reply = .ok nodes ∧ o.subject = nodes ∧
        p.subject = nodes ∧ o.session.own = ((resolution unit s).2.own, p.session.own) ∧
        o.session.classes = p.session.classes := by
    rw [ho, hp]
    exact traverse_both hu hd (u := s.withOwn (c, r)) hs hnum hr.plain
      fun hp => (hscope hp).classes_resolution hu hnum
  rw [hone, htwo]
  rcases hboth with ⟨e, ho', hp', hname⟩ |
    ⟨nodes, ho', hp', hsubject, hsubject', hown, hclasses⟩
  · simp only [ho', hp', Except.map]
    exact ⟨trivial, nofun, fun e' he => Except.error.inj he ▸ hname⟩
  · simp only [ho', hp', Except.map, hown]
    refine ⟨trivial, fun report hreport => ?_, nofun⟩
    obtain rfl := Except.ok.inj hreport
    exact ⟨hsubject, hsubject', rfl, hclasses⟩

section Sample

def flatSession : Session Bench :=
  sampleSession.withOwn
    { actors := [.context {}, .renamer { memory := .alphabetic "", ignore := [.text "y"] }] }

/-- A class in a namespace, with its qualified name in place, that is fetched from by its short name
and by the word for itself. -/
def qualifiedUnit : List Node :=
  [⟨.namespaceBlock, {}, [.str "App", .list
      [.node ⟨.classDecl 0, {}, [.str "Point", .list
        [.node ⟨.propertyDecl, {}, [.int 4, .list [sampleItem "x", sampleItem "y"]]⟩,
          sampleFetch "this" "x", sampleStatic "Point" "x", sampleStatic "self" "y",
          sampleStatic "Other" "x"], .null, .str "App\\Point"]⟩]]⟩]

def scopedSession : Session Bench := { classes := ⟨[.str "App\\Point"]⟩, own := sampleBench }

theorem onePass_eq_twoPasses_samples :
    (WellFormed sampleUnit ∧ depth sampleUnit ≤ 9 ∧ flatSession.log.Quiet ∧
      Numbered sampleUnit flatSession.classes ∧ (flatSession.own.renamer 1).memory.BuiltIn ∧
      (flatSession.own.renamer 1).map.perClass = false ∧
      (onePass 9 0 1 sampleUnit flatSession).reply.isOk = true ∧
      (onePass 9 0 1 sampleUnit flatSession).reply =
        (twoPasses 9 0 1 sampleUnit flatSession).reply) ∧
    WellFormed qualifiedUnit ∧ depth qualifiedUnit ≤ 9 ∧ scopedSession.log.Quiet ∧
      Numbered qualifiedUnit scopedSession.classes ∧ sampleRenamer.memory.BuiltIn ∧
      sampleRenamer.map.perClass = true ∧ Prequalified qualifiedUnit ∧
      (onePass 9 0 1 qualifiedUnit scopedSession).reply.isOk = true ∧
      (onePass 9 0 1 qualifiedUnit scopedSession).reply =
        (twoPasses 9 0 1 qualifiedUnit scopedSession).reply := by
  have hd : depth sampleUnit ≤ 9 := by decide
  have hrenumber : Value.renumberAll {} (sampleUnit.map .node) =
      (sampleUnit.map .node, flatSession.classes) := rfl
  have hnumbered := numbered_renumberAll hrenumber
  have hu' : WellFormed qualifiedUnit := by decide
  have hd' : depth qualifiedUnit ≤ 9 := by decide
  have hrenumber' : Value.renumberAll {} (qualifiedUnit.map .node) =
      (qualifiedUnit.map .node, scopedSession.classes) := rfl
  have hnumbered' := numbered_renumberAll hrenumber'
  have hqualified : Prequalified qualifiedUnit := by decide +kernel
  have hflat := onePass_eq_twoPasses wellFormed_sampleUnit hd (s := flatSession) (by decide)
    hnumbered (i := 0) (j := 1) rfl rfl trivial nofun
  have hscoped := onePass_eq_twoPasses hu' hd' (s := scopedSession) (by decide) hnumbered'
    (i := 0) (j := 1) rfl rfl trivial fun _ => hqualified
  exact ⟨⟨wellFormed_sampleUnit, hd, by decide, hnumbered, trivial, rfl, by decide +kernel,
    hflat.1⟩, hu', hd', by decide, hnumbered', trivial, rfl, hqualified, by decide +kernel,
    hscoped.1⟩

/-- Without its qualified name in place, a class is scanned under its number in one walk and under
its name in two. -/
example : ((onePass 9 0 1 sampleUnit (sampleSession.withOwn sampleBench)).reply.map
    fun report => report.mapping.map Prod.fst) ≠
      (twoPasses 9 0 1 sampleUnit (sampleSession.withOwn sampleBench)).reply.map
        fun report => report.mapping.map Prod.fst := by
  decide +kernel

end Sample

end Bench

end PropertyRenaming
