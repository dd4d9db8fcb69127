import PropertyRenaming.Bench
import PropertyRenaming.Proofs.Fetches
import PropertyRenaming.Proofs.Parallel
import PropertyRenaming.Proofs.Serving
import PropertyRenaming.Proofs.Substitution
import PropertyRenaming.Proofs.VisitorLevels

namespace PropertyRenaming

open Names (Source)

/-- The supplies that settings can ask for. -/
def Names.Source.BuiltIn : Source → Prop
  | alphabetic _ | hashed _ => True
  | _ => False

theorem Names.Source.BuiltIn.memory_draw {source : Source} (h : source.BuiltIn) (asked : Atom)
    (taken : List Atom) : (Source.draw asked taken source).memory = source := by
  cases source with
  | alphabetic lead => rfl
  | hashed hashing => rfl
  | _ => exact h.elim

namespace Renamer

variable {γ : Type}

/-- Renamers that have been set up in the same way. -/
structure Alike (r r' : Renamer γ) : Prop where
  memory : r'.memory = r.memory
  ignore : r'.ignore = r.ignore
  perClass : r'.map.perClass = r.map.perClass

/-- A renamer as it was before its first unit. -/
def asNew (r : Renamer γ) : Renamer γ :=
  { memory := r.memory, map := { perClass := r.map.perClass }, ignore := r.ignore }

theorem preserves_before {supply : Names.Supply γ} {r : Renamer γ}
    (hsupply : ∀ asked taken, (supply asked taken r.memory).memory = r.memory)
    (unit : List Node) : Preserves r.Alike (before supply unit) := by
  intro s hs
  cases hreserved : reservedNames unit with
  | error e =>
    simp only [before, hreserved]
    exact ⟨hs.memory, hs.ignore, hs.perClass⟩
  | ok reserved =>
    have hgrows := Declarations.Terms.serveAll_grows
      { supply, reserved, ignore := s.own.ignore, scope := s.classes.scope }
      (Declarations.requests unit)
      { memory := s.own.memory, map := s.own.map.clear, log := s.log }
    have hmemory := hgrows.memory hsupply hs.memory
    have hper := hgrows.perClass.trans hs.perClass
    rw [before_ok hreserved, drawn]
    dsimp only
    split <;> exact ⟨hmemory, hs.ignore, hper⟩

theorem preserves_after (r : Renamer γ) (unit : List Node) : Preserves r.Alike (after unit) := by
  intro s hs
  unfold after Session.note
  split <;> exact hs

theorem preserves_visitor {supply : Names.Supply γ} {r : Renamer γ}
    (hsupply : ∀ asked taken, (supply asked taken r.memory).memory = r.memory) :
    (visitor supply).Preserves r.Alike where
  before := preserves_before hsupply
  enter n s hs := by
    have hkeeps := keeps_enter n s
    exact ⟨hkeeps.memory.trans hs.memory, hkeeps.ignore.trans hs.ignore,
      (congrArg RenameMap.perClass hkeeps.map).trans hs.perClass⟩
  leave _ _ hs := hs
  after := preserves_after r

/-- Renamers that have been set up alike begin a unit alike; a count of declarations is left from
the unit before only if there is a fault. -/
theorem before_alike (supply : Names.Supply γ) (unit : List Node) (s : Session γ)
    {r r' : Renamer γ} (h : r.Alike r') :
    before supply unit (s.withOwn r) = before supply unit (s.withOwn r') ∨
      ∃ e, (before supply unit (s.withOwn r)).reply = .error e ∧
        (before supply unit (s.withOwn r')).reply = .error e := by
  cases hreserved : reservedNames unit with
  | error e =>
    refine Or.inr ⟨e, ?_, ?_⟩ <;> simp only [before, hreserved] <;> rfl
  | ok reserved =>
    have hclear : r'.map.clear = r.map.clear := by simp only [RenameMap.clear, h.perClass]
    rw [before_ok hreserved, before_ok hreserved]
    simp only [Session.withOwn, h.memory, h.ignore, hclear, drawn, restart]
    split
    · rename_i e _
      exact Or.inr ⟨e, rfl, rfl⟩
    · exact Or.inl rfl

theorem traverse_alike (supply : Names.Supply γ) (limit : Nat) (unit : List Node) (s : Session γ)
    {r r' : Renamer γ} (h : r.Alike r') :
    traverse limit [visitor supply] unit (s.withOwn r) =
        traverse limit [visitor supply] unit (s.withOwn r') ∨
      ∃ e, (traverse limit [visitor supply] unit (s.withOwn r)).reply = .error e ∧
        (traverse limit [visitor supply] unit (s.withOwn r')).reply = .error e := by
  rcases before_alike supply unit s h with hsame | ⟨e, he, he'⟩
  · have hvisitor : (visitor supply).before unit (s.withOwn r) =
        (visitor supply).before unit (s.withOwn r') := hsame
    simp only [traverse, callUnitHooks, hvisitor, true_or]
  · exact Or.inr ⟨e, traverse_of_before_error (v := visitor supply) he limit [],
      traverse_of_before_error (v := visitor supply) he' limit []⟩

end Renamer

namespace Bench

variable {i j k : Nat} {b : Bench}

theorem getElem?_put_self {a : Actor} (h : b.actors[i]? = some a) (a' : Actor) :
    (put i a' b).actors[i]? = some a' := by
  obtain ⟨hi, -⟩ := List.getElem?_eq_some_iff.mp h
  simp [put, hi]

theorem getElem?_put_of_ne (h : i ≠ j) (a : Actor) (b : Bench) :
    (put i a b).actors[j]? = b.actors[j]? := by
  simp [put, List.getElem?_set_ne h]

theorem put_put (i : Nat) (a a' : Actor) (b : Bench) : put i a (put i a' b) = put i a b := by
  simp [put]

theorem put_comm (h : i ≠ j) (a a' : Actor) (b : Bench) :
    put i a (put j a' b) = put j a' (put i a b) := by
  simp only [put, Bench.mk.injEq, and_true]
  exact (List.set_comm a a' h).symm

theorem put_of_getElem? {a : Actor} (h : b.actors[i]? = some a) : put i a b = b := by
  obtain ⟨hi, ha⟩ := List.getElem?_eq_some_iff.mp h
  obtain ⟨actors, events⟩ := b
  have hset : actors.set i a = actors := by rw [← ha, List.set_getElem_self]
  rw [put, hset]

theorem context_put {a : Actor} (h : b.actors[i]? = some a) (c : Context) :
    (put i (.context c) b).context i = c := by
  rw [context, getElem?_put_self h]

theorem renamer_put {a : Actor} (h : b.actors[i]? = some a) (r : Renamer Source) :
    (put i (.renamer r) b).renamer i = r := by
  rw [renamer, getElem?_put_self h]

/-- A bench with a visitor for the class context and a renamer set up like a given one. -/
structure Holds (i j : Nat) (r : Renamer Source) (b : Bench) : Prop where
  context : ∃ c, b.actors[i]? = some (.context c)
  renamer : ∃ r', b.actors[j]? = some (.renamer r') ∧ r.Alike r'

variable {r : Renamer Source}

theorem Holds.ne (h : Holds i j r b) : i ≠ j := by
  rintro rfl
  obtain ⟨c, hc⟩ := h.context
  obtain ⟨r', hr, -⟩ := h.renamer
  simp [hc] at hr

theorem Holds.put (h : Holds i j r b) {a : Actor} (hi : k = i → ∃ c, a = .context c)
    (hj : k = j → ∃ r', a = .renamer r' ∧ r.Alike r') : Holds i j r (put k a b) where
  context := by
    obtain ⟨c, hc⟩ := h.context
    by_cases hk : k = i
    · subst hk
      obtain ⟨c', rfl⟩ := hi rfl
      exact ⟨c', getElem?_put_self hc _⟩
    · exact ⟨c, by rw [getElem?_put_of_ne hk, hc]⟩
  renamer := by
    obtain ⟨r', hr, halike⟩ := h.renamer
    by_cases hk : k = j
    · subst hk
      obtain ⟨r'', rfl, halike'⟩ := hj rfl
      exact ⟨r'', getElem?_put_self hr _, halike'⟩
    · exact ⟨r', by rw [getElem?_put_of_ne hk, hr], halike⟩

/-- No visitor of a bench changes how another one is set up, nor how it is set up itself. -/
theorem Holds.visitor (h : Holds i j r b) (hr : r.memory.BuiltIn) (k : Nat) :
    (b.visitor k).Preserves (Holds i j r) := by
  obtain ⟨c, hc⟩ := h.context
  obtain ⟨r', hr', -⟩ := h.renamer
  unfold Bench.visitor
  split
  · rename_i c' hk
    refine Context.visitor.preserves_true.focus (fun _ _ => trivial) fun c'' b' hb _ =>
      hb.put (fun _ => ⟨c'', rfl⟩) ?_
    rintro rfl
    simp [hr'] at hk
  · rename_i r'' hk
    -- The renamer in question is only one of those that the bench may hold.
    have hpreserves : (Renamer.visitor Source.draw).Preserves fun r'' => k = j → r.Alike r'' := by
      by_cases hkj : k = j
      · simpa only [hkj, true_imp_iff] using Renamer.preserves_visitor hr.memory_draw
      · simpa only [hkj, false_imp_iff] using Visitor.preserves_true _
    refine hpreserves.focus ?_ fun r'' b' hb hr'' => hb.put ?_ fun hkj => ⟨r'', rfl, hr'' hkj⟩
    · rintro b' hb rfl
      obtain ⟨r'', hr'', halike⟩ := hb.renamer
      simpa only [Bench.renamer, hr''] using halike
    · rintro rfl
      simp [hc] at hk
  · rename_i sc hk
    refine (Visitor.preserves_true _).focus (fun _ _ => trivial) fun e b' hb _ => ?_
    have hput : Holds i j r (Bench.put k (.script e.1) b') := by
      refine hb.put ?_ ?_
      · rintro rfl
        simp [hc] at hk
      · rintro rfl
        simp [hr'] at hk
    exact ⟨hput.context, hput.renamer⟩
  · exact Visitor.preserves_idle _

/-- What a bench may be used for: a walk of some of its visitors, or the call of a single hook. -/
inductive Use
  | walk (limit : Nat) (which : List Nat) (unit : List Node)
  | before (i : Nat) (unit : List Node)
  | enter (i : Nat) (n : Node)
  | leave (i : Nat) (n : Node)
  | after (i : Nat) (unit : List Node)

def Use.run : Use → Session Bench → Session Bench
  | walk limit which unit, s =>
    (PropertyRenaming.traverse limit (which.map s.own.visitor) unit s).session
  | before i unit, s => ((s.own.visitor i).before unit s).session
  | enter i n, s => ((s.own.visitor i).enter n s).session
  | leave i n, s => ((s.own.visitor i).leave n s).session
  | after i unit, s => ((s.own.visitor i).after unit s).session

/-- A bench that has come about from another one by any uses, each in a session of its own. -/
inductive Used (b : Bench) : Bench → Prop
  | new : Used b b
  | use {s : Session Bench} (u : Use) : Used b s.own → Used b (u.run s).own

theorem Holds.run (hr : r.memory.BuiltIn) (u : Use) {s : Session Bench} (h : Holds i j r s.own) :
    Holds i j r (u.run s).own := by
  cases u with
  | walk limit which unit =>
    refine preserves_traverse (fun v hv => ?_) limit unit s h
    obtain ⟨k, -, rfl⟩ := List.mem_map.mp hv
    exact h.visitor hr k
  | before k unit => exact (h.visitor hr k).before unit s h
  | enter k n => exact (h.visitor hr k).enter n s h
  | leave k n => exact (h.visitor hr k).leave n s h
  | after k unit => exact (h.visitor hr k).after unit s h

theorem Holds.used (hr : r.memory.BuiltIn) {b' : Bench} (h : Holds i j r b) (hused : Used b b') :
    Holds i j r b' := by
  induction hused with
  | new => exact h
  | use u _ ih => exact ih.run hr u

/-- The class context first and then the renames, by two visitors of a bench. -/
def twoPasses (limit i j : Nat) (unit : List Node) (s : Session Bench) :
    Outcome Bench (List Node) Report :=
  let o := PropertyRenaming.traverse limit [s.own.visitor i] unit s
  match o.reply with
  | .error e => o.session.fail o.subject e
  | .ok nodes =>
    let o := PropertyRenaming.traverse limit [o.session.own.visitor j] nodes o.session
    ⟨o.subject, o.session, o.reply.map (o.session.own.renamer j).report⟩

def renew (i j : Nat) (r : Renamer Source) (b : Bench) : Bench :=
  put j (.renamer r.asNew) (put i (.context {}) b)

theorem traverse_context {c : Context} {s : Session Bench}
    (h : s.own.actors[i]? = some (.context c)) (limit : Nat) (unit : List Node) :
    PropertyRenaming.traverse limit [s.own.visitor i] unit s =
      let o := PropertyRenaming.traverse limit [Context.visitor] unit (s.withOwn ({} : Context))
      ⟨o.subject, o.session.withOwn (put i (.context o.session.own) s.own), o.reply⟩ := by
  have hvisitor : s.own.visitor i =
      Context.visitor.focus (Bench.context i) fun c => put i (.context c) := by
    rw [Bench.visitor, h]
  have hown : s.own = put i (.context c) s.own := (put_of_getElem? h).symm
  rw [hvisitor]
  -- Whatever the context was, it is forgotten before the walk.
  exact traverse_focus (context_put h) (fun _ _ => put_put ..) Context.visitor hown limit unit

theorem traverse_renamer {r : Renamer Source} {s : Session Bench}
    (h : s.own.actors[j]? = some (.renamer r)) (limit : Nat) (unit : List Node) :
    PropertyRenaming.traverse limit [s.own.visitor j] unit s =
      let o := PropertyRenaming.traverse limit [Renamer.visitor Source.draw] unit (s.withOwn r)
      ⟨o.subject, o.session.withOwn (put j (.renamer o.session.own) s.own), o.reply⟩ := by
  have hvisitor : s.own.visitor j =
      (Renamer.visitor Source.draw).focus (Bench.renamer j) fun r => put j (.renamer r) := by
    rw [Bench.visitor, h]
  have hown : s.own = put j (.renamer r) s.own := (put_of_getElem? h).symm
  rw [hvisitor]
  exact traverse_focus (renamer_put h) (fun _ _ => put_put ..) _ hown limit unit

theorem twoPasses_eq {c : Context} {r : Renamer Source} {s : Session Bench}
    (hi : s.own.actors[i]? = some (.context c)) (hj : s.own.actors[j]? = some (.renamer r))
    (limit : Nat) (unit : List Node) :
    twoPasses limit i j unit s =
      let o := PropertyRenaming.traverse limit [Context.visitor] unit (s.withOwn ({} : Context))
      let b := put i (.context o.session.own) s.own
      match o.reply with
      | .error e => (o.session.withOwn b).fail o.subject e
      | .ok nodes =>
        let p := PropertyRenaming.traverse limit [Renamer.visitor Source.draw] nodes
          (o.session.withOwn r)
        ⟨p.subject, p.session.withOwn (put j (.renamer p.session.own) b),
          p.reply.map p.session.own.report⟩ := by
  have hij : i ≠ j := by
    rintro rfl
    simp [hi] at hj
  have hj' : ∀ a, (put i a s.own).actors[j]? = some (.renamer r) :=
    fun a => (getElem?_put_of_ne hij a s.own).trans hj
  unfold twoPasses
  rw [traverse_context hi]
  dsimp only
  split
  · rfl
  · rename_i nodes _
    generalize PropertyRenaming.traverse limit [Context.visitor] unit
      (s.withOwn ({} : Context)) = o
    rw [traverse_renamer (s := o.session.withOwn (put i (.context o.session.own) s.own)) (hj' _)]
    simp only [Session.withOwn, renamer_put (hj' _)]

/-- Used visitors treat a unit as new ones do. -/
theorem twoPasses_of_used {b : Bench} {i j : Nat} {c : Context} {r : Renamer Source}
    (hi : b.actors[i]? = some (.context c)) (hj : b.actors[j]? = some (.renamer r))
    (hr : r.memory.BuiltIn) {s : Session Bench} (hused : Used b s.own) (limit : Nat)
    (unit : List Node) :
    let old := twoPasses limit i j unit s
    let new := twoPasses limit i j unit (s.withOwn (renew i j r s.own))
    old.reply = new.reply ∧ ∀ report, old.reply = .ok report → old = new := by
  have hholds : Holds i j r s.own :=
    Holds.used hr ⟨⟨c, hi⟩, r, hj, rfl, rfl, rfl⟩ hused
  obtain ⟨c', hc⟩ := hholds.context
  obtain ⟨r', hr', halike⟩ := hholds.renamer
  have hc' : (renew i j r s.own).actors[i]? = some (.context {}) := by
    rw [renew, getElem?_put_of_ne hholds.ne.symm, getElem?_put_self hc]
  have hnew : (renew i j r s.own).actors[j]? = some (.renamer r.asNew) := by
    rw [renew, getElem?_put_self ((getElem?_put_of_ne hholds.ne _ _).trans hr')]
  -- What was in the two places is overwritten, and nothing else is different.
  have hput : ∀ c r'', put j (.renamer r'') (put i (.context c) (renew i j r s.own)) =
      put j (.renamer r'') (put i (.context c) s.own) := by
    intro c r''
    rw [renew, put_comm hholds.ne, put_put, put_put]
  intro old new
  have hold : old = _ := twoPasses_eq hc hr' limit unit
  have hnew : new = _ := twoPasses_eq (s := s.withOwn (renew i j r s.own)) hc' hnew limit unit
  rw [hold, hnew]
  dsimp only [Session.withOwn]
  split
  · exact ⟨rfl, nofun⟩
  · rename_i nodes _
    generalize PropertyRenaming.traverse limit [Context.visitor] unit
      ⟨s.log, s.classes, s.shares, {}⟩ = o
    have halike' : r'.Alike r.asNew :=
      ⟨halike.memory.symm, halike.ignore.symm, halike.perClass.symm⟩
    have hsame := Renamer.traverse_alike Source.draw limit nodes (o.session.withOwn r.memory)
      halike'
    dsimp only [Session.withOwn] at hsame
    rcases hsame with hsame | ⟨e, he, he'⟩
    · rw [hsame, hput]
      exact ⟨rfl, fun _ _ => rfl⟩
    · rw [he, he']
      exact ⟨rfl, nofun⟩

def sampleRenamer : Renamer Source :=
  { memory := .alphabetic "", map := { perClass := true }, ignore := [.text "y"] }

def sampleBench : Bench := { actors := [.context {}, .renamer sampleRenamer] }

/-- What a walk of both visitors leaves that is broken off inside a class. -/
def brokenOff : Session Bench :=
  (Use.walk 1 [0, 1] sampleUnit).run (sampleSession.withOwn sampleBench)

theorem twoPasses_brokenOff :
    Used sampleBench brokenOff.own ∧ (brokenOff.own.context 0).classes = [0] ∧
      (brokenOff.own.renamer 1).map.entries ≠ [] ∧
      (twoPasses 9 0 1 sampleUnit brokenOff).reply.isOk = true ∧
      twoPasses 9 0 1 sampleUnit brokenOff = twoPasses 9 0 1 sampleUnit
        (brokenOff.withOwn (renew 0 1 sampleRenamer brokenOff.own)) := by
  have hused : Used sampleBench brokenOff.own := .use _ .new
  have hbuiltIn : sampleRenamer.memory.BuiltIn := trivial
  obtain ⟨-, hsame⟩ := twoPasses_of_used (i := 0) (j := 1) rfl rfl hbuiltIn hused 9 sampleUnit
  have hok : (twoPasses 9 0 1 sampleUnit brokenOff).reply.isOk = true := by decide +kernel
  refine ⟨hused, by decide +kernel, by decide +kernel, hok, ?_⟩
  cases hreply : (twoPasses 9 0 1 sampleUnit brokenOff).reply with
  | error e => simp [hreply, Except.isOk, Except.toBool] at hok
  | ok report => exact hsame report hreply

end Bench

end PropertyRenaming
