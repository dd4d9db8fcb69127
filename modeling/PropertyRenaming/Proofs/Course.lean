import PropertyRenaming.Proofs.Faults

namespace PropertyRenaming

def Record.stopsAt (r : Record) (level : Int) : Bool := level ≤ r.level.rank && r.clashes

def Log.atLevel (level : Int) (log : Log) : Log := { log with threshold := level }

def Session.atLevel {σ : Type} (level : Int) (s : Session σ) : Session σ :=
  { s with log := s.log.atLevel level }

/-- Results that carry a log and may be faults. -/
class Logged (R : Type) where
  atLevel : Int → R → R
  written : R → List Record
  fault? : R → Option Fault

open Logged

instance {σ α ρ : Type} : Logged (Outcome σ α ρ) where
  atLevel level o := { o with session := o.session.atLevel level }
  written o := o.session.log.written
  fault? o := match o.reply with
    | .ok _ => none
    | .error e => some e

instance {γ β : Type} : Logged (Declarations.Drawing γ × β × Option Fault) where
  atLevel level r := ({ r.1 with log := r.1.log.atLevel level }, r.2)
  written r := r.1.log.written
  fault? r := r.2.2

structure Course (R : Type) where
  /-- The records in turn, each with what is left if it stops the computation. -/
  stops : List (Record × R)
  final : R

/-- What a course comes to at a level, the level itself aside. -/
def Course.result {R : Type} (c : Course R) (level : Int) : R :=
  ((c.stops.find? fun e => e.1.stopsAt level).map Prod.snd).getD c.final

/-- A computation follows a course at each level, after some records have been written. -/
structure Course.Describes {R : Type} [Logged R] (c : Course R) (run : Int → R)
    (before : List Record) : Prop where
  run_eq (level : Int) : run level = atLevel level (c.result level)
  written_final : written c.final = (c.stops.map Prod.fst).reverse ++ before
  stopped {e : Record × R} : e ∈ c.stops → fault? e.2 = some stopFault
  unstopped : fault? c.final ≠ some stopFault

/-- All levels follow one course. -/
def Charted {R : Type} [Logged R] (run : Int → R) (before : List Record) : Prop :=
  ∃ c : Course R, c.Describes run before

section Courses

variable {R R' : Type} [Logged R] [Logged R'] {f g : Int → R} {before : List Record}

theorem charted_of_silent (x : R) (h : ∀ level, f level = atLevel level x)
    (hw : written x = before) (hx : fault? x ≠ some stopFault) : Charted f before :=
  ⟨⟨[], x⟩, h, hw, nofun, hx⟩

theorem Charted.congr (h : Charted f before) (heq : ∀ level, g level = f level) :
    Charted g before := by
  obtain ⟨c, hrun, hw, hstop, hfinal⟩ := h
  exact ⟨c, fun level => (heq level).trans (hrun level), hw, hstop, hfinal⟩

theorem Charted.cons {r : Record} (x : R) (hx : fault? x = some stopFault)
    (heq : ∀ level, f level = if r.stopsAt level then atLevel level x else g level)
    (h : Charted g (r :: before)) : Charted f before := by
  obtain ⟨c, hrun, hw, hstop, hfinal⟩ := h
  refine ⟨⟨(r, x) :: c.stops, c.final⟩, fun level => ?_, ?_, ?_, hfinal⟩
  · rw [heq, hrun]
    by_cases hr : r.stopsAt level <;> simp [Course.result, hr]
  · simp [hw]
  · intro e he
    rcases List.mem_cons.mp he with rfl | he
    · exact hx
    · exact hstop he

theorem Charted.append {rs : List Record} (x : R)
    (hx : fault? x = some stopFault)
    (heq : ∀ level, f level =
      if rs.any fun r => r.stopsAt level then atLevel level x else g level)
    (h : Charted g (rs.reverse ++ before)) : Charted f before := by
  induction rs generalizing f before with
  | nil => exact h.congr (by simpa using heq)
  | cons r rs ih =>
    refine Charted.cons (r := r) (g := fun level =>
      if rs.any fun r => r.stopsAt level then atLevel level x else g level) x hx ?_ ?_
    · intro level
      rw [heq, List.any_cons]
      cases r.stopsAt level <;> simp
    · exact ih (fun level => rfl) (by simpa using h)

theorem Charted.bind {k : R → R'} (h : Charted f before)
    (hstop : ∀ x, fault? x = some stopFault →
      fault? (k x) = some stopFault ∧ ∀ level, k (atLevel level x) = atLevel level (k x))
    (hnext : ∀ x, fault? x ≠ some stopFault →
      Charted (fun level => k (atLevel level x)) (written x)) :
    Charted (fun level => k (f level)) before := by
  obtain ⟨c, hrun, hw, hstopped, hfinal⟩ := h
  obtain ⟨c', hrun', hw', hstopped', hfinal'⟩ := hnext c.final hfinal
  refine ⟨⟨c.stops.map (fun e => (e.1, k e.2)) ++ c'.stops, c'.final⟩, fun level => ?_, ?_, ?_,
    hfinal'⟩
  · simp only [hrun, Course.result, List.find?_append, List.find?_map, Function.comp_def]
    cases hfind : c.stops.find? fun e => e.1.stopsAt level with
    | none => simpa [Course.result] using hrun' level
    | some e =>
      have hcomm := (hstop e.2 (hstopped (List.mem_of_find?_eq_some hfind))).2
      simp [hcomm]
  · rw [hw', hw]
    simp [Function.comp_def]
  · intro e he
    rcases List.mem_append.mp he with he | he
    · obtain ⟨e', he', rfl⟩ := List.mem_map.mp he
      exact (hstop _ (hstopped he')).1
    · exact hstopped' he

end Courses

section Outcomes

variable {σ τ α β ρ π : Type} {f : Int → Outcome σ α ρ} {before : List Record}

theorem Charted.after {k : Outcome σ α ρ → Outcome τ β π} (h : Charted f before)
    (herror : ∀ (x : α) (s : Session σ) (e : Fault), ∃ (y : β) (t : Session τ), t.log = s.log ∧
      ∀ level, k ⟨x, s.atLevel level, .error e⟩ = ⟨y, t.atLevel level, .error e⟩)
    (hok : ∀ (x : α) (s : Session σ) (a : ρ),
      Charted (fun level => k ⟨x, s.atLevel level, .ok a⟩) s.log.written) :
    Charted (fun level => k (f level)) before := by
  refine h.bind ?_ ?_
  · rintro ⟨x, s, reply⟩ hx
    cases reply with
    | ok a => cases hx
    | error e =>
      obtain ⟨y, t, -, hk⟩ := herror x s e
      have hself : k ⟨x, s, .error e⟩ = ⟨y, t.atLevel s.log.threshold, .error e⟩ :=
        hk s.log.threshold
      rw [hself]
      exact ⟨hx, hk⟩
  · rintro ⟨x, s, reply⟩ hx
    cases reply with
    | ok a => exact hok x s a
    | error e =>
      obtain ⟨y, t, hlog, hk⟩ := herror x s e
      exact charted_of_silent ⟨y, t, .error e⟩ hk (congrArg Log.written hlog) hx

theorem Charted.map (h : Charted f before) (subject : α → β) (session : α → Session σ → Session τ)
    (reply : α → Session σ → ρ → π) (hlog : ∀ x s, (session x s).log = s.log)
    (hsession : ∀ x s level, session x (s.atLevel level) = (session x s).atLevel level)
    (hreply : ∀ x s level a, reply x (s.atLevel level) a = reply x s a) :
    Charted (fun level =>
      (⟨subject (f level).subject, session (f level).subject (f level).session,
        (f level).reply.map (reply (f level).subject (f level).session)⟩ : Outcome τ β π))
      before := by
  refine h.after (k := fun o => ⟨subject o.subject, session o.subject o.session,
    o.reply.map (reply o.subject o.session)⟩) ?_ ?_
  · exact fun x s e => ⟨subject x, session x s, hlog x s, fun level => by
      rw [← hsession]
      rfl⟩
  · intro x s a
    refine charted_of_silent ⟨subject x, session x s, .ok (reply x s a)⟩ (fun level => ?_)
      (congrArg Log.written (hlog x s)) nofun
    simp only [hsession, Except.map, hreply]
    rfl

/-- Goes on with the reply to an outcome; a fault ends it, with its subject put in place. -/
def Outcome.follow (o : Outcome σ α ρ) (place : α → β)
    (next : α → Session σ → ρ → Outcome σ β π) : Outcome σ β π :=
  match o.reply with
  | .error e => o.session.fail (place o.subject) e
  | .ok a => next o.subject o.session a

theorem Charted.follow (h : Charted f before) (place : α → β)
    (next : α → Session σ → ρ → Outcome σ β π)
    (hnext : ∀ (x : α) (s : Session σ) (a : ρ),
      Charted (fun level => next x (s.atLevel level) a) s.log.written) :
    Charted (fun level => (f level).follow place next) before :=
  h.after (k := fun o => o.follow place next) (fun x s _ => ⟨place x, s, rfl, fun _ => rfl⟩) hnext

theorem Charted.andThen {next : α → Session σ → Outcome σ α π} (h : Charted f before)
    (hnext : ∀ (x : α) (s : Session σ),
      Charted (fun level => next x (s.atLevel level)) s.log.written) :
    Charted (fun level => (f level).andThen next) before :=
  h.after (k := fun o => o.andThen next) (fun x s _ => ⟨x, s, rfl, fun _ => rfl⟩)
    fun x s _ => hnext x s

theorem Charted.withOwn (h : Charted f before) (own : τ) :
    Charted (fun level => (⟨(f level).subject, (f level).session.withOwn own, (f level).reply⟩ :
      Outcome τ α ρ)) before :=
  h.after (k := fun o => ⟨o.subject, o.session.withOwn own, o.reply⟩)
    (fun x s _ => ⟨x, s.withOwn own, rfl, fun _ => rfl⟩)
    fun x s a => charted_of_silent ⟨x, s.withOwn own, .ok a⟩ (fun _ => rfl) rfl nofun

/-- The level of the log can only stop a function, never change its course. -/
def Stoppable (h : Session σ → Outcome σ α ρ) : Prop :=
  ∀ s : Session σ, Charted (fun level => h (s.atLevel level)) s.log.written

theorem charted_note {next : Session σ → Outcome σ α ρ} (s : Session σ) (r : Record) (x : α)
    (h : Stoppable next) :
    Charted (fun level => (s.atLevel level).note r x next) s.log.written := by
  refine Charted.cons (r := r) (g := fun level =>
    next (Session.atLevel level { s with log := s.log.add r })) (s.fail x stopFault) rfl ?_
    (h { s with log := s.log.add r })
  intro level
  have hstops : (s.atLevel level).log.stops r = r.stopsAt level := rfl
  unfold Session.note Log.write
  rw [hstops]
  cases r.stopsAt level <;> rfl

structure Visitor.Heeds (v : Visitor σ) : Prop where
  before (unit : List Node) : Stoppable (v.before unit)
  enter (n : Node) : Stoppable (v.enter n)
  leave (n : Node) : Stoppable (v.leave n)
  after (unit : List Node) : Stoppable (v.after unit)

end Outcomes

section Walk

variable {σ : Type}

theorem stoppable_done {α ρ : Type} (x : α) (a : ρ) : Stoppable fun s : Session σ => s.done x a :=
  fun s => charted_of_silent (s.done x a) (fun _ => rfl) rfl nofun

theorem stoppable_fail {α ρ : Type} (x : α) {e : Fault} (he : e ≠ stopFault) :
    Stoppable fun s : Session σ => (s.fail x e : Outcome σ α ρ) :=
  fun s => charted_of_silent (s.fail x e) (fun _ => rfl) rfl fun h => he (Option.some.inj h)

theorem callHooks_cons (hook : Hook) (call : Visitor σ → Node → Session σ → Outcome σ Node Reply)
    (v : Visitor σ) (vs : List (Visitor σ)) (st : Stand) (s : Session σ) :
    callHooks hook call (v :: vs) st s =
      (call v st.node s).follow (fun n => { st with node := n }) fun n t reply =>
        match Stand.accept (t.keep n).shares { st with node := n } reply with
        | .ok st => callHooks hook call vs st (t.keep n)
        | .error type =>
          (t.keep n).note (badReply "Visitor hook returned a non-node value" v.label hook)
            { st with node := n } fun t =>
              t.fail { st with node := n } (.badNodeReply v.label hook type) := by
  rw [callHooks, Outcome.follow]
  cases (call v st.node s).reply <;> rfl

theorem stoppable_callHooks (hook : Hook)
    {call : Visitor σ → Node → Session σ → Outcome σ Node Reply} {vs : List (Visitor σ)}
    (h : ∀ v ∈ vs, ∀ n, Stoppable (call v n)) (st : Stand) :
    Stoppable (callHooks hook call vs st) := by
  induction vs generalizing st with
  | nil => exact stoppable_done st ()
  | cons v vs ih =>
    intro s
    simp only [callHooks_cons]
    refine (h v List.mem_cons_self st.node s).follow _ _ fun n t reply => ?_
    have hshares : ∀ level, ((t.atLevel level).keep n).shares = (t.keep n).shares := fun _ => rfl
    simp only [hshares]
    cases Stand.accept (t.keep n).shares { st with node := n } reply with
    | ok st' => exact ih (fun v hv => h v (List.mem_cons_of_mem _ hv)) st' (t.keep n)
    | error type => exact charted_note (t.keep n) _ _ (stoppable_fail _ (by simp [stopFault]))

section Fields

variable {visit : Node → Session σ → Outcome σ Node Node} (hvisit : ∀ n, Stoppable (visit n))

include hvisit

omit hvisit in
theorem walkList_cons (n : Node) (ns : List Node) (s : Session σ) :
    walkList visit (n :: ns) s =
      (visit (s.shares.refreshNode n) s).follow (· :: ns) fun m t n' =>
        ⟨m :: (walkList visit ns t).subject, (walkList visit ns t).session,
          (walkList visit ns t).reply.map (n' :: ·)⟩ := by
  rw [walkList, Outcome.follow]
  cases (visit (s.shares.refreshNode n) s).reply <;> rfl

theorem stoppable_walkList (ns : List Node) : Stoppable (walkList visit ns) := by
  induction ns with
  | nil => exact stoppable_done [] []
  | cons n ns ih =>
    intro s
    simp only [walkList_cons]
    refine (hvisit (s.shares.refreshNode n) s).follow _ _ fun m t n' => ?_
    exact (ih t).map (m :: ·) (fun _ u => u) (fun _ _ => (n' :: ·))
      (fun _ _ => rfl) (fun _ _ _ => rfl) fun _ _ _ _ => rfl

theorem stoppable_walkField (v : Value) : Stoppable (walkField visit v) := by
  intro s
  unfold walkField
  cases v with
  | node n =>
    exact (hvisit n s).map Value.node (fun _ u => u) (fun _ _ => Value.node) (fun _ _ => rfl)
      (fun _ _ _ => rfl) fun _ _ _ _ => rfl
  | list vs =>
    dsimp only
    cases Value.nodesOf? vs with
    | none => exact stoppable_done _ _ s
    | some ns =>
      exact (stoppable_walkList hvisit ns s).map (fun ms => Value.list (ms.map .node))
        (fun _ u => u) (fun _ _ ms => Value.list (ms.map .node)) (fun _ _ => rfl)
        (fun _ _ _ => rfl) fun _ _ _ _ => rfl
  | _ => exact stoppable_done _ _ s

omit hvisit in
theorem walkFields_cons (v : Value) (vs : List Value) (s : Session σ) :
    walkFields visit (v :: vs) s =
      (walkField visit (s.shares.refresh v) s).follow (· :: vs) fun _ t v' =>
        ⟨v' :: (walkFields visit vs t).subject, (walkFields visit vs t).session,
          (walkFields visit vs t).reply⟩ := by
  rw [walkFields, Outcome.follow]
  cases (walkField visit (s.shares.refresh v) s).reply <;> rfl

theorem stoppable_walkFields (fields : List Value) : Stoppable (walkFields visit fields) := by
  induction fields with
  | nil => exact stoppable_done [] ()
  | cons v vs ih =>
    intro s
    simp only [walkFields_cons]
    refine (stoppable_walkField hvisit (s.shares.refresh v) s).follow _ _ fun u t v' => ?_
    refine (ih t).after (k := fun r => ⟨v' :: r.subject, r.session, r.reply⟩) ?_ ?_
    · exact fun us t e => ⟨v' :: us, t, rfl, fun _ => rfl⟩
    · exact fun us t a => stoppable_done (v' :: us) a t

end Fields

theorem stoppable_standWalkFields {visit : Nat → Node → Session σ → Outcome σ Node Node}
    (hvisit : ∀ depth n, Stoppable (visit depth n)) (st : Stand) :
    Stoppable (st.walkFields visit) := by
  -- What the fields come to is put back into the node, brought up to date.
  have hput : ∀ (fields : List Value) (put : Shares → List Value → Stand) (s : Session σ),
      Charted (fun level =>
        let r := walkFields (visit 0) fields (s.atLevel level)
        (⟨put r.session.shares r.subject, r.session, r.reply⟩ : Outcome σ Stand Unit))
        s.log.written := by
    intro fields put s
    refine (stoppable_walkFields (hvisit 0) fields s).after (k := fun r =>
      ⟨put r.session.shares r.subject, r.session, r.reply⟩) ?_ ?_
    · exact fun us t e => ⟨put t.shares us, t, rfl, fun _ => rfl⟩
    · exact fun us t a => stoppable_done (put t.shares us) a t
  -- The node that the walk started from is in the first field, and is walked on its own.
  have hfirst : ∀ (depth : Nat) (first : Node) (rest : List Value),
      Stoppable fun t : Session σ =>
        (visit depth first t).follow (fun m => (⟨st.node, .apart m⟩ : Stand)) fun m t first' =>
          let r := walkFields (visit 0) rest t
          ⟨⟨{ st.node with fields := (.node first' :: r.subject).map r.session.shares.refresh },
            .apart (r.session.shares.refreshNode m)⟩, r.session, r.reply⟩ := by
    intro depth first rest s
    refine (hvisit depth first s).follow _ _ fun m t first' => ?_
    exact hput rest (fun shares us =>
      ⟨{ st.node with fields := (.node first' :: us).map shares.refresh },
        .apart (shares.refreshNode m)⟩) t
  intro s
  unfold Stand.walkFields
  split
  · rename_i depth first rest _ _
    refine (hfirst depth first rest s).congr fun level => ?_
    dsimp only [Outcome.follow]
    cases (visit depth first (s.atLevel level)).reply <;> rfl
  · exact hput _ (fun shares us => ⟨{ st.node with fields := us.map shares.refresh }, st.origin⟩) s

theorem stoppable_walkNode {vs : List (Visitor σ)} (h : ∀ v ∈ vs, v.Heeds) (limit depth : Nat)
    (n : Node) : Stoppable (walkNode vs limit depth n) := by
  induction limit generalizing depth n with
  | zero => exact stoppable_fail _ nofun
  | succ limit ih =>
    intro s
    have hhooks := ((stoppable_callHooks .enter (fun v hv => (h v hv).enter) ⟨n, .within depth⟩
      s).andThen fun st t => stoppable_standWalkFields ih st t).andThen
        fun st t => stoppable_callHooks .leave (fun v hv => (h v hv).leave) st t
    refine hhooks.after (k := fun o =>
      let s := o.session.keep o.subject.node
      ⟨s.shares.refreshNode o.subject.start, s, o.reply.map fun _ => o.subject.node⟩) ?_ ?_
    · exact fun st t e => ⟨(t.keep st.node).shares.refreshNode st.start, t.keep st.node, rfl,
        fun _ => rfl⟩
    · exact fun st t a => stoppable_done ((t.keep st.node).shares.refreshNode st.start) st.node
        (t.keep st.node)

theorem callUnitHooks_cons (hook : Hook)
    (call : Visitor σ → List Node → Session σ → Outcome σ (List Node) Reply) (v : Visitor σ)
    (vs : List (Visitor σ)) (roll : Roll) (s : Session σ) :
    callUnitHooks hook call (v :: vs) roll s =
      (call v roll.nodes s).follow (fun ns => { roll with nodes := ns }) fun ns t reply =>
        match Roll.accept (hook.walked t.shares) { roll with nodes := ns } reply with
        | some roll => callUnitHooks hook call vs roll t
        | none =>
          t.note (badReply "Visitor hook returned a non-list value" v.label hook)
            { roll with nodes := ns } fun t =>
              t.fail { roll with nodes := ns } (.badUnitReply v.label hook) := by
  rw [callUnitHooks, Outcome.follow]
  cases (call v roll.nodes s).reply <;> rfl

theorem stoppable_callUnitHooks (hook : Hook)
    {call : Visitor σ → List Node → Session σ → Outcome σ (List Node) Reply}
    {vs : List (Visitor σ)} (h : ∀ v ∈ vs, ∀ unit, Stoppable (call v unit)) (roll : Roll) :
    Stoppable (callUnitHooks hook call vs roll) := by
  induction vs generalizing roll with
  | nil => exact stoppable_done roll ()
  | cons v vs ih =>
    intro s
    simp only [callUnitHooks_cons]
    refine (h v List.mem_cons_self roll.nodes s).follow _ _ fun ns t reply => ?_
    have hshares : ∀ level, (t.atLevel level).shares = t.shares := fun _ => rfl
    simp only [hshares]
    cases Roll.accept (hook.walked t.shares) { roll with nodes := ns } reply with
    | some roll' => exact ih (fun v hv => h v (List.mem_cons_of_mem _ hv)) roll' t
    | none => exact charted_note t _ _ (stoppable_fail _ (by simp [stopFault]))

theorem stoppable_rollWalk {visit : Node → Session σ → Outcome σ Node Node}
    (hvisit : ∀ n, Stoppable (visit n)) (roll : Roll) : Stoppable (roll.walk visit) := by
  intro s
  have hwalk : ∀ t : Session σ, roll.walk visit t =
      roll.conclude (walkList visit roll.nodes t.settled) := fun t => rfl
  simp only [hwalk]
  refine (stoppable_walkList hvisit roll.nodes s.settled).after (k := roll.conclude) ?_ ?_
  · intro ns t e
    exact ⟨⟨ns.map t.shares.refreshNode, some ((roll.caller.getD ns).map t.shares.refreshNode)⟩, t,
      rfl, fun _ => rfl⟩
  · intro ns t nodes
    exact stoppable_done (⟨nodes.map t.shares.refreshNode,
      some ((roll.caller.getD ns).map t.shares.refreshNode)⟩ : Roll) () t

/-- Walks heed the level of the log as their visitors do. -/
theorem stoppable_traverse {vs : List (Visitor σ)} (h : ∀ v ∈ vs, v.Heeds) (limit : Nat)
    (unit : List Node) : Stoppable (traverse limit vs unit) := by
  intro s
  have hhooks := ((stoppable_callUnitHooks .before (fun v hv => (h v hv).before) ⟨unit, none⟩
    s).andThen fun roll t => stoppable_rollWalk (stoppable_walkNode h limit 0) roll t).andThen
      fun roll t => stoppable_callUnitHooks .after (fun v hv => (h v hv).after) roll t
  exact hhooks.map Roll.start (fun _ t => t) (fun roll _ _ => roll.nodes)
    (fun _ _ => rfl) (fun _ _ _ => rfl) fun _ _ _ _ => rfl

end Walk

end PropertyRenaming
