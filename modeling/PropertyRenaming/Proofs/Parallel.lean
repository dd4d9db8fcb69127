import PropertyRenaming.Proofs.Course

namespace PropertyRenaming

open List (Forall₂)

variable {σ τ : Type} {Q : σ → τ → Prop}

/-- Sessions that differ in the states of the visitors only, and those are related. -/
structure Session.Linked (Q : σ → τ → Prop) (s : Session σ) (t : Session τ) : Prop where
  log : t.log = s.log
  classes : t.classes = s.classes
  shares : t.shares = s.shares
  own : Q s.own t.own

theorem Session.Linked.eq_withOwn {s : Session σ} {t : Session τ} (h : s.Linked Q t) :
    t = s.withOwn t.own := by
  obtain ⟨log, classes, shares, own⟩ := t
  obtain ⟨hlog, hclasses, hshares, -⟩ := h
  dsimp only at hlog hclasses hshares
  rw [hlog, hclasses, hshares]
  rfl

structure Outcome.Linked {α ρ : Type} (Q : σ → τ → Prop) (o : Outcome σ α ρ)
    (p : Outcome τ α ρ) : Prop where
  subject : p.subject = o.subject
  session : o.session.Linked Q p.session
  reply : p.reply = o.reply

/-- Functions that act alike on linked sessions. -/
def InStep {α ρ : Type} (Q : σ → τ → Prop) (f : Session σ → Outcome σ α ρ)
    (g : Session τ → Outcome τ α ρ) : Prop :=
  ∀ s t, s.Linked Q t → (f s).Linked Q (g t)

structure Visitor.InStep (Q : σ → τ → Prop) (v : Visitor σ) (v' : Visitor τ) : Prop where
  label : v'.label = v.label
  before (unit : List Node) : PropertyRenaming.InStep Q (v.before unit) (v'.before unit)
  enter (n : Node) : PropertyRenaming.InStep Q (v.enter n) (v'.enter n)
  leave (n : Node) : PropertyRenaming.InStep Q (v.leave n) (v'.leave n)
  after (unit : List Node) : PropertyRenaming.InStep Q (v.after unit) (v'.after unit)

section Outcomes

variable {α β ρ π : Type} {f : Session σ → Outcome σ α ρ} {g : Session τ → Outcome τ α ρ}

theorem inStep_done (x : α) (a : ρ) :
    InStep Q (fun s => s.done x a) fun t => t.done x a :=
  fun _ _ h => ⟨rfl, h, rfl⟩

theorem inStep_fail (x : α) (e : Fault) :
    InStep Q (fun s => (s.fail x e : Outcome σ α ρ)) fun t => t.fail x e :=
  fun _ _ h => ⟨rfl, h, rfl⟩

theorem Outcome.Linked.follow {o : Outcome σ α ρ} {p : Outcome τ α ρ} (h : o.Linked Q p)
    (place : α → β) {next : α → Session σ → ρ → Outcome σ β π}
    {next' : α → Session τ → ρ → Outcome τ β π}
    (hnext : ∀ x a, InStep Q (next x · a) (next' x · a)) :
    (o.follow place next).Linked Q (p.follow place next') := by
  unfold Outcome.follow
  rw [h.reply, h.subject]
  cases o.reply with
  | error e => exact inStep_fail _ e _ _ h.session
  | ok a => exact hnext o.subject a _ _ h.session

theorem Outcome.Linked.andThen {o : Outcome σ α ρ} {p : Outcome τ α ρ} (h : o.Linked Q p)
    {next : α → Session σ → Outcome σ α π} {next' : α → Session τ → Outcome τ α π}
    (hnext : ∀ x, InStep Q (next x) (next' x)) :
    (o.andThen next).Linked Q (p.andThen next') := by
  unfold Outcome.andThen
  rw [h.reply, h.subject]
  cases o.reply with
  | error e => exact ⟨rfl, h.session, rfl⟩
  | ok a => exact hnext o.subject _ _ h.session

theorem Session.Linked.note {s : Session σ} {t : Session τ} (h : s.Linked Q t) (r : Record) (x : α)
    {next : Session σ → Outcome σ α ρ} {next' : Session τ → Outcome τ α ρ}
    (hnext : InStep Q next next') : (s.note r x next).Linked Q (t.note r x next') := by
  unfold Session.note
  rw [h.log]
  cases s.log.write r with
  | ok log => exact hnext _ _ ⟨rfl, h.classes, h.shares, h.own⟩
  | error e => exact inStep_fail x e s t h

theorem Session.Linked.keep {s : Session σ} {t : Session τ} (h : s.Linked Q t) (n : Node) :
    (s.keep n).Linked Q (t.keep n) :=
  ⟨h.log, h.classes, congrArg (·.keep n) h.shares, h.own⟩

theorem Session.Linked.settled {s : Session σ} {t : Session τ} (h : s.Linked Q t) :
    s.settled.Linked Q t.settled :=
  ⟨h.log, h.classes, congrArg Shares.settled h.shares, h.own⟩

theorem Outcome.Linked.map {o : Outcome σ α ρ} {p : Outcome τ α ρ} (h : o.Linked Q p)
    (subject : Shares → α → β) (reply : α → ρ → π) :
    (⟨subject o.session.shares o.subject, o.session, o.reply.map (reply o.subject)⟩ :
        Outcome σ β π).Linked Q
      ⟨subject p.session.shares p.subject, p.session, p.reply.map (reply p.subject)⟩ :=
  ⟨by rw [h.subject, h.session.shares], h.session, by rw [h.reply, h.subject]⟩

end Outcomes

section Walk

theorem inStep_callHooks (hook : Hook)
    {call : Visitor σ → Node → Session σ → Outcome σ Node Reply}
    {call' : Visitor τ → Node → Session τ → Outcome τ Node Reply}
    {vs : List (Visitor σ)} {vs' : List (Visitor τ)}
    (h : Forall₂ (fun v v' => v'.label = v.label ∧ ∀ n, InStep Q (call v n) (call' v' n)) vs vs')
    (st : Stand) : InStep Q (callHooks hook call vs st) (callHooks hook call' vs' st) := by
  induction h generalizing st with
  | nil => exact inStep_done st ()
  | @cons v v' vs vs' hv _ ih =>
    intro s t hst
    rw [callHooks_cons, callHooks_cons]
    refine (hv.2 st.node s t hst).follow _ fun n reply => ?_
    intro s t hst
    have hkept := hst.keep n
    dsimp only
    rw [hkept.shares]
    cases Stand.accept (s.keep n).shares { st with node := n } reply with
    | ok st' => exact ih st' _ _ hkept
    | error type =>
      rw [hv.1]
      exact hkept.note _ _ (inStep_fail _ _)

section Fields

variable {visit : Node → Session σ → Outcome σ Node Node}
  {visit' : Node → Session τ → Outcome τ Node Node} (hvisit : ∀ n, InStep Q (visit n) (visit' n))

include hvisit

theorem inStep_walkList (ns : List Node) : InStep Q (walkList visit ns) (walkList visit' ns) := by
  induction ns with
  | nil => exact inStep_done [] []
  | cons n ns ih =>
    intro s t hst
    rw [walkList_cons, walkList_cons, hst.shares]
    refine (hvisit _ s t hst).follow _ fun m n' s t hst => ?_
    exact (ih s t hst).map (fun _ ms => m :: ms) fun _ ns' => n' :: ns'

theorem inStep_walkField (v : Value) : InStep Q (walkField visit v) (walkField visit' v) := by
  intro s t hst
  unfold walkField
  cases v with
  | node n => exact (hvisit n s t hst).map (fun _ => Value.node) fun _ => Value.node
  | list vs =>
    dsimp only
    cases Value.nodesOf? vs with
    | none => exact inStep_done _ _ s t hst
    | some ns =>
      exact (inStep_walkList hvisit ns s t hst).map (fun _ ms => Value.list (ms.map .node))
        fun _ ns => Value.list (ns.map .node)
  | _ => exact inStep_done _ _ s t hst

theorem inStep_walkFields (fields : List Value) :
    InStep Q (walkFields visit fields) (walkFields visit' fields) := by
  induction fields with
  | nil => exact inStep_done [] ()
  | cons v vs ih =>
    intro s t hst
    rw [walkFields_cons, walkFields_cons, hst.shares]
    refine (inStep_walkField hvisit _ s t hst).follow _ fun _ v' s t hst => ?_
    obtain ⟨hsubject, hsession, hreply⟩ := ih s t hst
    exact ⟨congrArg (v' :: ·) hsubject, hsession, hreply⟩

end Fields

theorem inStep_standWalkFields {visit : Nat → Node → Session σ → Outcome σ Node Node}
    {visit' : Nat → Node → Session τ → Outcome τ Node Node}
    (hvisit : ∀ depth n, InStep Q (visit depth n) (visit' depth n)) (st : Stand) :
    InStep Q (st.walkFields visit) (st.walkFields visit') := by
  intro s t hst
  unfold Stand.walkFields
  split
  · rename_i depth first rest _ _
    have hfirst := hvisit depth first s t hst
    dsimp only
    rw [hfirst.reply, hfirst.subject]
    split
    · exact inStep_fail _ _ _ _ hfirst.session
    · obtain ⟨hsubject, hsession, hreply⟩ :=
        inStep_walkFields (hvisit 0) rest _ _ hfirst.session
      exact ⟨by rw [hsubject, hsession.shares], hsession, hreply⟩
  · obtain ⟨hsubject, hsession, hreply⟩ := inStep_walkFields (hvisit 0) st.node.fields s t hst
    refine ⟨?_, hsession, hreply⟩
    dsimp only
    rw [hsubject, hsession.shares]

variable {vs : List (Visitor σ)} {vs' : List (Visitor τ)} (h : Forall₂ (Visitor.InStep Q) vs vs')

include h

theorem inStep_walkNode (limit depth : Nat) (n : Node) :
    InStep Q (walkNode vs limit depth n) (walkNode vs' limit depth n) := by
  induction limit generalizing depth n with
  | zero => exact inStep_fail _ _
  | succ limit ih =>
    intro s t hst
    have henter := inStep_callHooks .enter (h.imp fun _ _ hv => ⟨hv.label, hv.enter⟩)
      ⟨n, .within depth⟩ s t hst
    obtain ⟨hsubject, hsession, hreply⟩ := (henter.andThen fun st =>
      inStep_standWalkFields ih st).andThen fun st =>
        inStep_callHooks .leave (h.imp fun _ _ hv => ⟨hv.label, hv.leave⟩) st
    rw [walkNode, walkNode, hsubject, hreply]
    have hkept := hsession.keep
    exact ⟨by rw [(hkept _).shares], hkept _, rfl⟩

omit h in
theorem inStep_callUnitHooks (hook : Hook)
    {call : Visitor σ → List Node → Session σ → Outcome σ (List Node) Reply}
    {call' : Visitor τ → List Node → Session τ → Outcome τ (List Node) Reply}
    (h : Forall₂ (fun v v' => v'.label = v.label ∧ ∀ unit, InStep Q (call v unit) (call' v' unit))
      vs vs') (roll : Roll) :
    InStep Q (callUnitHooks hook call vs roll) (callUnitHooks hook call' vs' roll) := by
  induction h generalizing roll with
  | nil => exact inStep_done roll ()
  | @cons v v' vs vs' hv _ ih =>
    intro s t hst
    rw [callUnitHooks_cons, callUnitHooks_cons]
    refine (hv.2 roll.nodes s t hst).follow _ fun ns reply => ?_
    intro s t hst
    dsimp only
    rw [hst.shares]
    cases Roll.accept (hook.walked s.shares) { roll with nodes := ns } reply with
    | some roll' => exact ih roll' _ _ hst
    | none =>
      rw [hv.1]
      exact hst.note _ _ (inStep_fail _ _)

omit h in
theorem inStep_rollWalk {visit : Node → Session σ → Outcome σ Node Node}
    {visit' : Node → Session τ → Outcome τ Node Node} (hvisit : ∀ n, InStep Q (visit n) (visit' n))
    (roll : Roll) : InStep Q (roll.walk visit) (roll.walk visit') := by
  intro s t hst
  have hlist := inStep_walkList hvisit roll.nodes _ _ hst.settled
  unfold Roll.walk Roll.conclude
  dsimp only
  rw [hlist.reply, hlist.subject, hlist.session.shares]
  split
  · exact inStep_fail _ _ _ _ hlist.session
  · exact inStep_done _ _ _ _ hlist.session

/-- Walks act alike if their visitors do. -/
theorem inStep_traverse (limit : Nat) (unit : List Node) :
    InStep Q (traverse limit vs unit) (traverse limit vs' unit) := by
  intro s t hst
  have hbefore := inStep_callUnitHooks .before (h.imp fun _ _ hv => ⟨hv.label, hv.before⟩)
    ⟨unit, none⟩ s t hst
  have hunit := (hbefore.andThen fun roll =>
    inStep_rollWalk (inStep_walkNode h limit 0) roll).andThen fun roll =>
      inStep_callUnitHooks .after (h.imp fun _ _ hv => ⟨hv.label, hv.after⟩) roll
  exact hunit.map (fun _ => Roll.start) fun roll _ => roll.nodes

end Walk

/-- Whatever a function does to a session, something stays true of the state of the visitors. -/
def Preserves {α ρ : Type} (I : σ → Prop) (f : Session σ → Outcome σ α ρ) : Prop :=
  ∀ s, I s.own → I (f s).session.own

structure Visitor.Preserves (I : σ → Prop) (v : Visitor σ) : Prop where
  before (unit : List Node) : PropertyRenaming.Preserves I (v.before unit)
  enter (n : Node) : PropertyRenaming.Preserves I (v.enter n)
  leave (n : Node) : PropertyRenaming.Preserves I (v.leave n)
  after (unit : List Node) : PropertyRenaming.Preserves I (v.after unit)

section Invariants

variable {I : σ → Prop}

theorem Preserves.inStep {α ρ : Type} {f : Session σ → Outcome σ α ρ} (h : Preserves I f) :
    InStep (fun a b => a = b ∧ I a) f f := by
  intro s t hst
  obtain ⟨hown, hI⟩ := hst.own
  obtain rfl : t = s := hst.eq_withOwn.trans (by rw [← hown]; rfl)
  exact ⟨rfl, ⟨rfl, rfl, rfl, rfl, h t hI⟩, rfl⟩

/-- What all hooks of all visitors leave true, a walk leaves true, whether it ends or fails. -/
theorem preserves_traverse {vs : List (Visitor σ)} (h : ∀ v ∈ vs, v.Preserves I) (limit : Nat)
    (unit : List Node) : Preserves I (traverse limit vs unit) := by
  intro s hs
  have hvs : Forall₂ (Visitor.InStep fun a b => a = b ∧ I a) vs vs :=
    List.forall₂_same.mpr fun v hv => ⟨rfl, fun unit => ((h v hv).before unit).inStep,
      fun n => ((h v hv).enter n).inStep, fun n => ((h v hv).leave n).inStep,
      fun unit => ((h v hv).after unit).inStep⟩
  exact (inStep_traverse hvs limit unit s s ⟨rfl, rfl, rfl, rfl, hs⟩).session.own.2

theorem Visitor.preserves_idle (label : String) : (Visitor.idle label : Visitor σ).Preserves I :=
  ⟨fun _ _ hs => hs, fun _ _ hs => hs, fun _ _ hs => hs, fun _ _ hs => hs⟩

theorem Visitor.preserves_true (v : Visitor σ) : v.Preserves fun _ => True :=
  ⟨fun _ _ _ => trivial, fun _ _ _ => trivial, fun _ _ _ => trivial, fun _ _ _ => trivial⟩

/-- What a visitor leaves true of its own part is enough, if the whole depends on no more. -/
theorem Visitor.Preserves.focus {J : τ → Prop} {get : τ → σ} {put : σ → τ → τ} {v : Visitor σ}
    (h : v.Preserves I) (hget : ∀ b, J b → I (get b)) (hput : ∀ a b, J b → I a → J (put a b)) :
    (v.focus get put).Preserves J where
  before unit s hs := hput _ _ hs (h.before unit (s.withOwn (get s.own)) (hget _ hs))
  enter n s hs := hput _ _ hs (h.enter n (s.withOwn (get s.own)) (hget _ hs))
  leave n s hs := hput _ _ hs (h.leave n (s.withOwn (get s.own)) (hget _ hs))
  after unit s hs := hput _ _ hs (h.after unit (s.withOwn (get s.own)) (hget _ hs))

end Invariants

section Focus

variable {get : τ → σ} {put : σ → τ → τ} {whole : τ}

theorem inStep_onParts {α ρ : Type} {get' : ρ → σ} {put' : σ → ρ → ρ} {Q : τ → ρ → Prop}
    (hget : ∀ a b, Q a b → get' b = get a) (hput : ∀ c a b, Q a b → Q (put c a) (put' c b))
    (hook : α → Session σ → Outcome σ α Reply) (x : α) :
    InStep Q (Visitor.onPart get put hook x) (Visitor.onPart get' put' hook x) := by
  intro s t hst
  have hpart : t.withOwn (get' t.own) = s.withOwn (get s.own) := by
    rw [hget _ _ hst.own, hst.eq_withOwn]
    rfl
  unfold Visitor.onPart
  rw [hpart]
  exact ⟨rfl, ⟨rfl, rfl, rfl, hput _ _ _ hst.own⟩, rfl⟩

theorem inStep_focuses {ρ : Type} {get' : ρ → σ} {put' : σ → ρ → ρ} {Q : τ → ρ → Prop}
    (hget : ∀ a b, Q a b → get' b = get a) (hput : ∀ c a b, Q a b → Q (put c a) (put' c b))
    (v : Visitor σ) : Visitor.InStep Q (v.focus get put) (v.focus get' put') where
  label := rfl
  before := inStep_onParts hget hput v.before
  enter := inStep_onParts hget hput v.enter
  leave := inStep_onParts hget hput v.leave
  after := inStep_onParts hget hput v.after

/-- A visitor of a part of a state acts as the visitor alone, as long as the rest stays what it
was. -/
theorem inStep_focus (hget : ∀ a, get (put a whole) = a)
    (hput : ∀ a a', put a (put a' whole) = put a whole) (v : Visitor σ) :
    Visitor.InStep (fun a b => b = put a whole) v (v.focus get put) := by
  change Visitor.InStep _ (v.focus id fun a _ => a) _
  refine inStep_focuses ?_ ?_ v
  · rintro a _ rfl
    exact hget a
  · rintro c a _ rfl
    exact hput c a

theorem traverse_of_inStep {whole : σ → τ} {vs : List (Visitor σ)} {vs' : List (Visitor τ)}
    (h : Forall₂ (Visitor.InStep fun a b => b = whole a) vs vs') {part : σ} {s : Session τ}
    (hs : s.own = whole part) (limit : Nat) (unit : List Node) :
    traverse limit vs' unit s =
      let o := traverse limit vs unit (s.withOwn part)
      ⟨o.subject, o.session.withOwn (whole o.session.own), o.reply⟩ := by
  have hwalk := inStep_traverse h limit unit (s.withOwn part) s ⟨rfl, rfl, rfl, hs⟩
  have hsession := hwalk.session.eq_withOwn
  rw [hwalk.session.own] at hsession
  generalize traverse limit vs' unit s = o at *
  obtain ⟨subject, session, reply⟩ := o
  obtain ⟨rfl, -, rfl⟩ := hwalk
  obtain rfl := hsession
  rfl

/-- A walk that uses a part of a state is the walk of that part, put back into the whole. -/
theorem traverse_focus (hget : ∀ a, get (put a whole) = a)
    (hput : ∀ a a', put a (put a' whole) = put a whole) (v : Visitor σ) {part : σ}
    {s : Session τ} (hs : s.own = put part whole) (limit : Nat) (unit : List Node) :
    traverse limit [v.focus get put] unit s =
      let o := traverse limit [v] unit (s.withOwn part)
      ⟨o.subject, o.session.withOwn (put o.session.own whole), o.reply⟩ :=
  traverse_of_inStep (.cons (inStep_focus hget hput v) .nil) hs limit unit

end Focus

end PropertyRenaming
