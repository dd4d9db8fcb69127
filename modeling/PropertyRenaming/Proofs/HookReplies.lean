import PropertyRenaming.Proofs.UnsharedWalk
import PropertyRenaming.Tree.Decidable

namespace PropertyRenaming

open Value (Updated)

section Giving

variable {Now : Value → Value → Prop} [IsPreorder Value Now] {who : List (Nat × String)}

/-- The node that an answer puts in the place of the one it is about. -/
def Exchange.given? (x : Exchange) : Option Node :=
  match x.call, x.reply with
  | .step step, .ok (.wrap kind) => some (.wrapping kind step.node)
  | .step _, .ok (.give (.node n)) => some n
  | _, _ => none

/-- What a node has become after some answers: the last node that was given, if one was. -/
def lastGiven (n : Node) (xs : List Exchange) : Node :=
  ((xs.filterMap Exchange.given?).getLast?).getD n

theorem lastGiven_cons (n : Node) (x : Exchange) (xs : List Exchange) :
    lastGiven n (x :: xs) = lastGiven (x.given?.getD n) xs := by
  unfold lastGiven
  cases hx : x.given? with
  | none => rw [List.filterMap_cons_none hx, Option.getD_none]
  | some m =>
    rw [List.filterMap_cons_some hx, List.getLast?_cons, Option.getD_some, Option.getD_some]

theorem lastGiven_now {n m : Node} (h : OnNodes Now n m) (xs : List Exchange) :
    OnNodes Now (lastGiven n xs) (lastGiven m xs) := by
  unfold lastGiven
  cases (xs.filterMap Exchange.given?).getLast? with
  | none => exact h
  | some k => exact refl_of Now _

theorem Taken.given {st st' : Stand} {reply : Reply} (h : Taken Now st reply st') (i : Nat)
    (label : String) {step : Step} (hstep : step.node = st.node) :
    OnNodes Now ((Exchange.given? ⟨i, label, .step step, .ok reply⟩).getD st.node) st'.node := by
  cases h with
  | keep | same => exact refl_of Now _
  | wrap kind =>
    have hwrapped : (st.wrap kind).node = .wrapping kind step.node := by
      rw [hstep]
      rfl
    rw [hwrapped]
    exact refl_of Now _
  | give hnow => exact hnow

/-- What comes out of a round of all visitors is the last node that was given. -/
theorem Passed.lastGiven {step : Node → Step} (hstep : ∀ n, (step n).node = n) {st st' : Stand}
    {xs : List Exchange} (h : Passed Now step who st xs st') :
    OnNodes Now (PropertyRenaming.lastGiven st.node xs) st'.node := by
  induction h with
  | nil => exact refl_of Now _
  | @cons i label who st st₁ st₂ reply xs htaken _ ih =>
    rw [lastGiven_cons]
    exact trans_of Now (lastGiven_now (htaken.given i label (hstep _)) xs) ih

/-- The node that is walked is the last one given on entering, or else the one that stood there; and
what has become of it is the last one given on leaving, or else the one that was walked. -/
theorem Visited.lastGiven {depth : Nat} {n left became : Node} {xs : List Exchange}
    (h : Visited Now who depth n xs left became) :
    ∃ ys zs ws st st', xs = ys ++ zs ++ ws ∧
      OnNodes Now (PropertyRenaming.lastGiven n ys) st.node ∧ Walked Now who st zs st' ∧
      OnNodes Now (PropertyRenaming.lastGiven st'.node ws) became := by
  cases h with
  | mk hentered hwalked hleaving _ =>
    exact ⟨_, _, _, _, _, rfl, hentered.lastGiven fun _ => rfl, hwalked,
      hleaving.lastGiven fun _ => rfl⟩

omit [IsPreorder Value Now] in
theorem AllVisited.length_eq {ns left became : List Node} {xs : List Exchange} :
    AllVisited Now who ns xs left became → became.length = ns.length
  | .nil => rfl
  | .cons _ _ h => congrArg (· + 1) h.length_eq

end Giving

section Returning

variable {σ α : Type}

def Returns (hook : α → Session σ → Outcome σ α Reply) : Prop :=
  ∀ x s, ∃ reply, (hook x s).reply = .ok reply

structure Visitor.Returns (v : Visitor σ) : Prop where
  before : PropertyRenaming.Returns v.before
  enter : PropertyRenaming.Returns v.enter
  leave : PropertyRenaming.Returns v.leave
  after : PropertyRenaming.Returns v.after

/-- What is put down of visitors that do not fail: each exchange is with one of them, and has an
answer. -/
def AllAnswered (vs : List (Visitor σ)) (xs : List Exchange) : Prop :=
  ∀ x ∈ xs, (∃ v, vs[x.position]? = some v ∧ x.label = v.label) ∧ ∃ reply, x.reply = .ok reply

variable {vs : List (Visitor σ)}

theorem preserves_overheardHook {v : Visitor σ} {i : Nat} (hv : vs[i]? = some v)
    {hook : α → Session σ → Outcome σ α Reply} (h : Returns hook) (call : α → Call) (x : α) :
    Preserves (fun journal : Journal σ => AllAnswered vs journal.1)
      (overheardHook i v.label call hook x) := by
  intro s hs y hy
  rcases List.mem_append.mp hy with hy | hy
  · exact hs y hy
  · obtain rfl := List.mem_singleton.mp hy
    exact ⟨⟨v, hv, rfl⟩, h x _⟩

theorem answered_exchanges (hvs : ∀ v ∈ vs, v.Returns) (limit : Nat) (unit : List Node)
    (s : Session σ) : AllAnswered vs (exchanges limit vs unit s) := by
  refine preserves_traverse (I := fun journal : Journal σ => AllAnswered vs journal.1) ?_ limit unit
    (s.withOwn ([], s.own)) nofun
  intro w hw
  obtain ⟨⟨v, i⟩, hp, rfl⟩ := List.mem_map.mp hw
  have hv : vs[i]? = some v := List.mk_mem_zipIdx_iff_getElem?.mp hp
  have hreturns := hvs v (List.mem_of_getElem? hv)
  exact ⟨preserves_overheardHook hv hreturns.before .before,
    preserves_overheardHook hv hreturns.enter _, preserves_overheardHook hv hreturns.leave _,
    preserves_overheardHook hv hreturns.after .after⟩

theorem Exchange.fault?_eq {x : Exchange} (h : ∃ reply, x.reply = .ok reply) :
    x.fault? = if x.isWrong then some x.complaint else none := by
  obtain ⟨reply, hreply⟩ := h
  rw [fault?, hreply]

/-- A walk has ended with an answer of the wrong type, the first one and the last that it hears. -/
def Caught (vs : List (Visitor σ)) (heard : List Exchange) (e : Fault) : Prop :=
  ∃ good x v, heard = good ++ [x] ∧ (∀ y ∈ good, y.isWrong = false) ∧ x.isWrong = true ∧
    vs[x.position]? = some v ∧ x.label = v.label ∧ e = x.complaint

theorem returned_or_caught {limit : Nat} {unit : List Node} {s : Session σ}
    (hvs : ∀ v ∈ vs, v.MutatesNothing ∧ v.Returns)
    (hends : (traverse limit vs unit s).reply ≠ .error .tooDeep) :
    let heard := exchanges limit vs unit s
    (∃ roll, (traverse limit vs unit s).reply = .ok roll.nodes ∧
        (∀ x ∈ heard, x.isWrong = false) ∧
        Returned Updated (roster vs.zipIdx) unit heard roll) ∨
      ∃ e, (traverse limit vs unit s).reply = .error e ∧ Caught vs heard e := by
  intro heard
  have hending := ending_exchanges (fun v hv => (hvs v hv).1) limit unit s
  have hanswered := answered_exchanges (fun v hv => (hvs v hv).2) limit unit s
  have hright : ∀ x ∈ heard, x.fault? = none → x.isWrong = false := by
    intro x hx hnone
    rw [Exchange.fault?_eq (hanswered x hx).2] at hnone
    simpa using hnone
  rw [show exchanges limit vs unit s = heard from rfl] at hending hanswered
  generalize (traverse limit vs unit s).reply = reply at hending hends ⊢
  cases hending with
  | done hgood hreturned =>
    obtain ⟨roll, hreturned, -, rfl⟩ := hreturned
    exact Or.inl ⟨roll, rfl, fun x hx => hright x hx (hgood x hx), hreturned⟩
  | @stuck good x e hheard hgood hlast _ =>
    -- Since no hook fails, the fault of the last exchange is a complaint.
    have hx : x ∈ heard := by simp [hheard]
    obtain ⟨⟨v, hv, hlabel⟩, hreply⟩ := hanswered x hx
    rw [Exchange.fault?_eq hreply] at hlast
    obtain ⟨hwrong, rfl⟩ : x.isWrong = true ∧ x.complaint = e := by simpa using hlast
    have hothers : ∀ y ∈ good, y.isWrong = false := fun y hy =>
      hright y (by simp [hheard, hy]) (hgood y hy)
    exact Or.inr ⟨_, rfl, good, x, v, hheard, hothers, hwrong, hv, hlabel, rfl⟩
  | cut _ => exact absurd rfl hends

/-- Visitors that neither fail nor touch a node may answer with anything. A walk then fails just if
an answer is of the wrong type; that is the last one it hears, and the fault names its visitor and
hook. If the walk returns, its answers account for the result, where shared nodes are told as they
are by then: see `Visited.lastGiven` and `AllVisited.length_eq`. -/
theorem traverse_catches_wrong_answers {limit : Nat} {unit : List Node} {s : Session σ}
    (hvs : ∀ v ∈ vs, v.MutatesNothing ∧ v.Returns)
    (hends : (traverse limit vs unit s).reply ≠ .error .tooDeep) :
    let o := traverse limit vs unit s
    let heard := exchanges limit vs unit s
    let who := roster vs.zipIdx
    o.Linked (fun own journal => journal.2 = own) (overheardWalk limit vs unit s) ∧
      ((∃ e, o.reply = .error e) ↔ ∃ x ∈ heard, x.isWrong = true) ∧
      (∀ e, o.reply = .error e → Caught vs heard e) ∧
      ∀ nodes, o.reply = .ok nodes → ∃ roll, nodes = roll.nodes ∧
        Returned Updated who unit heard roll ∧
        ((∀ n ∈ unit, n.Unshared) → (∀ x ∈ heard, x.Fresh) → Returned Eq who unit heard roll) := by
  intro o heard who
  have hcases := returned_or_caught hvs hends
  have hlinked := linked_overheardWalk limit vs unit s
  rcases hcases with ⟨roll, hreply, hright, hreturned⟩ | ⟨e, hreply, hcaught⟩
  · refine ⟨hlinked, ⟨?_, ?_⟩, ?_, ?_⟩
    · rintro ⟨e, he⟩
      exact absurd (hreply.symm.trans he) nofun
    · rintro ⟨x, hx, hwrong⟩
      exact absurd (hright x hx) (by simp [hwrong])
    · intro e he
      exact absurd (hreply.symm.trans he) nofun
    · intro nodes hnodes
      exact ⟨roll, Except.ok.inj (hnodes.symm.trans hreply), hreturned, hreturned.plain⟩
  · refine ⟨hlinked, ⟨fun _ => ?_, fun _ => ⟨e, hreply⟩⟩, ?_, ?_⟩
    · obtain ⟨good, x, -, hheard, -, hwrong, -⟩ := hcaught
      exact ⟨x, by simp [heard, hheard], hwrong⟩
    · intro e' he'
      obtain rfl := Except.error.inj (hreply.symm.trans he')
      exact hcaught
    · intro nodes hnodes
      exact absurd (hreply.symm.trans hnodes) nofun

end Returning

section Sample

def answerTo (kind : Kind) (reply : Reply) (n : Node) : Except Fault Reply :=
  .ok (if n.kind = kind then reply else .keep)

theorem returns_answerTo (label : String) (kind : Kind) (reply : Reply) :
    (leavingVisitor label (answerTo kind reply)).Returns :=
  ⟨fun _ _ => ⟨_, rfl⟩, fun _ _ => ⟨_, rfl⟩, fun _ _ => ⟨_, rfl⟩, fun _ _ => ⟨_, rfl⟩⟩

/-- Names of classes are wrapped, which goes well, and then a statement is to become a text. -/
theorem traverse_catches_wrong_answers_sample :
    let wrapping := leavingVisitor "Wrapping" (answerTo .className (.wrap .exprStmt))
    let stray := leavingVisitor "Stray" (answerTo .returnStmt (.give (.str "gone")))
    let s : Session Unit := { own := () }
    (∀ v ∈ [wrapping, stray], v.MutatesNothing ∧ v.Returns) ∧
      (traverse 2 [wrapping, stray] sharingUnit s).reply =
        .error (.badNodeReply "Stray" .leave "str") ∧
      Caught [wrapping, stray] (exchanges 2 [wrapping, stray] sharingUnit s)
        (.badNodeReply "Stray" .leave "str") ∧
      ∃ roll, (traverse 2 [wrapping] sharingUnit s).reply = .ok roll.nodes ∧
        Returned Updated (roster [wrapping].zipIdx) sharingUnit
          (exchanges 2 [wrapping] sharingUnit s) roll := by
  intro wrapping stray s
  have hvs : ∀ v ∈ [wrapping, stray], v.MutatesNothing ∧ v.Returns := by
    intro v hv
    rcases List.mem_pair.mp hv with rfl | rfl <;>
      exact ⟨mutatesNothing_leavingVisitor _ _, returns_answerTo _ _ _⟩
  have hwrong : (traverse 2 [wrapping, stray] sharingUnit s).reply =
      .error (.badNodeReply "Stray" .leave "str") := by
    decide +kernel
  have hsome : ∃ nodes, (traverse 2 [wrapping] sharingUnit s).reply = .ok nodes := by
    have h : (traverse 2 [wrapping] sharingUnit s).reply.map List.length = .ok 2 := by
      decide +kernel
    cases hreply : (traverse 2 [wrapping] sharingUnit s).reply with
    | error e => simp [hreply, Except.map] at h
    | ok nodes => exact ⟨nodes, rfl⟩
  obtain ⟨nodes, hnodes⟩ := hsome
  obtain ⟨-, -, hcaught, -⟩ := traverse_catches_wrong_answers hvs (by rw [hwrong]; nofun)
  obtain ⟨-, -, -, hreturned⟩ := traverse_catches_wrong_answers
    (fun v hv => hvs v (List.mem_cons.mpr (Or.inl (List.mem_singleton.mp hv))))
    (by rw [hnodes]; nofun)
  obtain ⟨roll, rfl, hroll, -⟩ := hreturned nodes hnodes
  exact ⟨hvs, hwrong, hcaught _ hwrong, roll, hnodes, hroll⟩

end Sample

end PropertyRenaming
