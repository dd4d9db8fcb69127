import PropertyRenaming.Proofs.CallOrder

namespace PropertyRenaming

open List (Forall₂)

section Answers

def Step.hook : Step → Hook
  | .enter _ => .enter
  | .leave _ => .leave

def Call.hook : Call → Hook
  | .before _ => .before
  | .step at' => at'.hook
  | .after _ => .after

/-- Whether an answer can take the place of a node. Without an opinion it stays. -/
def Reply.fitsNode : Reply → Bool
  | .keep | .same | .wrap _ => true
  | .give v => v.isNode

/-- Whether an answer can take the place of a unit: it is a list of nodes and of nothing else. -/
def Reply.fitsUnit : Reply → Bool
  | .keep | .same => true
  | .give (.list vs) => vs.all Value.isNode
  | .wrap _ | .give _ => false

/-- A call of a hook, and what came of it. -/
structure Exchange where
  /-- The position of the visitor. -/
  position : Nat
  label : String
  call : Call
  reply : Except Fault Reply

namespace Exchange

def isWrong (x : Exchange) : Bool :=
  match x.call, x.reply with
  | _, .error _ => false
  | .step _, .ok reply => !reply.fitsNode
  | .before _, .ok reply | .after _, .ok reply => !reply.fitsUnit

def complaint (x : Exchange) : Fault :=
  match x.call, x.reply with
  | .step step, .ok (.give v) => .badNodeReply x.label step.hook v.typeName
  | call, _ => .badUnitReply x.label call.hook

/-- The fault that a walk ends with after an exchange, if it does. -/
def fault? (x : Exchange) : Option Fault :=
  match x.reply with
  | .error e => some e
  | .ok _ => if x.isWrong then some x.complaint else none

section

variable {i : Nat} {label : String} {step : Step} {call : Call} {reply : Reply}

theorem fault?_of_fitsNode (h : reply.fitsNode = true) :
    fault? ⟨i, label, .step step, .ok reply⟩ = none := by
  simp [fault?, isWrong, h]

theorem fault?_of_not_node {v : Value} (h : (Reply.give v).fitsNode = false) :
    fault? ⟨i, label, .step step, .ok (.give v)⟩ =
      some (.badNodeReply label step.hook v.typeName) := by
  simp [fault?, isWrong, h, complaint]

theorem fault?_unit (hcall : ∀ step, call ≠ .step step) :
    fault? ⟨i, label, call, .ok reply⟩ =
      if reply.fitsUnit then none else some (.badUnitReply label call.hook) := by
  cases call with
  | step step => exact absurd rfl (hcall step)
  | before unit => cases h : reply.fitsUnit <;> simp [fault?, isWrong, h, complaint]
  | after unit => cases h : reply.fitsUnit <;> simp [fault?, isWrong, h, complaint]

end

end Exchange

theorem Stand.accept_eq_ok (t : Shares) (st : Stand) {reply : Reply}
    (h : reply.fitsNode = true) : ∃ st', st.accept t reply = .ok st' := by
  cases reply with
  | give v =>
    cases v with
    | node n => exact ⟨_, rfl⟩
    | _ => simp [Reply.fitsNode, Value.isNode] at h
  | _ => exact ⟨_, rfl⟩

theorem Stand.accept_eq_error (t : Shares) (st : Stand) {reply : Reply}
    (h : reply.fitsNode = false) :
    ∃ v, reply = .give v ∧ st.accept t reply = .error v.typeName := by
  cases reply with
  | give v =>
    refine ⟨v, rfl, ?_⟩
    cases v with
    | node n => simp [Reply.fitsNode, Value.isNode] at h
    | _ => rfl
  | _ => simp [Reply.fitsNode] at h

theorem Roll.isSome_accept (t : Shares) (r : Roll) (reply : Reply) :
    (r.accept t reply).isSome = reply.fitsUnit := by
  cases reply with
  | give v =>
    cases v with
    | list vs => simp [Roll.accept, Reply.fitsUnit, Value.all_isNode_eq]
    | _ => rfl
  | _ => rfl

end Answers

section Overhearing

variable {σ α : Type}

abbrev Journal (σ : Type) := List Exchange × σ

/-- A hook whose exchanges are put down. -/
def overheardHook (i : Nat) (label : String) (call : α → Call)
    (hook : α → Session σ → Outcome σ α Reply) (x : α) (s : Session (Journal σ)) :
    Outcome (Journal σ) α Reply :=
  let o := hook x (s.withOwn s.own.2)
  ⟨o.subject, o.session.withOwn (s.own.1 ++ [⟨i, label, call x, o.reply⟩], o.session.own), o.reply⟩

def Visitor.overheard (v : Visitor σ) (i : Nat) : Visitor (Journal σ) where
  label := v.label
  before := overheardHook i v.label .before v.before
  enter := overheardHook i v.label (fun n => .step (.enter n)) v.enter
  leave := overheardHook i v.label (fun n => .step (.leave n)) v.leave
  after := overheardHook i v.label .after v.after

def overhearAll (vs : List (Visitor σ)) : List (Visitor (Journal σ)) :=
  vs.zipIdx.map fun p => p.1.overheard p.2

def overheardWalk (limit : Nat) (vs : List (Visitor σ)) (unit : List Node) (s : Session σ) :
    Outcome (Journal σ) (List Node) (List Node) :=
  traverse limit (overhearAll vs) unit (s.withOwn ([], s.own))

def exchanges (limit : Nat) (vs : List (Visitor σ)) (unit : List Node) (s : Session σ) :
    List Exchange :=
  (overheardWalk limit vs unit s).session.own.1

theorem inStep_overheardHook (i : Nat) (label : String) (call : α → Call)
    (hook : α → Session σ → Outcome σ α Reply) (x : α) :
    InStep (fun a b => b.2 = a) (hook x) (overheardHook i label call hook x) :=
  inStep_beside fun _ => ⟨_, rfl⟩

theorem Visitor.inStep_overheard (v : Visitor σ) (i : Nat) :
    Visitor.InStep (fun a b => b.2 = a) v (v.overheard i) where
  label := rfl
  before := inStep_overheardHook i v.label .before v.before
  enter := inStep_overheardHook i v.label (fun n => .step (.enter n)) v.enter
  leave := inStep_overheardHook i v.label (fun n => .step (.leave n)) v.leave
  after := inStep_overheardHook i v.label .after v.after

/-- A walk is the same whether it is overheard or not. -/
theorem linked_overheardWalk (limit : Nat) (vs : List (Visitor σ)) (unit : List Node)
    (s : Session σ) :
    (traverse limit vs unit s).Linked (fun a b => b.2 = a) (overheardWalk limit vs unit s) :=
  inStep_traverse_beside Visitor.inStep_overheard limit vs unit s []

/-- A hook that leaves the nodes alone. It may fail and answer with anything. -/
def MutatesNothing (hook : α → Session σ → Outcome σ α Reply) : Prop :=
  ∀ x s, (hook x s).subject = x ∧ (hook x s).session.shares = s.shares

structure Visitor.MutatesNothing (v : Visitor σ) : Prop where
  before : PropertyRenaming.MutatesNothing v.before
  enter : PropertyRenaming.MutatesNothing v.enter
  leave : PropertyRenaming.MutatesNothing v.leave
  after : PropertyRenaming.MutatesNothing v.after

structure Overheard (i : Nat) (label : String) (call : Call) (x : α) (s : Session (Journal σ))
    (o : Outcome (Journal σ) α Reply) : Prop where
  subject : o.subject = x
  shares : o.session.shares = s.shares
  journal : o.session.own.1 = s.own.1 ++ [⟨i, label, call, o.reply⟩]

theorem MutatesNothing.overheard {hook : α → Session σ → Outcome σ α Reply}
    (h : PropertyRenaming.MutatesNothing hook) (i : Nat) (label : String) (call : α → Call) (x : α)
    (s : Session (Journal σ)) :
    Overheard i label (call x) x s (overheardHook i label call hook x s) :=
  ⟨(h x _).1, (h x _).2, rfl⟩

end Overhearing

section Sharing

/-- What is kept of shared nodes is kept under their own numbers. -/
def Shares.Faithful (t : Shares) : Prop := ∀ e ∈ t.latest, e.2.place.share = some e.1

/-- The same value, where shared nodes in it may be brought up to date. -/
def Value.Updated (v u : Value) : Prop := ∃ t : Shares, t.Faithful ∧ u = t.refresh v

theorem Shares.faithful_settled (t : Shares) : t.settled.Faithful := nofun

theorem Node.share_putShared {id : ShareId} {new : Node} (hnew : new.place.share = some id)
    (n : Node) : (Node.putShared id new n).place.share = n.place.share := by
  obtain ⟨kind, place, fields⟩ := n
  rw [Node.putShared]
  split
  · rename_i hid
    rw [hnew, hid]
  · rfl

theorem Shares.Faithful.keep {t : Shares} (ht : t.Faithful) (n : Node) : (t.keep n).Faithful := by
  unfold Shares.keep
  split
  · exact ht
  · rename_i id hid
    rintro e he
    rcases List.mem_cons.mp he with rfl | he
    · exact hid
    · obtain ⟨e', he', rfl⟩ := List.mem_map.mp he
      rw [Node.share_putShared hid]
      exact ht e' (List.mem_filter.mp he').1

theorem Shares.Faithful.updated {t : Shares} (ht : t.Faithful) (v : Value) :
    v.Updated (t.refresh v) := ⟨t, ht, rfl⟩

theorem Shares.Faithful.updatedNode {t : Shares} (ht : t.Faithful) (n : Node) :
    (Value.node n).Updated (.node (t.refreshNode n)) := ⟨t, ht, (t.refresh_node n).symm⟩

theorem Value.Updated.refl (v : Value) : v.Updated v := ⟨{}, nofun, rfl⟩

theorem Value.Updated.trans {v u w : Value} (h : v.Updated u) (h' : u.Updated w) :
    v.Updated w := by
  obtain ⟨t, ht, rfl⟩ := h
  obtain ⟨t', ht', rfl⟩ := h'
  refine ⟨{ latest := t.latest ++ t'.latest }, List.forall_mem_append.mpr ⟨ht, ht'⟩, ?_⟩
  exact List.foldl_append.symm

instance : IsPreorder Value Value.Updated where
  refl := .refl
  trans _ _ _ := .trans

end Sharing

section Relations

variable (Now : Value → Value → Prop) (who : List (Nat × String))

abbrev OnNodes (n m : Node) : Prop := Now (.node n) (.node m)

inductive Taken (st : Stand) : Reply → Stand → Prop
  | keep : Taken st .keep st
  | same : Taken st .same st
  | wrap (kind : Kind) : Taken st (.wrap kind) (st.wrap kind)
  | give {n m : Node} : OnNodes Now n m → Taken st (.give (.node n)) (st.replace m)

/-- A node goes through the hooks of the visitors in turn, and each answer is taken up. -/
inductive Passed (step : Node → Step) :
    List (Nat × String) → Stand → List Exchange → Stand → Prop
  | nil {st : Stand} : Passed step [] st [] st
  | cons {i : Nat} {label : String} {who : List (Nat × String)} {st st₁ st₂ : Stand} {reply : Reply}
      {xs : List Exchange} : Taken Now st reply st₁ → Passed step who st₁ xs st₂ →
      Passed step ((i, label) :: who) st (⟨i, label, .step (step st.node), .ok reply⟩ :: xs) st₂

/-- A node goes through the hooks until one fails or answers with something of no use. -/
inductive Halted (step : Node → Step) :
    List (Nat × String) → Stand → List Exchange → Stand → Prop
  | here {i : Nat} {label : String} {who : List (Nat × String)} {st : Stand} {x : Exchange} :
      x.position = i → x.label = label → x.call = .step (step st.node) → x.fault?.isSome = true →
      Halted step ((i, label) :: who) st [x] st
  | later {i : Nat} {label : String} {who : List (Nat × String)} {st st₁ st₂ : Stand}
      {reply : Reply} {xs : List Exchange} : Taken Now st reply st₁ →
      Halted step who st₁ xs st₂ →
      Halted step ((i, label) :: who) st (⟨i, label, .step (step st.node), .ok reply⟩ :: xs) st₂

/-- The first field of the current node, if the node that the walk started from is in it, and how
far down. -/
def Stand.inFirst? (st : Stand) : Option (Nat × Node × List Value) :=
  match st.origin, st.node.fields with
  | .within (depth + 1), .node first :: rest => some (depth, first, rest)
  | _, _ => none

mutual

/-- A visit that returns. The node is entered, then the fields of what has become of it are walked,
then that is left. Told are how the node is left that stood `depth` first fields below, and what has
become of the node itself; what it is replaced by on leaving makes no difference to the first. -/
inductive Visited : (depth : Nat) → Node → List Exchange → Node → Node → Prop
  | mk {depth : Nat} {n left : Node} {st st₁ st₂ : Stand} {xs ys zs : List Exchange} :
      Passed Now .enter who ⟨n, .within depth⟩ xs st → Walked st ys st₁ →
      Passed Now .leave who st₁ zs st₂ → OnNodes Now st₁.start left →
      Visited depth n (xs ++ ys ++ zs) left st₂.node

/-- The fields of the current node have been walked, and hold what has become of them. -/
inductive Walked : Stand → List Exchange → Stand → Prop
  | fields {st : Stand} {xs : List Exchange} {us us' : List Value} : st.inFirst? = none →
      FieldsWalked st.node.fields xs us → Forall₂ Now us us' →
      Walked st xs ⟨{ st.node with fields := us' }, st.origin⟩
  | around {st : Stand} {xs ys : List Exchange} {depth : Nat} {first left left' became : Node}
      {rest us us' : List Value} : st.inFirst? = some (depth, first, rest) →
      Visited depth first xs left became → FieldsWalked rest ys us → OnNodes Now left left' →
      Forall₂ Now (.node became :: us) us' →
      Walked st (xs ++ ys) ⟨{ st.node with fields := us' }, .apart left'⟩

/-- Fields have been walked, one after the other. Each is first brought up to date, since a shared
node in it may have been visited before. -/
inductive FieldsWalked : List Value → List Exchange → List Value → Prop
  | nil : FieldsWalked [] [] []
  | cons {v v' left became : Value} {vs us : List Value} {xs ys : List Exchange} : Now v v' →
      FieldWalked v' xs left became → FieldsWalked vs ys us →
      FieldsWalked (v :: vs) (xs ++ ys) (became :: us)

/-- A field has been walked. Told are how its nodes are left, and what has become of them. -/
inductive FieldWalked : Value → List Exchange → Value → Value → Prop
  | node {n left became : Node} {xs : List Exchange} : Visited 0 n xs left became →
      FieldWalked (.node n) xs (.node left) (.node became)
  | nodes {ns left became : List Node} {xs : List Exchange} : AllVisited ns xs left became →
      FieldWalked (.list (ns.map .node)) xs (.list (left.map .node)) (.list (became.map .node))
  | other {v : Value} : v.children = [] → FieldWalked v [] v v

/-- Siblings have been visited, one after the other. Each is first brought up to date too. -/
inductive AllVisited : List Node → List Exchange → List Node → List Node → Prop
  | nil : AllVisited [] [] [] []
  | cons {n n' left became : Node} {ns lefts becames : List Node} {xs ys : List Exchange} :
      OnNodes Now n n' → Visited 0 n' xs left became → AllVisited ns ys lefts becames →
      AllVisited (n :: ns) (xs ++ ys) (left :: lefts) (became :: becames)

end

mutual

/-- A visit that is aborted, and where it stands then. -/
inductive Aborted : (depth : Nat) → Node → List Exchange → Stand → Prop
  | entering {depth : Nat} {n : Node} {st : Stand} {xs : List Exchange} :
      Halted Now .enter who ⟨n, .within depth⟩ xs st → Aborted depth n xs st
  | inside {depth : Nat} {n : Node} {st st₁ : Stand} {xs ys : List Exchange} :
      Passed Now .enter who ⟨n, .within depth⟩ xs st → AbortedBelow st ys st₁ →
      Aborted depth n (xs ++ ys) st₁
  | leaving {depth : Nat} {n : Node} {st st₁ st₂ : Stand} {xs ys zs : List Exchange} :
      Passed Now .enter who ⟨n, .within depth⟩ xs st → Walked Now who st ys st₁ →
      Halted Now .leave who st₁ zs st₂ → Aborted depth n (xs ++ ys ++ zs) st₂

/-- The walk is aborted below the current node. A node that holds the first one is told as it was
walked into: it still holds that first node, and the aborted visit tells how that one is left. -/
inductive AbortedBelow : Stand → List Exchange → Stand → Prop
  | fields {st : Stand} {xs : List Exchange} {us us' : List Value} : st.inFirst? = none →
      FieldsAborted st.node.fields xs us → Forall₂ Now us us' →
      AbortedBelow st xs ⟨{ st.node with fields := us' }, st.origin⟩
  | first {st st₁ : Stand} {xs : List Exchange} {depth : Nat} {first left : Node}
      {rest : List Value} : st.inFirst? = some (depth, first, rest) → Aborted depth first xs st₁ →
      OnNodes Now st₁.start left → AbortedBelow st xs ⟨st.node, .apart left⟩
  | rest {st : Stand} {xs ys : List Exchange} {depth : Nat} {first left left' became : Node}
      {rest us us' : List Value} : st.inFirst? = some (depth, first, rest) →
      Visited Now who depth first xs left became → FieldsAborted rest ys us →
      OnNodes Now left left' → Forall₂ Now (.node became :: us) us' →
      AbortedBelow st (xs ++ ys) ⟨{ st.node with fields := us' }, .apart left'⟩

/-- Of the fields, those before the one in which the walk is aborted hold what has become of them,
that one holds its nodes as they are left, and those after it are as they were. -/
inductive FieldsAborted : List Value → List Exchange → List Value → Prop
  | mk {earlier done later : List Value} {v v' left : Value} {xs ys : List Exchange} :
      FieldsWalked Now who earlier xs done → Now v v' → FieldAborted v' ys left →
      FieldsAborted (earlier ++ v :: later) (xs ++ ys) (done ++ left :: later)

/-- A field still holds its own nodes if the walk is aborted below one of them. -/
inductive FieldAborted : Value → List Exchange → Value → Prop
  | node {n left : Node} {st : Stand} {xs : List Exchange} : Aborted 0 n xs st →
      OnNodes Now st.start left → FieldAborted (.node n) xs (.node left)
  | nodes {ns left : List Node} {xs : List Exchange} : AllAborted ns xs left →
      FieldAborted (.list (ns.map .node)) xs (.list (left.map .node))

/-- Of siblings, those before the one whose visit is aborted are as their visits have left them, and
those after it are as they were. -/
inductive AllAborted : List Node → List Exchange → List Node → Prop
  | mk {earlier lefts became later : List Node} {n n' left : Node} {st : Stand}
      {xs ys : List Exchange} : AllVisited Now who earlier xs lefts became → OnNodes Now n n' →
      Aborted 0 n' ys st → OnNodes Now st.start left →
      AllAborted (earlier ++ n :: later) (xs ++ ys) (lefts ++ left :: later)

end

inductive UnitTaken (roll : Roll) : Reply → Roll → Prop
  | keep : UnitTaken roll .keep roll
  | same : UnitTaken roll .same roll
  | give {ns ms : List Node} : Forall₂ (OnNodes Now) ns ms →
      UnitTaken roll (.give (.list (ns.map .node))) ⟨ms, some roll.start⟩

/-- A unit goes through the hooks of the visitors in turn, and each answer is taken up. -/
inductive UnitPassed (call : List Node → Call) :
    List (Nat × String) → Roll → List Exchange → Roll → Prop
  | nil {roll : Roll} : UnitPassed call [] roll [] roll
  | cons {i : Nat} {label : String} {who : List (Nat × String)} {roll roll₁ roll₂ : Roll}
      {reply : Reply} {xs : List Exchange} : UnitTaken Now roll reply roll₁ →
      UnitPassed call who roll₁ xs roll₂ →
      UnitPassed call ((i, label) :: who) roll (⟨i, label, call roll.nodes, .ok reply⟩ :: xs) roll₂

inductive UnitHalted (call : List Node → Call) :
    List (Nat × String) → Roll → List Exchange → Roll → Prop
  | here {i : Nat} {label : String} {who : List (Nat × String)} {roll : Roll} {x : Exchange} :
      x.position = i → x.label = label → x.call = call roll.nodes → x.fault?.isSome = true →
      UnitHalted call ((i, label) :: who) roll [x] roll
  | later {i : Nat} {label : String} {who : List (Nat × String)} {roll roll₁ roll₂ : Roll}
      {reply : Reply} {xs : List Exchange} : UnitTaken Now roll reply roll₁ →
      UnitHalted call who roll₁ xs roll₂ →
      UnitHalted call ((i, label) :: who) roll (⟨i, label, call roll.nodes, .ok reply⟩ :: xs) roll₂

/-- The nodes of a unit have been walked. The list that the walk was called with holds its nodes as
they are left, if it is that list that was walked. -/
inductive Concluded (roll : Roll) (left became : List Node) : Roll → Prop
  | mk {nodes caller : List Node} : Forall₂ (OnNodes Now) became nodes →
      Forall₂ (OnNodes Now) (roll.caller.getD left) caller →
      Concluded roll left became ⟨nodes, some caller⟩

/-- A walk over a unit that returns. The unit is shown to all visitors, then the nodes of what has
become of it are visited, then what has become of them is shown to all visitors. -/
inductive Returned (unit : List Node) : List Exchange → Roll → Prop
  | mk {roll roll' : Roll} {xs ys zs : List Exchange} {left became : List Node} {walked : Roll} :
      UnitPassed Now .before who ⟨unit, none⟩ xs roll →
      AllVisited Now who roll.nodes ys left became → Concluded Now roll left became walked →
      UnitPassed Now .after who walked zs roll' →
      Returned unit (xs ++ ys ++ zs) roll'

/-- A walk over a unit that is broken off, and the list being walked then. -/
inductive BrokenOff (unit : List Node) : List Exchange → Roll → Prop
  | before {roll : Roll} {xs : List Exchange} : UnitHalted Now .before who ⟨unit, none⟩ xs roll →
      BrokenOff unit xs roll
  | walk {roll walked : Roll} {xs ys : List Exchange} {left : List Node} :
      UnitPassed Now .before who ⟨unit, none⟩ xs roll → AllAborted Now who roll.nodes ys left →
      Concluded Now roll left left walked → BrokenOff unit (xs ++ ys) walked
  | after {roll roll' walked : Roll} {xs ys zs : List Exchange} {left became : List Node} :
      UnitPassed Now .before who ⟨unit, none⟩ xs roll →
      AllVisited Now who roll.nodes ys left became → Concluded Now roll left became walked →
      UnitHalted Now .after who walked zs roll' →
      BrokenOff unit (xs ++ ys ++ zs) roll'

end Relations

theorem Stand.inFirst?_eq_some_iff {st : Stand} {depth : Nat} {first : Node} {rest : List Value} :
    st.inFirst? = some (depth, first, rest) ↔
      st.origin = .within (depth + 1) ∧ st.node.fields = .node first :: rest := by
  unfold Stand.inFirst?
  constructor
  · intro h
    split at h
    · rename_i depth' first' rest' horigin hfields
      obtain ⟨rfl, rfl, rfl⟩ : depth' = depth ∧ first' = first ∧ rest' = rest := by simpa using h
      exact ⟨horigin, hfields⟩
    · cases h
  · rintro ⟨horigin, hfields⟩
    simp only [horigin, hfields]

section Siblings

variable {Now : Value → Value → Prop} {who : List (Nat × String)} {xs ys : List Exchange}

theorem AllAborted.cons {n n' left became : Node} {ns lefts : List Node} (hnow : OnNodes Now n n')
    (hn : Visited Now who 0 n' xs left became) (h : AllAborted Now who ns ys lefts) :
    AllAborted Now who (n :: ns) (xs ++ ys) (left :: lefts) := by
  cases h with
  | mk hearlier hnow' haborted hleft =>
    rw [← List.append_assoc]
    exact .mk (.cons hnow hn hearlier) hnow' haborted hleft

theorem FieldsAborted.cons {v v' left became : Value} {vs us : List Value} (hnow : Now v v')
    (hv : FieldWalked Now who v' xs left became) (h : FieldsAborted Now who vs ys us) :
    FieldsAborted Now who (v :: vs) (xs ++ ys) (became :: us) := by
  cases h with
  | mk hearlier hnow' haborted =>
    rw [← List.append_assoc]
    exact .mk (.cons hnow hv hearlier) hnow' haborted

end Siblings

section Passing

variable {Now : Value → Value → Prop} {who : List (Nat × String)} {step : Node → Step}
  {st st' : Stand} {xs : List Exchange}

theorem forall₂_refresh {t : Shares} (ht : ∀ v, Now v (t.refresh v)) (vs : List Value) :
    Forall₂ Now vs (vs.map t.refresh) := by
  rw [List.forall₂_map_right_iff, List.forall₂_same]
  exact fun v _ => ht v

theorem forall₂_refreshNode {t : Shares} (ht : ∀ v, Now v (t.refresh v)) (ns : List Node) :
    Forall₂ (OnNodes Now) ns (ns.map t.refreshNode) := by
  rw [List.forall₂_map_right_iff, List.forall₂_same]
  intro n _
  rw [OnNodes, ← Shares.refresh_node]
  exact ht _

theorem Stand.taken_of_accept {t : Shares} (ht : ∀ v, Now v (t.refresh v)) {reply : Reply}
    (h : st.accept t reply = .ok st') : Taken Now st reply st' := by
  cases reply with
  | keep => exact Except.ok.inj h ▸ .keep
  | same => exact Except.ok.inj h ▸ .same
  | wrap kind => exact Except.ok.inj h ▸ .wrap kind
  | give v =>
    cases v with
    | node n =>
      obtain rfl := Except.ok.inj h
      refine .give ?_
      rw [OnNodes, ← Shares.refresh_node]
      exact ht _
    | _ => cases h

theorem Roll.taken_of_accept {t : Shares} (ht : ∀ v, Now v (t.refresh v)) {roll roll' : Roll}
    {reply : Reply} (h : roll.accept t reply = some roll') : UnitTaken Now roll reply roll' := by
  cases reply with
  | keep => exact Option.some.inj h ▸ .keep
  | same => exact Option.some.inj h ▸ .same
  | wrap kind => cases h
  | give v =>
    cases v with
    | list vs =>
      obtain ⟨ns, hns, rfl⟩ := Option.map_eq_some_iff.mp h
      obtain rfl := Value.nodesOf?_eq_some_iff.mp hns
      exact .give (forall₂_refreshNode ht ns)
    | _ => cases h

/-- Taking up an answer does nothing to the node that the walk started from. -/
theorem Taken.start_eq {reply : Reply} (h : Taken Now st reply st') : st'.start = st.start := by
  cases h with
  | keep | same => rfl
  | wrap kind =>
    obtain ⟨node, origin⟩ := st
    cases origin <;> rfl
  | give => rfl

theorem Passed.start_eq (h : Passed Now step who st xs st') : st'.start = st.start := by
  induction h with
  | nil => rfl
  | cons htaken _ ih => rw [ih, htaken.start_eq]

theorem Halted.start_eq (h : Halted Now step who st xs st') : st'.start = st.start := by
  induction h with
  | here => rfl
  | later htaken _ ih => rw [ih, htaken.start_eq]

end Passing

section Hearing

variable {σ α β ρ π : Type}

/-- How a part of a walk ends, by its exchanges: it returns, or the last exchange ends it, or it is
cut off because the tree is too deep. -/
inductive Ending (Done : List Exchange → α → ρ → Prop) (Stuck : List Exchange → α → Prop)
    (xs : List Exchange) (x : α) : Except Fault ρ → Prop
  | done {a : ρ} : (∀ y ∈ xs, y.fault? = none) → Done xs x a → Ending Done Stuck xs x (.ok a)
  | stuck {good : List Exchange} {y : Exchange} {e : Fault} : xs = good ++ [y] →
      (∀ z ∈ good, z.fault? = none) → y.fault? = some e → Stuck xs x →
      Ending Done Stuck xs x (.error e)
  | cut : (∀ y ∈ xs, y.fault? = none) → Ending Done Stuck xs x (.error .tooDeep)

/-- What is heard of a part of a walk; what is kept of shared nodes is then as it should be. -/
structure Heard (Kept : Shares → Prop) (Done : List Exchange → α → ρ → Prop)
    (Stuck : List Exchange → α → Prop) (s : Session (Journal σ))
    (o : Outcome (Journal σ) α ρ) : Prop where
  kept : Kept o.session.shares
  ending : ∃ xs, o.session.own.1 = s.own.1 ++ xs ∧ Ending Done Stuck xs o.subject o.reply

variable {Kept Kept' : Shares → Prop} {Done : List Exchange → α → ρ → Prop}
  {Stuck : List Exchange → α → Prop} {Done' : List Exchange → β → π → Prop}
  {Stuck' : List Exchange → β → Prop} {s : Session (Journal σ)} {o : Outcome (Journal σ) α ρ}

theorem heard_done (hs : Kept s.shares) {x : α} {a : ρ} (h : Done [] x a) :
    Heard Kept Done Stuck s (s.done x a) :=
  ⟨hs, [], (List.append_nil _).symm, .done nofun h⟩

theorem Heard.after {t : Session (Journal σ)} {xs : List Exchange}
    (hjournal : t.own.1 = s.own.1 ++ xs) (hxs : ∀ x ∈ xs, x.fault? = none)
    (h : Heard Kept (fun ys => Done (xs ++ ys)) (fun ys => Stuck (xs ++ ys)) t o) :
    Heard Kept Done Stuck s o := by
  obtain ⟨ys, hmore, hending⟩ := h.ending
  refine ⟨h.kept, xs ++ ys, by rw [hmore, hjournal, List.append_assoc], ?_⟩
  generalize o.reply = reply at hending ⊢
  -- If the walk ends later on, the exchanges so far are among those before its last one.
  cases hending with
  | done hys hdone => exact .done (List.forall_mem_append.mpr ⟨hxs, hys⟩) hdone
  | @stuck good y e hys hgood hlast hstuck =>
    have hends : xs ++ ys = xs ++ good ++ [y] := by rw [hys, List.append_assoc]
    exact .stuck hends (List.forall_mem_append.mpr ⟨hxs, hgood⟩) hlast hstuck
  | cut hys => exact .cut (List.forall_mem_append.mpr ⟨hxs, hys⟩)

theorem heard_last {x : Exchange} {e : Fault} (hs : Kept o.session.shares)
    (hjournal : o.session.own.1 = s.own.1 ++ [x]) (hx : x.fault? = some e)
    (hreply : o.reply = .error e) (hstuck : Stuck [x] o.subject) : Heard Kept Done Stuck s o := by
  refine ⟨hs, [x], hjournal, ?_⟩
  rw [hreply]
  exact .stuck (List.nil_append _).symm nofun hx hstuck

theorem Heard.follow (h : Heard Kept Done Stuck s o) (place : α → β)
    {next : α → Session (Journal σ) → ρ → Outcome (Journal σ) β π}
    (hstuck : ∀ xs, Stuck xs o.subject → Stuck' xs (place o.subject))
    (hnext : ∀ xs a, Done xs o.subject a → Heard Kept (fun ys => Done' (xs ++ ys))
      (fun ys => Stuck' (xs ++ ys)) o.session (next o.subject o.session a)) :
    Heard Kept Done' Stuck' s (o.follow place next) := by
  obtain ⟨xs, hjournal, hending⟩ := h.ending
  unfold Outcome.follow
  cases hreply : o.reply with
  | error e =>
    rw [hreply] at hending
    refine ⟨h.kept, xs, hjournal, ?_⟩
    cases hending with
    | stuck hxs hgood hlast hx => exact .stuck hxs hgood hlast (hstuck xs hx)
    | cut hgood => exact .cut hgood
  | ok a =>
    rw [hreply] at hending
    cases hending with
    | done hxs hx => exact (hnext xs a hx).after hjournal hxs

theorem Heard.andThen (h : Heard Kept Done Stuck s o) (Done' : List Exchange → α → π → Prop)
    (Stuck' : List Exchange → α → Prop)
    (next : α → Session (Journal σ) → Outcome (Journal σ) α π)
    (hstuck : ∀ xs, Stuck xs o.subject → Stuck' xs o.subject)
    (hnext : ∀ xs a, Done xs o.subject a → Heard Kept (fun ys => Done' (xs ++ ys))
      (fun ys => Stuck' (xs ++ ys)) o.session (next o.subject o.session)) :
    Heard Kept Done' Stuck' s (o.andThen next) := by
  have hfollow : o.andThen next = o.follow id fun x s _ => next x s := by
    unfold Outcome.andThen Outcome.follow
    cases o.reply <;> rfl
  rw [hfollow]
  exact h.follow id hstuck hnext

theorem Heard.map (h : Heard Kept Done Stuck s o) {o' : Outcome (Journal σ) β π} {reply : ρ → π}
    (hown : o'.session.own = o.session.own) (hreply : o'.reply = o.reply.map reply)
    (hkept : Kept' o'.session.shares)
    (hdone : ∀ xs a, Done xs o.subject a → Done' xs o'.subject (reply a))
    (hstuck : ∀ xs, Stuck xs o.subject → Stuck' xs o'.subject) :
    Heard Kept' Done' Stuck' s o' := by
  obtain ⟨xs, hjournal, hending⟩ := h.ending
  refine ⟨hkept, xs, by rw [hown, hjournal], ?_⟩
  rw [hreply]
  generalize o.reply = r at hending
  cases hending with
  | done hxs hx => exact .done hxs (hdone xs _ hx)
  | stuck hxs hgood hlast hx => exact .stuck hxs hgood hlast (hstuck xs hx)
  | cut hxs => exact .cut hxs

theorem Heard.retold (h : Heard Kept Done Stuck s o) {o' : Outcome (Journal σ) β ρ}
    {Done' : List Exchange → β → ρ → Prop} (hown : o'.session.own = o.session.own)
    (hreply : o'.reply = o.reply) (hkept : Kept' o'.session.shares)
    (hdone : ∀ xs a, Done xs o.subject a → Done' xs o'.subject a)
    (hstuck : ∀ xs, Stuck xs o.subject → Stuck' xs o'.subject) :
    Heard Kept' Done' Stuck' s o' := by
  have hid : o.reply = o.reply.map id := by
    rw [Except.map_id]
    rfl
  exact h.map hown (hreply.trans hid) hkept hdone hstuck

theorem Heard.imp (h : Heard Kept Done Stuck s o) {Done' : List Exchange → α → ρ → Prop}
    {Stuck' : List Exchange → α → Prop} (hdone : ∀ xs x a, Done xs x a → Done' xs x a)
    (hstuck : ∀ xs x, Stuck xs x → Stuck' xs x) : Heard Kept Done' Stuck' s o :=
  h.retold rfl rfl h.kept (fun xs a => hdone xs _ a) fun xs => hstuck xs _

end Hearing

open Value (Updated)

section Hooks

variable {σ : Type} {Kept : Shares → Prop} {ps : List (Visitor σ × Nat)}

/-- The visitors, as they are put down. -/
def roster (ps : List (Visitor σ × Nat)) : List (Nat × String) :=
  ps.map fun p => (p.2, p.1.label)

theorem Session.note_badReply {α ρ : Type} (s : Session σ) (message label : String) (hook : Hook)
    (x : α) (next : Session σ → Outcome σ α ρ) :
    s.note (badReply message label hook) x next =
      next { s with log := s.log.add (badReply message label hook) } := by
  rw [Session.note, Log.write_of_not_clashes rfl]

theorem heard_callHooks (hook : Hook) (step : Node → Step) (hstep : ∀ n, (step n).hook = hook)
    (call : Visitor (Journal σ) → Node → Session (Journal σ) → Outcome (Journal σ) Node Reply)
    (hcall : ∀ p ∈ ps, ∀ n s, Overheard p.2 p.1.label (.step (step n)) n s
      (call (p.1.overheard p.2) n s)) (st : Stand) {s : Session (Journal σ)}
    (hs : s.shares.Faithful) :
    Heard Shares.Faithful (fun xs st' _ => Passed Updated step (roster ps) st xs st')
      (fun xs st' => Halted Updated step (roster ps) st xs st') s
      (callHooks hook call (ps.map fun p => p.1.overheard p.2) st s) := by
  induction ps generalizing st s with
  | nil => exact heard_done hs .nil
  | cons p ps ih =>
    rw [List.forall_mem_cons] at hcall
    obtain ⟨hsubject, hshares, hjournal⟩ := hcall.1 st.node s
    rw [List.map_cons, callHooks_cons]
    generalize call (p.1.overheard p.2) st.node s = o at hsubject hshares hjournal
    have hfaithful : o.session.shares.Faithful := by
      rw [hshares]
      exact hs
    have hkept : (o.session.keep st.node).shares.Faithful := hfaithful.keep st.node
    unfold Outcome.follow
    -- The hook fails, or its answer is taken up by the next visitor, or it is of no use.
    cases hreply : o.reply with
    | error e =>
      refine heard_last hfaithful hjournal (by rw [Exchange.fault?, hreply]) rfl ?_
      rw [hsubject]
      exact .here rfl rfl rfl (by rw [Exchange.fault?, hreply]; rfl)
    | ok reply =>
      rw [hreply] at hjournal
      dsimp only
      rw [hsubject]
      cases hfits : reply.fitsNode with
      | true =>
        obtain ⟨st₁, haccept⟩ := st.accept_eq_ok (o.session.keep st.node).shares hfits
        have htaken := Stand.taken_of_accept hkept.updated haccept
        rw [haccept]
        refine Heard.after (t := o.session.keep st.node) hjournal ?_
          ((ih hcall.2 st₁ hkept).imp ?_ ?_)
        · exact List.forall_mem_singleton.mpr (Exchange.fault?_of_fitsNode hfits)
        · exact fun xs st' _ h => .cons htaken h
        · exact fun xs st' h => .later htaken h
      | false =>
        obtain ⟨v, rfl, haccept⟩ := st.accept_eq_error (o.session.keep st.node).shares hfits
        have hfault : Exchange.fault? ⟨p.2, p.1.label, .step (step st.node), .ok (.give v)⟩ =
            some (.badNodeReply p.1.label hook v.typeName) := by
          rw [Exchange.fault?_of_not_node hfits, hstep]
        rw [haccept]
        dsimp only
        rw [Session.note_badReply]
        refine heard_last hkept hjournal hfault rfl ?_
        exact .here rfl rfl rfl (by rw [hfault]; rfl)

theorem heard_callUnitHooks (hook : Hook) (at' : List Node → Call)
    (hat : ∀ ns, (at' ns).hook = hook) (hunit : ∀ ns step, at' ns ≠ .step step)
    (call : Visitor (Journal σ) → List Node → Session (Journal σ) →
      Outcome (Journal σ) (List Node) Reply)
    (hcall : ∀ p ∈ ps, ∀ ns s, Overheard p.2 p.1.label (at' ns) ns s
      (call (p.1.overheard p.2) ns s))
    (hwalked : ∀ t, Kept t → (hook.walked t).Faithful) (roll : Roll) {s : Session (Journal σ)}
    (hs : Kept s.shares) :
    Heard Kept (fun xs roll' _ => UnitPassed Updated at' (roster ps) roll xs roll')
      (fun xs roll' => UnitHalted Updated at' (roster ps) roll xs roll') s
      (callUnitHooks hook call (ps.map fun p => p.1.overheard p.2) roll s) := by
  induction ps generalizing roll s with
  | nil => exact heard_done hs .nil
  | cons p ps ih =>
    rw [List.forall_mem_cons] at hcall
    obtain ⟨hsubject, hshares, hjournal⟩ := hcall.1 roll.nodes s
    rw [List.map_cons, callUnitHooks_cons]
    generalize call (p.1.overheard p.2) roll.nodes s = o at hsubject hshares hjournal
    have hkept : Kept o.session.shares := by
      rw [hshares]
      exact hs
    unfold Outcome.follow
    cases hreply : o.reply with
    | error e =>
      refine heard_last hkept hjournal (by rw [Exchange.fault?, hreply]) rfl ?_
      rw [hsubject]
      exact .here rfl rfl rfl (by rw [Exchange.fault?, hreply]; rfl)
    | ok reply =>
      rw [hreply] at hjournal
      have hfault : Exchange.fault? ⟨p.2, p.1.label, at' roll.nodes, .ok reply⟩ =
          if (roll.accept (hook.walked o.session.shares) reply).isSome then none
          else some (.badUnitReply p.1.label hook) := by
        rw [Exchange.fault?_unit (hunit roll.nodes), Roll.isSome_accept, hat]
      dsimp only
      rw [hsubject]
      cases haccept : roll.accept (hook.walked o.session.shares) reply with
      | some roll₁ =>
        have htaken := Roll.taken_of_accept (hwalked _ hkept).updated haccept
        rw [haccept] at hfault
        refine Heard.after hjournal ?_ ((ih hcall.2 roll₁ hkept).imp ?_ ?_)
        · exact List.forall_mem_singleton.mpr hfault
        · exact fun xs roll' _ h => .cons htaken h
        · exact fun xs roll' h => .later htaken h
      | none =>
        rw [haccept] at hfault
        dsimp only
        rw [Session.note_badReply]
        refine heard_last hkept hjournal hfault rfl ?_
        exact .here rfl rfl rfl (by rw [hfault]; rfl)

end Hooks

section Fields

variable {σ : Type} {who : List (Nat × String)}

/-- A visit at some depth is aborted, and this is how the node that stood there is left. -/
def LeftBy (who : List (Nat × String)) (depth : Nat) (n : Node) (xs : List Exchange)
    (left : Node) : Prop :=
  ∃ st, Aborted Updated who depth n xs st ∧ OnNodes Updated st.start left

variable {visit : Node → Session (Journal σ) → Outcome (Journal σ) Node Node}
  (hvisit : ∀ n s, s.shares.Faithful → Heard Shares.Faithful
    (fun xs left became => Visited Updated who 0 n xs left became)
    (fun xs left => LeftBy who 0 n xs left) s (visit n s))

include hvisit

theorem heard_walkList (ns : List Node) {s : Session (Journal σ)} (hs : s.shares.Faithful) :
    Heard Shares.Faithful (fun xs left became => AllVisited Updated who ns xs left became)
      (fun xs left => AllAborted Updated who ns xs left) s (walkList visit ns s) := by
  induction ns generalizing s with
  | nil => exact heard_done hs .nil
  | cons n ns ih =>
    have hfirst := hvisit (s.shares.refreshNode n) s hs
    have hnow := hs.updatedNode n
    rw [walkList_cons]
    refine hfirst.follow _ ?_ ?_
    · rintro xs ⟨st, hst, hleft⟩
      exact .mk .nil hnow hst hleft
    · intro xs became hvisited
      exact (ih hfirst.kept).map rfl rfl (ih hfirst.kept).kept
        (fun ys becames h => .cons hnow hvisited h) fun ys h => .cons hnow hvisited h

theorem heard_walkField (v : Value) {s : Session (Journal σ)} (hs : s.shares.Faithful) :
    Heard Shares.Faithful (fun xs left became => FieldWalked Updated who v xs left became)
      (fun xs left => FieldAborted Updated who v xs left) s (walkField visit v s) := by
  cases v with
  | node n =>
    have hnode := hvisit n s hs
    refine hnode.map rfl rfl hnode.kept (fun xs became h => .node h) ?_
    rintro xs ⟨st, hst, hleft⟩
    exact .node hst hleft
  | list vs =>
    rw [walkField]
    cases hns : Value.nodesOf? vs with
    | none => exact heard_done hs (.other (by simp [Value.children, hns]))
    | some ns =>
      obtain rfl := Value.nodesOf?_eq_some_iff.mp hns
      have hlist := heard_walkList hvisit ns hs
      exact hlist.map rfl rfl hlist.kept (fun xs became h => .nodes h) fun xs h => .nodes h
  | _ => exact heard_done hs (.other rfl)

theorem heard_walkFields (fields : List Value) {s : Session (Journal σ)}
    (hs : s.shares.Faithful) :
    Heard Shares.Faithful (fun xs us _ => FieldsWalked Updated who fields xs us)
      (fun xs us => FieldsAborted Updated who fields xs us) s (walkFields visit fields s) := by
  induction fields generalizing s with
  | nil => exact heard_done hs .nil
  | cons v fields ih =>
    have hfirst := heard_walkField hvisit (s.shares.refresh v) hs
    rw [walkFields_cons]
    refine hfirst.follow _ (fun xs h => .mk .nil (hs.updated v) h) ?_
    intro xs became hwalked
    refine (ih hfirst.kept).retold rfl rfl (ih hfirst.kept).kept ?_ ?_
    · exact fun ys _ h => .cons (hs.updated v) hwalked h
    · exact fun ys h => .cons (hs.updated v) hwalked h

end Fields

section Walk

variable {σ : Type} {ps : List (Visitor σ × Nat)}

def HeardVisit (who : List (Nat × String))
    (visit : Nat → Node → Session (Journal σ) → Outcome (Journal σ) Node Node) : Prop :=
  ∀ depth n s, s.shares.Faithful → Heard Shares.Faithful
    (fun xs left became => Visited Updated who depth n xs left became)
    (fun xs left => LeftBy who depth n xs left) s (visit depth n s)

/-- The first field is walked on its own if the node that the walk started from is in it. -/
theorem Stand.walkFields_of_inFirst {st : Stand} {depth : Nat} {first : Node} {rest : List Value}
    (h : st.inFirst? = some (depth, first, rest))
    (visit : Nat → Node → Session σ → Outcome σ Node Node) (s : Session σ) :
    st.walkFields visit s =
      (visit depth first s).follow (fun left => ⟨st.node, .apart left⟩) fun left t became =>
        let r := PropertyRenaming.walkFields (visit 0) rest t
        ⟨⟨{ st.node with fields := (.node became :: r.subject).map r.session.shares.refresh },
          .apart (r.session.shares.refreshNode left)⟩, r.session, r.reply⟩ := by
  obtain ⟨horigin, hfields⟩ := Stand.inFirst?_eq_some_iff.mp h
  simp only [Stand.walkFields, horigin, hfields, Outcome.follow]
  cases (visit depth first s).reply <;> rfl

theorem Stand.walkFields_of_not_inFirst {st : Stand} (h : st.inFirst? = none)
    (visit : Nat → Node → Session σ → Outcome σ Node Node) (s : Session σ) :
    st.walkFields visit s =
      let r := PropertyRenaming.walkFields (visit 0) st.node.fields s
      ⟨⟨{ st.node with fields := r.subject.map r.session.shares.refresh }, st.origin⟩, r.session,
        r.reply⟩ := by
  unfold Stand.walkFields
  split
  · rename_i depth first rest horigin hfields
    exact absurd (h.symm.trans (Stand.inFirst?_eq_some_iff.mpr ⟨horigin, hfields⟩)) nofun
  · rfl

theorem heard_standWalkFields {who : List (Nat × String)}
    {visit : Nat → Node → Session (Journal σ) → Outcome (Journal σ) Node Node}
    (hvisit : HeardVisit who visit) (st : Stand) {s : Session (Journal σ)}
    (hs : s.shares.Faithful) :
    Heard Shares.Faithful (fun xs st' _ => Walked Updated who st xs st')
      (fun xs st' => AbortedBelow Updated who st xs st') s (st.walkFields visit s) := by
  cases hin : st.inFirst? with
  | some first =>
    obtain ⟨depth, first, rest⟩ := first
    have hfirst := hvisit depth first s hs
    rw [Stand.walkFields_of_inFirst hin]
    refine hfirst.follow _ ?_ ?_
    · rintro xs ⟨st₁, haborted, hleft⟩
      exact .first hin haborted hleft
    · intro xs became hvisited
      have hrest := heard_walkFields (hvisit 0) rest hfirst.kept
      have hfields := forall₂_refresh hrest.kept.updated
      refine hrest.retold rfl rfl hrest.kept ?_ ?_
      · exact fun ys _ h => .around hin hvisited h (hrest.kept.updatedNode _) (hfields _)
      · exact fun ys h => .rest hin hvisited h (hrest.kept.updatedNode _) (hfields _)
  | none =>
    have hwalk := heard_walkFields (hvisit 0) st.node.fields hs
    rw [Stand.walkFields_of_not_inFirst hin]
    refine hwalk.retold rfl rfl hwalk.kept ?_ ?_
    · exact fun xs _ h => .fields hin h (forall₂_refresh hwalk.kept.updated _)
    · exact fun xs h => .fields hin h (forall₂_refresh hwalk.kept.updated _)

variable (hps : ∀ p ∈ ps, p.1.MutatesNothing)

include hps

theorem heard_walkNode (limit : Nat) :
    HeardVisit (roster ps) (walkNode (ps.map fun p => p.1.overheard p.2) limit) := by
  induction limit with
  | zero =>
    intro depth n s hs
    exact ⟨hs, [], (List.append_nil _).symm, .cut nofun⟩
  | succ limit ih =>
    intro depth n s hs
    have henter := heard_callHooks .enter .enter (fun _ => rfl) Visitor.enter
      (fun p hp n s => (hps p hp).enter.overheard p.2 p.1.label (fun n => .step (.enter n)) n s)
      ⟨n, .within depth⟩ hs
    -- A visit is entering, what is below and leaving; each is told with all that came before it.
    have hbelow := henter.andThen
      (fun xs st' _ => ∃ ys zs st, xs = ys ++ zs ∧
        Passed Updated .enter (roster ps) ⟨n, .within depth⟩ ys st ∧
        Walked Updated (roster ps) st zs st')
      (fun xs st => Aborted Updated (roster ps) depth n xs st)
      (fun st s => st.walkFields (walkNode (ps.map fun p => p.1.overheard p.2) limit) s)
      (fun xs h => .entering h) fun xs _ hpassed =>
        (heard_standWalkFields ih _ henter.kept).imp
          (fun ys st' _ h => ⟨xs, ys, _, rfl, hpassed, h⟩) fun ys st' h => .inside hpassed h
    have hleave := hbelow.andThen
      (fun xs st' _ => ∀ left, OnNodes Updated st'.start left →
        Visited Updated (roster ps) depth n xs left st'.node)
      (fun xs st => Aborted Updated (roster ps) depth n xs st)
      (fun st s => callHooks .leave Visitor.leave (ps.map fun p => p.1.overheard p.2) st s)
      (fun xs h => h) ?_
    · rw [walkNode]
      -- The node that the walk started from is told as it is after the visit.
      refine hleave.map rfl rfl (hleave.kept.keep _) ?_ ?_
      · exact fun xs _ h => h _ ((hleave.kept.keep _).updatedNode _)
      · exact fun xs h => ⟨_, h, (hleave.kept.keep _).updatedNode _⟩
    · rintro xs - ⟨ys, zs, st, rfl, hpassed, hwalked⟩
      refine (heard_callHooks .leave .leave (fun _ => rfl) Visitor.leave
        (fun p hp n s => (hps p hp).leave.overheard p.2 p.1.label (fun n => .step (.leave n)) n s)
        _ hbelow.kept).imp ?_ fun _ _ h => .leaving hpassed hwalked h
      intro _ _ _ h left hleft
      -- What a node is replaced by on leaving does nothing to the node that stood there.
      rw [h.start_eq] at hleft
      exact .mk hpassed hwalked h hleft

theorem heard_rollWalk (limit : Nat) (roll : Roll) (s : Session (Journal σ)) :
    Heard Shares.Faithful
      (fun xs walked _ => ∃ left became, AllVisited Updated (roster ps) roll.nodes xs left became ∧
        Concluded Updated roll left became walked)
      (fun xs walked => ∃ left, AllAborted Updated (roster ps) roll.nodes xs left ∧
        Concluded Updated roll left left walked) s
      (roll.walk (walkNode (ps.map fun p => p.1.overheard p.2) limit 0) s) := by
  have hlist := heard_walkList (heard_walkNode hps limit 0) roll.nodes
    (s := s.settled) (Shares.faithful_settled s.shares)
  unfold Roll.walk
  generalize walkList (walkNode (ps.map fun p => p.1.overheard p.2) limit 0) roll.nodes s.settled =
    o at hlist
  obtain ⟨hkept, xs, hjournal, hending⟩ := hlist
  have hnodes := forall₂_refreshNode hkept.updated
  unfold Roll.conclude
  cases hreply : o.reply with
  | ok became =>
    rw [hreply] at hending
    cases hending with
    | done hxs h =>
      exact ⟨hkept, xs, hjournal, .done hxs ⟨_, _, h, .mk (hnodes _) (hnodes _)⟩⟩
  | error e =>
    rw [hreply] at hending
    cases hending with
    | stuck hxs hgood hlast h =>
      exact ⟨hkept, xs, hjournal, .stuck hxs hgood hlast ⟨_, h, .mk (hnodes _) (hnodes _)⟩⟩
    | cut hxs => exact ⟨hkept, xs, hjournal, .cut hxs⟩

theorem heard_walkThenAfter (limit : Nat) (roll : Roll) (s : Session (Journal σ)) :
    Heard Shares.Faithful
      (fun xs roll' _ => ∃ ys zs left became walked, xs = ys ++ zs ∧
        AllVisited Updated (roster ps) roll.nodes ys left became ∧
        Concluded Updated roll left became walked ∧
        UnitPassed Updated .after (roster ps) walked zs roll')
      (fun xs roll' =>
        (∃ left, AllAborted Updated (roster ps) roll.nodes xs left ∧
          Concluded Updated roll left left roll') ∨
        ∃ ys zs left became walked, xs = ys ++ zs ∧
          AllVisited Updated (roster ps) roll.nodes ys left became ∧
          Concluded Updated roll left became walked ∧
          UnitHalted Updated .after (roster ps) walked zs roll') s
      ((roll.walk (walkNode (ps.map fun p => p.1.overheard p.2) limit 0) s).andThen fun roll s =>
        callUnitHooks .after Visitor.after (ps.map fun p => p.1.overheard p.2) roll s) := by
  have hwalk := heard_rollWalk hps limit roll s
  refine hwalk.andThen _ _ _ (fun xs h => Or.inl h) ?_
  rintro xs - ⟨left, became, hvisited, hconcluded⟩
  refine (heard_callUnitHooks .after .after (fun _ => rfl) nofun Visitor.after
    (fun p hp ns s => (hps p hp).after.overheard p.2 p.1.label .after ns s) (fun _ ht => ht) _
    hwalk.kept).imp ?_ ?_
  · exact fun ys roll' _ h => ⟨xs, ys, left, became, _, rfl, hvisited, hconcluded, h⟩
  · exact fun ys roll' h => Or.inr ⟨xs, ys, left, became, _, rfl, hvisited, hconcluded, h⟩

/-- A walk over a unit returns, or it is broken off by its last exchange, or it is cut off. -/
theorem heard_traverse (limit : Nat) (unit : List Node) (s : Session (Journal σ)) :
    Heard (fun _ => True)
      (fun xs left nodes => ∃ roll, Returned Updated (roster ps) unit xs roll ∧
        left = roll.start ∧ nodes = roll.nodes)
      (fun xs left => ∃ roll, BrokenOff Updated (roster ps) unit xs roll ∧ left = roll.start) s
      (traverse limit (ps.map fun p => p.1.overheard p.2) unit s) := by
  have hbefore : Heard (fun _ => True) _ _ s _ :=
    heard_callUnitHooks .before .before (fun _ => rfl) nofun Visitor.before
      (fun p hp ns s => (hps p hp).before.overheard p.2 p.1.label .before ns s)
      (fun t _ => Shares.faithful_settled t) ⟨unit, none⟩ trivial
  have hwhole := hbefore.andThen (fun xs roll' _ => Returned Updated (roster ps) unit xs roll')
    (fun xs roll' => BrokenOff Updated (roster ps) unit xs roll')
    (fun roll s => (roll.walk (walkNode (ps.map fun p => p.1.overheard p.2) limit 0) s).andThen
      fun roll s => callUnitHooks .after Visitor.after (ps.map fun p => p.1.overheard p.2) roll s)
    (fun xs h => .before h) ?_
  · rw [traverse, Outcome.andThen_assoc]
    exact hwhole.map rfl rfl trivial (fun xs _ h => ⟨_, h, rfl, rfl⟩) fun xs h => ⟨_, h, rfl⟩
  · intro xs _ hpassed
    refine (heard_walkThenAfter hps limit _ _).retold rfl rfl trivial ?_ ?_
    · rintro _ - ⟨ys, zs, left, became, walked, rfl, hvisited, hconcluded, hafter⟩
      rw [← List.append_assoc]
      exact .mk hpassed hvisited hconcluded hafter
    · rintro zs (⟨left, haborted, hconcluded⟩ |
        ⟨ys, zs, left, became, walked, rfl, hvisited, hconcluded, hafter⟩)
      · exact .walk hpassed haborted hconcluded
      · rw [← List.append_assoc]
        exact .after hpassed hvisited hconcluded hafter

end Walk

theorem ending_exchanges {σ : Type} {vs : List (Visitor σ)} (hvs : ∀ v ∈ vs, v.MutatesNothing)
    (limit : Nat) (unit : List Node) (s : Session σ) :
    Ending
      (fun xs left nodes => ∃ roll, Returned Updated (roster vs.zipIdx) unit xs roll ∧
        left = roll.start ∧ nodes = roll.nodes)
      (fun xs left => ∃ roll, BrokenOff Updated (roster vs.zipIdx) unit xs roll ∧
        left = roll.start)
      (exchanges limit vs unit s) (traverse limit vs unit s).subject
      (traverse limit vs unit s).reply := by
  have hps : ∀ p ∈ vs.zipIdx, p.1.MutatesNothing := by
    intro p hp
    apply hvs
    rw [← List.zipIdx_map_fst 0 vs]
    exact List.mem_map_of_mem hp
  have hlinked := linked_overheardWalk limit vs unit s
  obtain ⟨-, xs, hjournal, hending⟩ := heard_traverse hps limit unit (s.withOwn ([], s.own))
  obtain rfl : exchanges limit vs unit s = xs := hjournal
  rw [← hlinked.subject, ← hlinked.reply]
  exact hending

def leavingVisitor (label : String) (answer : Node → Except Fault Reply) : Visitor Unit :=
  { Visitor.idle label with leave := fun n s => ⟨n, s, answer n⟩ }

theorem mutatesNothing_leavingVisitor (label : String) (answer : Node → Except Fault Reply) :
    (leavingVisitor label answer).MutatesNothing :=
  ⟨fun _ _ => ⟨rfl, rfl⟩, fun _ _ => ⟨rfl, rfl⟩, fun _ _ => ⟨rfl, rfl⟩, fun _ _ => ⟨rfl, rfl⟩⟩

end PropertyRenaming
