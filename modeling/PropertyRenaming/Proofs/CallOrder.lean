import PropertyRenaming.Proofs.Parallel
import PropertyRenaming.Proofs.Visits

namespace PropertyRenaming

open List (Forall₂)

section Copies

mutual

/-- The copies of shared nodes in a tree are those that a table has for their numbers. -/
def Node.Agrees (table : ShareId → Node) : Node → Prop
  | ⟨kind, place, fields⟩ =>
    (∀ id, place.share = some id → table id = ⟨kind, place, fields⟩) ∧ Value.AgreesAll table fields

def Value.Agrees (table : ShareId → Node) : Value → Prop
  | .node n => n.Agrees table
  | .list vs => Value.AgreesAll table vs
  | .atom _ | .object => True

def Value.AgreesAll (table : ShareId → Node) : List Value → Prop
  | [] => True
  | v :: vs => v.Agrees table ∧ Value.AgreesAll table vs

end

/-- All copies of a shared node in a unit are equal. -/
def CopiesAgree (unit : List Node) : Prop := ∃ table, ∀ n ∈ unit, n.Agrees table

variable {table : ShareId → Node}

theorem Node.Agrees.fields {n : Node} (h : n.Agrees table) : Value.AgreesAll table n.fields := by
  obtain ⟨kind, place, fields⟩ := n
  exact h.2

theorem Value.agreesAll_iff {vs : List Value} :
    Value.AgreesAll table vs ↔ ∀ v ∈ vs, v.Agrees table := by
  induction vs with
  | nil => simp [Value.AgreesAll]
  | cons v vs ih => simp [Value.AgreesAll, ih]

theorem Value.Agrees.children {v : Value} (h : v.Agrees table) :
    ∀ n ∈ v.children, n.Agrees table := by
  intro n hn
  cases v with
  | node m =>
    obtain rfl : n = m := by simpa [Value.children] using hn
    exact h
  | list vs =>
    rw [Value.children] at hn
    cases hns : Value.nodesOf? vs with
    | none => simp [hns] at hn
    | some ns =>
      obtain rfl := Value.nodesOf?_eq_some_iff.mp hns
      have hmem : Value.node n ∈ ns.map Value.node := List.mem_map_of_mem (by simpa [hns] using hn)
      exact Value.agreesAll_iff.mp h (.node n) hmem
  | _ => simp [Value.children] at hn

mutual

theorem Node.putShared_of_agrees (id : ShareId) : (n : Node) → n.Agrees table →
    Node.putShared id (table id) n = n
  | ⟨kind, place, fields⟩, h => by
    rw [Node.putShared]
    split
    · rename_i hid
      exact h.1 id hid
    · rw [Value.putSharedAll_of_agrees id fields h.2]

theorem Value.putShared_of_agrees (id : ShareId) : (v : Value) → v.Agrees table →
    v.putShared id (table id) = v
  | .node n, h => by rw [Value.putShared, Node.putShared_of_agrees id n h]
  | .list vs, h => by rw [Value.putShared, Value.putSharedAll_of_agrees id vs h]
  | .atom _, _ | .object, _ => by simp [Value.putShared]

theorem Value.putSharedAll_of_agrees (id : ShareId) : (vs : List Value) →
    Value.AgreesAll table vs → Value.putSharedAll id (table id) vs = vs
  | [], _ => by rw [Value.putSharedAll]
  | v :: vs, h => by
    rw [Value.putSharedAll, Value.putShared_of_agrees id v h.1,
      Value.putSharedAll_of_agrees id vs h.2]

end

def Shares.Agrees (table : ShareId → Node) (t : Shares) : Prop :=
  ∀ e ∈ t.latest, table e.1 = e.2 ∧ e.2.Agrees table

theorem Shares.agrees_settled (t : Shares) : t.settled.Agrees table := nofun

theorem Shares.Agrees.refresh {t : Shares} (ht : t.Agrees table) {v : Value}
    (hv : v.Agrees table) : t.refresh v = v := by
  unfold Shares.Agrees at ht
  unfold Shares.refresh
  -- By induction on what is kept: each entry puts in a copy that is there already.
  generalize t.latest = entries at ht ⊢
  induction entries with
  | nil => rfl
  | cons e rest ih =>
    rw [List.forall_mem_cons] at ht
    rw [List.foldl_cons, ← ht.1.1, Value.putShared_of_agrees e.1 v hv, ih ht.2]

theorem Shares.Agrees.refreshNode {t : Shares} (ht : t.Agrees table) {n : Node}
    (hn : n.Agrees table) : t.refreshNode n = n := by
  have hnode := ht.refresh (v := .node n) hn
  rw [Shares.refresh_node] at hnode
  exact Value.node.inj hnode

theorem Shares.Agrees.keep {t : Shares} (ht : t.Agrees table) {n : Node} (hn : n.Agrees table) :
    (t.keep n).Agrees table := by
  unfold Shares.keep
  split
  · exact ht
  · rename_i id hid
    have hnode : table id = n := by
      obtain ⟨kind, place, fields⟩ := n
      exact hn.1 id hid
    rintro e he
    rcases List.mem_cons.mp he with rfl | he
    · exact ⟨hnode, hn⟩
    · obtain ⟨e', he', rfl⟩ := List.mem_map.mp he
      obtain ⟨htable, hagrees⟩ := ht e' (List.mem_filter.mp he').1
      dsimp only
      rw [← hnode, Node.putShared_of_agrees id e'.2 hagrees]
      exact ⟨htable, hagrees⟩

end Copies

section Order

def Node.children (n : Node) : List Node := n.fields.flatMap Value.children

/-- The steps of a walk over siblings, properly nested: each of them is entered, then what it leads
to is walked, then it is left, and only then comes the next one. -/
inductive Nested : List Node → List Step → Prop
  | nil : Nested [] []
  | cons {n : Node} {ns : List Node} {inner rest : List Step} :
    Nested n.children inner → Nested ns rest →
      Nested (n :: ns) (.enter n :: (inner ++ .leave n :: rest))

theorem Nested.append {ns ms : List Node} {xs ys : List Step} (h : Nested ns xs)
    (h' : Nested ms ys) : Nested (ns ++ ms) (xs ++ ys) := by
  induction h with
  | nil => exact h'
  | cons hinner _ _ ih =>
    rw [List.cons_append, List.cons_append, List.append_assoc, List.cons_append]
    exact .cons hinner ih

mutual

theorem Node.nested_steps : (n : Node) → Nested [n] n.steps
  | ⟨kind, place, fields⟩ => by
    rw [Node.steps]
    exact .cons (n := ⟨kind, place, fields⟩) (Value.nested_stepsAll fields) .nil

theorem Value.nested_steps : (v : Value) → Nested v.children v.steps
  | .node n => by
    rw [Value.steps]
    exact Node.nested_steps n
  | .list vs => by
    have hall := Value.nested_stepsAll vs
    rw [Value.steps, Value.children, Value.all_isNode_eq]
    cases hns : Value.nodesOf? vs with
    | none => exact .nil
    | some ns =>
      obtain rfl := Value.nodesOf?_eq_some_iff.mp hns
      have hnodes : (ns.map Value.node).flatMap Value.children = ns := by
        simp [List.flatMap_map, Value.children]
      rw [hnodes] at hall
      exact hall
  | .atom _ | .object => by
    simp only [Value.steps, Value.children]
    exact .nil

theorem Value.nested_stepsAll : (vs : List Value) →
    Nested (vs.flatMap Value.children) (Value.stepsAll vs)
  | [] => .nil
  | v :: vs => by
    rw [List.flatMap_cons, Value.stepsAll]
    exact (Value.nested_steps v).append (Value.nested_stepsAll vs)

end

theorem nested_steps (unit : List Node) : Nested unit (steps unit) := by
  have hunit : (unit.map Value.node).flatMap Value.children = unit := by
    simp [List.flatMap_map, Value.children]
  have h := Value.nested_stepsAll (unit.map .node)
  rwa [hunit] at h

mutual

def Node.postorder : Node → List Node
  | ⟨kind, place, fields⟩ => Value.postorderAll fields ++ [⟨kind, place, fields⟩]

def Value.postorder : Value → List Node
  | .node n => n.postorder
  | .list vs => if vs.all Value.isNode then Value.postorderAll vs else []
  | _ => []

def Value.postorderAll : List Value → List Node
  | [] => []
  | v :: vs => v.postorder ++ Value.postorderAll vs

end

def postorder (unit : List Node) : List Node := unit.flatMap Node.postorder

def Step.entered? : Step → Option Node
  | .enter n => some n
  | .leave _ => none

def Step.left? : Step → Option Node
  | .enter _ => none
  | .leave n => some n

theorem Value.eq_flatMap_children {α : Type} {f : Node → List α} {g : Value → List α}
    (hnode : ∀ n, g (.node n) = f n)
    (hlist : ∀ vs, g (.list vs) = if vs.all Value.isNode then vs.flatMap g else [])
    (hatom : ∀ a, g (.atom a) = []) (hobject : g .object = []) (v : Value) :
    g v = v.children.flatMap f := by
  cases v with
  | node n => simp [hnode, Value.children]
  | list vs =>
    rw [hlist, Value.children, Value.all_isNode_eq]
    cases hns : Value.nodesOf? vs with
    | none => rfl
    | some ns =>
      obtain rfl := Value.nodesOf?_eq_some_iff.mp hns
      simp [List.flatMap_map, hnode]
  | atom a => rw [hatom, Value.children, List.flatMap_nil] <;> nofun
  | object => rw [hobject, Value.children, List.flatMap_nil] <;> nofun

theorem Node.preorder_eq_children (n : Node) : n.preorder = n :: n.children.flatMap preorder := by
  have hvalue : Value.preorder = fun v => v.children.flatMap Node.preorder := by
    funext v
    apply Value.eq_flatMap_children
    · exact fun n => by rw [Value.preorder]
    · exact fun vs => by rw [Value.preorder, Value.preorderAll_eq_flatMap]
    · exact fun a => by simp [Value.preorder]
    · simp [Value.preorder]
  rw [Node.preorder_eq, Value.preorderAll_eq_flatMap, hvalue, Node.children, List.flatMap_assoc]

theorem Value.postorderAll_eq_flatMap (vs : List Value) :
    Value.postorderAll vs = vs.flatMap Value.postorder := by
  induction vs with
  | nil => rfl
  | cons v vs ih => rw [Value.postorderAll, ih, List.flatMap_cons]

theorem Node.postorder_eq_children (n : Node) :
    n.postorder = n.children.flatMap postorder ++ [n] := by
  have hvalue : Value.postorder = fun v => v.children.flatMap Node.postorder := by
    funext v
    apply Value.eq_flatMap_children
    · exact fun n => by rw [Value.postorder]
    · exact fun vs => by rw [Value.postorder, Value.postorderAll_eq_flatMap]
    · exact fun a => by simp [Value.postorder]
    · simp [Value.postorder]
  obtain ⟨kind, place, fields⟩ := n
  rw [Node.postorder, Value.postorderAll_eq_flatMap, hvalue, Node.children, List.flatMap_assoc]

theorem Nested.entered {ns : List Node} {xs : List Step} (h : Nested ns xs) :
    xs.filterMap Step.entered? = preorder ns := by
  induction h with
  | nil => rfl
  | @cons n ns inner rest _ _ hinner hrest =>
    rw [preorder, List.flatMap_cons, Node.preorder_eq_children]
    rw [preorder] at hinner hrest
    simp only [List.filterMap_cons, List.filterMap_append, Step.entered?, hinner, hrest,
      List.cons_append]

theorem Nested.left {ns : List Node} {xs : List Step} (h : Nested ns xs) :
    xs.filterMap Step.left? = postorder ns := by
  induction h with
  | nil => rfl
  | @cons n ns inner rest _ _ hinner hrest =>
    rw [postorder, List.flatMap_cons, Node.postorder_eq_children]
    rw [postorder] at hinner hrest
    simp only [List.filterMap_cons, List.filterMap_append, Step.left?, hinner, hrest,
      List.append_assoc, List.cons_append, List.nil_append]

end Order

section Recording

variable {σ α β ρ π : Type}

/-- A hook that looks on: it has no opinion or answers with its argument, and it leaves the tree
alone. Its visitor's state and the log may change. -/
def LooksOn (hook : α → Session σ → Outcome σ α Reply) : Prop :=
  ∀ x s, (hook x s).subject = x ∧ ((hook x s).reply = .ok .keep ∨ (hook x s).reply = .ok .same) ∧
    (hook x s).session.classes = s.classes ∧ (hook x s).session.shares = s.shares

structure Visitor.LooksOn (v : Visitor σ) : Prop where
  before : PropertyRenaming.LooksOn v.before
  enter : PropertyRenaming.LooksOn v.enter
  leave : PropertyRenaming.LooksOn v.leave
  after : PropertyRenaming.LooksOn v.after

inductive Call
  | before (unit : List Node)
  | step (step : Step)
  | after (unit : List Node)

abbrev Recording (σ : Type) := List (Nat × Call) × σ

def recordedHook (i : Nat) (call : α → Call) (hook : α → Session σ → Outcome σ α Reply) (x : α) :
    Session (Recording σ) → Outcome (Recording σ) α Reply :=
  Visitor.onPart Prod.snd (fun own r => (r.1 ++ [(i, call x)], own)) hook x

def Visitor.recorded (v : Visitor σ) (i : Nat) : Visitor (Recording σ) where
  label := v.label
  before := recordedHook i .before v.before
  enter := recordedHook i (fun n => .step (.enter n)) v.enter
  leave := recordedHook i (fun n => .step (.leave n)) v.leave
  after := recordedHook i .after v.after

def recordAll (vs : List (Visitor σ)) : List (Visitor (Recording σ)) :=
  vs.zipIdx.map fun p => p.1.recorded p.2

def recordedWalk (limit : Nat) (vs : List (Visitor σ)) (unit : List Node) (s : Session σ) :
    Outcome (Recording σ) (List Node) (List Node) :=
  traverse limit (recordAll vs) unit (s.withOwn ([], s.own))

def calls (limit : Nat) (vs : List (Visitor σ)) (unit : List Node) (s : Session σ) :
    List (Nat × Call) :=
  (recordedWalk limit vs unit s).session.own.1

def callsTo (i : Nat) (calls : List (Nat × Call)) : List Call :=
  calls.filterMap fun e => if e.1 = i then some e.2 else none

section Beside

variable {κ : Type}

/-- A hook acts as it does alone if something is kept beside its state that it does not see. -/
theorem inStep_beside {f : Session σ → Outcome σ α Reply}
    {g : Session (κ × σ) → Outcome (κ × σ) α Reply}
    (hg : ∀ t, ∃ kept, g t =
      let o := f (t.withOwn t.own.2)
      ⟨o.subject, o.session.withOwn (kept, o.session.own), o.reply⟩) :
    InStep (fun a b => b.2 = a) f g := by
  intro s t hst
  have hown : t.own.2 = s.own := hst.own
  have hpart : t.withOwn t.own.2 = s := by
    rw [hown, hst.eq_withOwn]
    rfl
  obtain ⟨kept, ht⟩ := hg t
  rw [ht, hpart]
  exact ⟨rfl, ⟨rfl, rfl, rfl, rfl⟩, rfl⟩

theorem inStep_traverse_beside {wrap : Visitor σ → Nat → Visitor (κ × σ)}
    (hwrap : ∀ v i, Visitor.InStep (fun a b => b.2 = a) v (wrap v i)) (limit : Nat)
    (vs : List (Visitor σ)) (unit : List Node) (s : Session σ) (kept : κ) :
    (traverse limit vs unit s).Linked (fun a b => b.2 = a)
      (traverse limit (vs.zipIdx.map fun p => wrap p.1 p.2) unit (s.withOwn (kept, s.own))) := by
  have hvs : Forall₂ (Visitor.InStep fun a b => b.2 = a) (vs.zipIdx.map Prod.fst)
      (vs.zipIdx.map fun p => wrap p.1 p.2) := by
    rw [List.forall₂_map_left_iff, List.forall₂_map_right_iff, List.forall₂_same]
    exact fun p _ => hwrap p.1 p.2
  rw [List.zipIdx_map_fst] at hvs
  exact inStep_traverse hvs limit unit s _ ⟨rfl, rfl, rfl, rfl⟩

end Beside

theorem inStep_recordedHook (i : Nat) (call : α → Call)
    (hook : α → Session σ → Outcome σ α Reply) (x : α) :
    InStep (fun a b => b.2 = a) (hook x) (recordedHook i call hook x) :=
  inStep_beside fun _ => ⟨_, rfl⟩

theorem Visitor.inStep_recorded (v : Visitor σ) (i : Nat) :
    Visitor.InStep (fun a b => b.2 = a) v (v.recorded i) where
  label := rfl
  before := inStep_recordedHook i .before v.before
  enter := inStep_recordedHook i (fun n => .step (.enter n)) v.enter
  leave := inStep_recordedHook i (fun n => .step (.leave n)) v.leave
  after := inStep_recordedHook i .after v.after

/-- A walk is the same whether its calls are recorded or not. -/
theorem linked_recordedWalk (limit : Nat) (vs : List (Visitor σ)) (unit : List Node)
    (s : Session σ) :
    (traverse limit vs unit s).Linked (fun a b => b.2 = a) (recordedWalk limit vs unit s) :=
  inStep_traverse_beside Visitor.inStep_recorded limit vs unit s []

/-- An outcome that leaves the tree alone, after some calls; what is kept of shared nodes is then as
it should be. -/
structure Shown (Kept : Shares → Prop) (s : Session (Recording σ)) (calls : List (Nat × Call))
    (x : α) (a : ρ) (o : Outcome (Recording σ) α ρ) : Prop where
  subject : o.subject = x
  reply : o.reply = .ok a
  classes : o.session.classes = s.classes
  shares : Kept o.session.shares
  calls : o.session.own.1 = s.own.1 ++ calls

variable {Kept Kept' : Shares → Prop} {s : Session (Recording σ)} {calls calls' : List (Nat × Call)}
  {x : α} {y : β} {a : ρ} {b : π} {o : Outcome (Recording σ) α ρ}

theorem shown_done (hs : Kept s.shares) (x : α) (a : ρ) : Shown Kept s [] x a (s.done x a) :=
  ⟨rfl, rfl, rfl, hs, (List.append_nil _).symm⟩

theorem Shown.follow (h : Shown Kept s calls x a o) (place : α → β)
    {next : α → Session (Recording σ) → ρ → Outcome (Recording σ) β π}
    (hnext : Shown Kept' o.session calls' y b (next x o.session a)) :
    Shown Kept' s (calls ++ calls') y b (o.follow place next) := by
  unfold Outcome.follow
  rw [h.reply, h.subject]
  refine ⟨hnext.subject, hnext.reply, hnext.classes.trans h.classes, hnext.shares, ?_⟩
  rw [← List.append_assoc, ← h.calls]
  exact hnext.calls

theorem Shown.andThen (h : Shown Kept s calls x a o) {x' : α}
    {next : α → Session (Recording σ) → Outcome (Recording σ) α π}
    (hnext : Shown Kept' o.session calls' x' b (next x o.session)) :
    Shown Kept' s (calls ++ calls') x' b (o.andThen next) := by
  have hfollow : o.andThen next = o.follow id fun x s _ => next x s := by
    unfold Outcome.andThen Outcome.follow
    cases o.reply <;> rfl
  rw [hfollow]
  exact h.follow id hnext

theorem Shown.map (h : Shown Kept s calls x a o) (subject : α → β) (reply : ρ → π) :
    Shown Kept s calls (subject x) (reply a)
      ⟨subject o.subject, o.session, o.reply.map reply⟩ := by
  refine ⟨?_, ?_, h.classes, h.shares, h.calls⟩
  · rw [h.subject]
  · rw [h.reply]
    rfl

def ShownTo (Kept : Shares → Prop) (i : Nat) (call : Call) (x : α)
    (hook : α → Session (Recording σ) → Outcome (Recording σ) α Reply) : Prop :=
  ∀ s, Kept s.shares → ∃ reply, (reply = .keep ∨ reply = .same) ∧
    Shown Kept s [(i, call)] x reply (hook x s)

theorem LooksOn.shownTo {hook : α → Session σ → Outcome σ α Reply} (h : LooksOn hook) (i : Nat)
    (call : α → Call) (x : α) : ShownTo Kept i (call x) x (recordedHook i call hook) := by
  intro s hs
  obtain ⟨hsubject, hreply, hclasses, hshares⟩ := h x (s.withOwn s.own.2)
  have hkept : Kept (hook x (s.withOwn s.own.2)).session.shares := by
    rw [hshares]
    exact hs
  rcases hreply with hreply | hreply
  · exact ⟨.keep, Or.inl rfl, hsubject, hreply, hclasses, hkept, rfl⟩
  · exact ⟨.same, Or.inr rfl, hsubject, hreply, hclasses, hkept, rfl⟩

end Recording

section Schedule

def callAll (positions : List Nat) (call : Call) : List (Nat × Call) :=
  positions.map fun i => (i, call)

def callSteps (positions : List Nat) (steps : List Step) : List (Nat × Call) :=
  steps.flatMap fun step => callAll positions (.step step)

variable {positions : List Nat}

theorem callSteps_append (xs ys : List Step) :
    callSteps positions (xs ++ ys) = callSteps positions xs ++ callSteps positions ys :=
  List.flatMap_append

theorem callSteps_node (n : Node) :
    callSteps positions n.steps = callAll positions (.step (.enter n)) ++
      callSteps positions (Value.stepsAll n.fields) ++ callAll positions (.step (.leave n)) := by
  rw [Node.steps_eq]
  simp [callSteps]

variable {i : Nat}

theorem callsTo_append (xs ys : List (Nat × Call)) :
    callsTo i (xs ++ ys) = callsTo i xs ++ callsTo i ys := List.filterMap_append

theorem callsTo_callAll (hpositions : positions.Nodup) (hi : i ∈ positions) (call : Call) :
    callsTo i (callAll positions call) = [call] := by
  obtain ⟨xs, ys, rfl⟩ := List.append_of_mem hi
  have hnone : ∀ zs : List Nat, i ∉ zs → callsTo i (callAll zs call) = [] := by
    intro zs hzs
    apply List.filterMap_eq_nil_iff.mpr
    intro e he
    obtain ⟨j, hj, rfl⟩ := List.mem_map.mp he
    have hji : j ≠ i := fun hji => hzs (hji ▸ hj)
    simp [hji]
  rw [List.nodup_append, List.nodup_cons] at hpositions
  obtain ⟨-, ⟨hys, -⟩, hxs⟩ := hpositions
  have hxs' : i ∉ xs := fun hmem => hxs i hmem i List.mem_cons_self rfl
  have hsplit : callAll (xs ++ i :: ys) call =
      callAll xs call ++ ([(i, call)] ++ callAll ys call) := by
    simp [callAll]
  rw [hsplit, callsTo_append, callsTo_append, hnone xs hxs', hnone ys hys]
  simp [callsTo]

theorem callsTo_callSteps (hpositions : positions.Nodup) (hi : i ∈ positions)
    (steps : List Step) : callsTo i (callSteps positions steps) = steps.map .step := by
  induction steps with
  | nil => rfl
  | cons step steps ih =>
    change callsTo i (callAll positions (.step step) ++ callSteps positions steps) = _
    rw [callsTo_append, callsTo_callAll hpositions hi, ih]
    rfl

end Schedule

section Walk

variable {σ : Type} {table : ShareId → Node} {ps : List (Visitor σ × Nat)}

section Hooks

variable {s : Session (Recording σ)} {c : Call}

theorem shown_callHooks (hs : s.shares.Agrees table) (hook : Hook)
    (call : Visitor (Recording σ) → Node → Session (Recording σ) →
      Outcome (Recording σ) Node Reply) {n : Node} (hn : n.Agrees table)
    (h : ∀ p ∈ ps, ShownTo (Shares.Agrees table) p.2 c n (call (p.1.recorded p.2))) :
    Shown (Shares.Agrees table) s (callAll (ps.map Prod.snd) c) ⟨n, .within 0⟩ ()
      (callHooks hook call (ps.map fun p => p.1.recorded p.2) ⟨n, .within 0⟩ s) := by
  induction ps generalizing s with
  | nil => exact shown_done hs _ _
  | cons p ps ih =>
    rw [List.forall_mem_cons] at h
    obtain ⟨reply, hreply, hshown⟩ := h.1 s hs
    have hkept : ((call (p.1.recorded p.2) n s).session.keep n).shares.Agrees table :=
      hshown.shares.keep hn
    obtain ⟨hsubject, hdone, hclasses, hshares, hcalls⟩ := ih hkept h.2
    rw [List.map_cons, List.map_cons, callHooks_cons]
    apply hshown.follow
    rcases hreply with rfl | rfl <;> exact ⟨hsubject, hdone, hclasses, hshares, hcalls⟩

variable {Kept : Shares → Prop} (hs : Kept s.shares)

include hs

theorem shown_callUnitHooks (hook : Hook)
    (call : Visitor (Recording σ) → List Node → Session (Recording σ) →
      Outcome (Recording σ) (List Node) Reply) (roll : Roll)
    (h : ∀ p ∈ ps, ShownTo Kept p.2 c roll.nodes (call (p.1.recorded p.2))) :
    Shown Kept s (callAll (ps.map Prod.snd) c) roll ()
      (callUnitHooks hook call (ps.map fun p => p.1.recorded p.2) roll s) := by
  induction ps generalizing s with
  | nil => exact shown_done hs _ _
  | cons p ps ih =>
    rw [List.forall_mem_cons] at h
    obtain ⟨reply, hreply, hshown⟩ := h.1 s hs
    have hrest := ih hshown.shares h.2
    rw [List.map_cons, List.map_cons, callUnitHooks_cons]
    apply hshown.follow
    rcases hreply with rfl | rfl <;> exact hrest

end Hooks

section Fields

variable {visit : Node → Session (Recording σ) → Outcome (Recording σ) Node Node}
  {P : Node → Prop} (hvisit : ∀ n s, P n → s.shares.Agrees table →
    Shown (Shares.Agrees table) s (callSteps (ps.map Prod.snd) n.steps) n n (visit n s))

include hvisit

theorem shown_walkList (ns : List Node) (hns : ∀ n ∈ ns, P n ∧ n.Agrees table) {s : Session (Recording σ)}
    (hs : s.shares.Agrees table) :
    Shown (Shares.Agrees table) s (callSteps (ps.map Prod.snd) (Value.stepsAll (ns.map .node)))
      ns ns (walkList visit ns s) := by
  induction ns generalizing s with
  | nil => exact shown_done hs _ _
  | cons n ns ih =>
    rw [List.forall_mem_cons] at hns
    have hfirst := hvisit n s hns.1.1 hs
    rw [List.map_cons, Value.stepsAll, Value.steps, callSteps_append, walkList_cons,
      hs.refreshNode hns.1.2]
    apply hfirst.follow
    exact (ih hns.2 hfirst.shares).map (n :: ·) (n :: ·)

theorem shown_walkField (v : Value) (hv : ∀ n ∈ v.children, P n ∧ n.Agrees table) {s : Session (Recording σ)}
    (hs : s.shares.Agrees table) :
    Shown (Shares.Agrees table) s (callSteps (ps.map Prod.snd) v.steps) v v
      (walkField visit v s) := by
  cases v with
  | node n =>
    rw [Value.steps]
    exact (hvisit n s (hv n (by simp [Value.children])).1 hs).map Value.node Value.node
  | list vs =>
    rw [Value.children] at hv
    rw [Value.steps, Value.all_isNode_eq, walkField]
    cases hns : Value.nodesOf? vs with
    | none => exact shown_done hs _ _
    | some ns =>
      rw [hns] at hv
      obtain rfl := Value.nodesOf?_eq_some_iff.mp hns
      exact (shown_walkList hvisit ns hv hs).map (fun ns => Value.list (ns.map .node))
        fun ns => Value.list (ns.map .node)
  | _ =>
    simp only [Value.steps]
    exact shown_done hs _ _

theorem shown_walkFields (fields : List Value) (hfields : ∀ v ∈ fields, ∀ n ∈ v.children, P n)
    (hagrees : Value.AgreesAll table fields) {s : Session (Recording σ)}
    (hs : s.shares.Agrees table) :
    Shown (Shares.Agrees table) s (callSteps (ps.map Prod.snd) (Value.stepsAll fields)) fields ()
      (walkFields visit fields s) := by
  induction fields generalizing s with
  | nil => exact shown_done hs _ _
  | cons v fields ih =>
    rw [List.forall_mem_cons] at hfields
    have hchildren : ∀ n ∈ v.children, P n ∧ n.Agrees table := fun n hn =>
      ⟨hfields.1 n hn, hagrees.1.children n hn⟩
    have hfirst := shown_walkField hvisit v hchildren hs
    rw [Value.stepsAll, callSteps_append, walkFields_cons, hs.refresh hagrees.1]
    apply hfirst.follow
    obtain ⟨hsubject, hreply, hclasses, hshares, hcalls⟩ := ih hfields.2 hagrees.2 hfirst.shares
    refine ⟨?_, hreply, hclasses, hshares, hcalls⟩
    rw [hsubject]

end Fields

theorem shown_below {visit : Nat → Node → Session (Recording σ) → Outcome (Recording σ) Node Node}
    {limit : Nat} (hvisit : ∀ m s, m.depth ≤ limit ∧ m.Agrees table → s.shares.Agrees table →
      Shown (Shares.Agrees table) s (callSteps (ps.map Prod.snd) m.steps) m m (visit 0 m s))
    {n : Node} (hd : Value.depthAll n.fields ≤ limit) (hn : n.Agrees table)
    {s : Session (Recording σ)} (hs : s.shares.Agrees table) :
    Shown (Shares.Agrees table) s (callSteps (ps.map Prod.snd) (Value.stepsAll n.fields))
      ⟨n, .within 0⟩ () (Stand.walkFields visit ⟨n, .within 0⟩ s) := by
  have hvalues := Value.agreesAll_iff.mp hn.fields
  have hbelow : ∀ v ∈ n.fields, ∀ m ∈ v.children, m.depth ≤ limit ∧ m.Agrees table := by
    intro v hv m hm
    have hdepth := (Value.mem_children hm).1.trans (Value.depth_le_depthAll hv)
    exact ⟨hdepth.trans hd, (hvalues v hv).children m hm⟩
  obtain ⟨hsubject, hreply, hclasses, hshares, hcalls⟩ :=
    shown_walkFields hvisit n.fields hbelow hn.fields hs
  rw [Stand.walkFields_within_zero]
  refine ⟨?_, hreply, hclasses, hshares, hcalls⟩
  have hrefresh : n.fields.map (walkFields (visit 0) n.fields s).session.shares.refresh =
      n.fields := by
    conv_rhs => rw [← List.map_id n.fields]
    apply List.map_congr_left
    exact fun v hv => hshares.refresh (hvalues v hv)
  dsimp only
  rw [hsubject, hrefresh, Node.eta]

variable (hps : ∀ p ∈ ps, p.1.LooksOn)

include hps

theorem shown_walkNode (limit : Nat) (n : Node) (s : Session (Recording σ))
    (hn : n.depth ≤ limit ∧ n.Agrees table) (hs : s.shares.Agrees table) :
    Shown (Shares.Agrees table) s (callSteps (ps.map Prod.snd) n.steps) n n
      (walkNode (ps.map fun p => p.1.recorded p.2) limit 0 n s) := by
  induction limit generalizing n s with
  | zero =>
    rw [Node.depth_eq] at hn
    omega
  | succ limit ih =>
    obtain ⟨hd, hagrees⟩ := hn
    rw [Node.depth_eq] at hd
    have henter := shown_callHooks hs .enter Visitor.enter hagrees fun p hp =>
      (hps p hp).enter.shownTo p.2 (fun n => .step (.enter n)) n
    -- The hooks leave the node alone, so its fields are walked as they were, one level down.
    have hbelow := shown_below ih (by omega) hagrees henter.shares
    have hleave := shown_callHooks (henter.andThen hbelow).shares .leave Visitor.leave
      hagrees fun p hp => (hps p hp).leave.shownTo p.2 (fun n => .step (.leave n)) n
    obtain ⟨hsubject, hreply, hclasses, hshares, hcalls⟩ :=
      (henter.andThen hbelow).andThen hleave
    rw [walkNode, callSteps_node]
    have hkept := hshares.keep hagrees
    refine ⟨?_, ?_, hclasses, ?_, hcalls⟩
    · dsimp only
      rw [hsubject]
      exact hkept.refreshNode hagrees
    · dsimp only
      rw [hsubject, hreply]
      rfl
    · dsimp only
      rw [hsubject]
      exact hkept

section Unit

variable {limit : Nat} {unit : List Node} (hd : depth unit ≤ limit)
  (hagrees : ∀ n ∈ unit, n.Agrees table)

include hd hagrees

theorem shown_rollWalk (s : Session (Recording σ)) :
    Shown (Shares.Agrees table) s (callSteps (ps.map Prod.snd) (steps unit)) ⟨unit, some unit⟩ ()
      (Roll.walk (walkNode (ps.map fun p => p.1.recorded p.2) limit 0) ⟨unit, none⟩ s) := by
  have hnodes : ∀ n ∈ unit, n.depth ≤ limit ∧ n.Agrees table := fun n hn =>
    ⟨(depth_le_of_mem hn).trans hd, hagrees n hn⟩
  obtain ⟨hsubject, hreply, hclasses, hshares, hcalls⟩ :=
    shown_walkList (shown_walkNode hps limit) unit (fun n hn => ⟨hnodes n hn, hagrees n hn⟩)
      (s := s.settled) (Shares.agrees_settled s.shares)
  unfold Roll.walk Roll.conclude
  dsimp only
  rw [hreply, hsubject]
  have hnow : ∀ t : Shares, t.Agrees table → unit.map t.refreshNode = unit := by
    intro t ht
    conv_rhs => rw [← List.map_id unit]
    apply List.map_congr_left
    exact fun n hn => ht.refreshNode (hagrees n hn)
  refine ⟨?_, rfl, hclasses, hshares, hcalls⟩
  simp only [Session.done, Option.getD_none, hnow _ hshares]

theorem shown_traverse (s : Session (Recording σ)) :
    Shown (Shares.Agrees table) s
      (callAll (ps.map Prod.snd) (.before unit) ++ callSteps (ps.map Prod.snd) (steps unit) ++
        callAll (ps.map Prod.snd) (.after unit)) unit unit
      (traverse limit (ps.map fun p => p.1.recorded p.2) unit s) := by
  -- What an earlier walk has kept need not agree with this unit; it is dropped before the nodes.
  have hbefore : Shown (fun _ => True) s (callAll (ps.map Prod.snd) (.before unit)) ⟨unit, none⟩ ()
      (callUnitHooks .before Visitor.before (ps.map fun p => p.1.recorded p.2) ⟨unit, none⟩ s) :=
    shown_callUnitHooks trivial .before Visitor.before ⟨unit, none⟩ fun p hp =>
      (hps p hp).before.shownTo p.2 .before unit
  have hwalk := hbefore.andThen (shown_rollWalk hps hd hagrees _)
  have hafter := shown_callUnitHooks hwalk.shares .after Visitor.after ⟨unit, some unit⟩
    fun p hp => (hps p hp).after.shownTo p.2 .after unit
  obtain ⟨hsubject, hreply, hclasses, hshares, hcalls⟩ := hwalk.andThen hafter
  refine ⟨?_, ?_, hclasses, hshares, hcalls⟩
  · unfold traverse
    dsimp only
    rw [hsubject]
    rfl
  · unfold traverse
    dsimp only
    rw [hsubject, hreply]
    rfl

end Unit

end Walk

/-- Steps in document order: properly nested, with the nodes entered in pre-order and left in
post-order. -/
structure DocumentOrder (unit : List Node) (trace : List Step) : Prop where
  nested : Nested unit trace
  entered : trace.filterMap Step.entered? = preorder unit
  left : trace.filterMap Step.left? = postorder unit

theorem documentOrder_steps (unit : List Node) : DocumentOrder unit (steps unit) :=
  ⟨nested_steps unit, (nested_steps unit).entered, (nested_steps unit).left⟩

section Calls

variable {σ : Type} {vs : List (Visitor σ)} (hvs : ∀ v ∈ vs, v.LooksOn) {unit : List Node}
  (hunit : CopiesAgree unit) {limit : Nat} (hd : depth unit ≤ limit) (s : Session σ)

include hvs hunit hd

theorem shown_recordedWalk : ∃ table,
    Shown (Shares.Agrees table) (s.withOwn (([] : List (Nat × Call)), s.own))
      (callAll (List.range vs.length) (.before unit) ++
        callSteps (List.range vs.length) (steps unit) ++
        callAll (List.range vs.length) (.after unit)) unit unit (recordedWalk limit vs unit s) := by
  obtain ⟨table, hagrees⟩ := hunit
  have hps : ∀ p ∈ vs.zipIdx, p.1.LooksOn := by
    intro p hp
    apply hvs
    rw [← List.zipIdx_map_fst 0 vs]
    exact List.mem_map_of_mem hp
  have hshown := shown_traverse hps hd hagrees (s.withOwn ([], s.own))
  rw [List.zipIdx_map_snd, ← List.range_eq_range'] at hshown
  exact ⟨table, hshown⟩

theorem calls_eq : calls limit vs unit s =
    callAll (List.range vs.length) (.before unit) ++
      callSteps (List.range vs.length) (steps unit) ++
      callAll (List.range vs.length) (.after unit) := by
  obtain ⟨table, hshown⟩ := shown_recordedWalk hvs hunit hd s
  exact hshown.calls

theorem callsTo_calls {i : Nat} (hi : i < vs.length) :
    callsTo i (calls limit vs unit s) =
      .before unit :: ((steps unit).map .step ++ [.after unit]) := by
  have hmem : i ∈ List.range vs.length := List.mem_range.mpr hi
  rw [calls_eq hvs hunit hd, callsTo_append, callsTo_append, callsTo_callAll List.nodup_range hmem,
    callsTo_callAll List.nodup_range hmem, callsTo_callSteps List.nodup_range hmem]
  rfl

end Calls

/-- A walk whose visitors look on returns the unit, which is as it was. Every visitor is called with
the unit, then at each step in document order, then with the unit again, and at each step all
visitors are called in their order. So each is called as it would be alone. -/
theorem traverse_calls_in_document_order {σ : Type} {vs : List (Visitor σ)}
    (hvs : ∀ v ∈ vs, v.LooksOn) {unit : List Node} (hunit : CopiesAgree unit) {limit : Nat}
    (hd : depth unit ≤ limit) (s : Session σ) :
    let o := traverse limit vs unit s
    o.subject = unit ∧ o.reply = .ok unit ∧ o.session.classes = s.classes ∧
      o.Linked (fun own recording => recording.2 = own) (recordedWalk limit vs unit s) ∧
      DocumentOrder unit (steps unit) ∧
      calls limit vs unit s = callAll (List.range vs.length) (.before unit) ++
        callSteps (List.range vs.length) (steps unit) ++
        callAll (List.range vs.length) (.after unit) ∧
      ∀ i v, vs[i]? = some v →
        callsTo i (calls limit vs unit s) =
            .before unit :: ((steps unit).map .step ++ [.after unit]) ∧
          callsTo i (calls limit vs unit s) = callsTo 0 (calls limit [v] unit s) := by
  intro o
  obtain ⟨table, hshown⟩ := shown_recordedWalk hvs hunit hd s
  have hlinked := linked_recordedWalk limit vs unit s
  refine ⟨hlinked.subject.symm.trans hshown.subject, hlinked.reply.symm.trans hshown.reply,
    hlinked.session.classes.symm.trans hshown.classes, hlinked, documentOrder_steps unit,
    hshown.calls, fun i v hv => ?_⟩
  obtain ⟨hi, rfl⟩ := List.getElem?_eq_some_iff.mp hv
  have halone : ∀ w ∈ [vs[i]], w.LooksOn := by
    intro w hw
    rw [List.mem_singleton.mp hw]
    exact hvs _ (List.getElem_mem hi)
  have hcalls := callsTo_calls hvs hunit hd s hi
  exact ⟨hcalls, hcalls.trans (callsTo_calls halone hunit hd s (by simp)).symm⟩

section Sample

def countingVisitor : Visitor Nat where
  label := "Counting"
  before unit s := s.done unit .same
  enter n s := (s.withOwn (s.own + 1)).done n .same
  leave n s := s.done n .keep
  after unit s := s.done unit .same

theorem looksOn_countingVisitor : countingVisitor.LooksOn where
  before _ _ := ⟨rfl, Or.inr rfl, rfl, rfl⟩
  enter _ _ := ⟨rfl, Or.inr rfl, rfl, rfl⟩
  leave _ _ := ⟨rfl, Or.inl rfl, rfl, rfl⟩
  after _ _ := ⟨rfl, Or.inr rfl, rfl, rfl⟩

theorem looksOn_idle {σ : Type} (label : String) : (Visitor.idle label : Visitor σ).LooksOn where
  before _ _ := ⟨rfl, Or.inl rfl, rfl, rfl⟩
  enter _ _ := ⟨rfl, Or.inl rfl, rfl, rfl⟩
  leave _ _ := ⟨rfl, Or.inl rfl, rfl, rfl⟩
  after _ _ := ⟨rfl, Or.inl rfl, rfl, rfl⟩

def sharedName : Node := ⟨.className, { share := some 0 }, [.str "A"]⟩

/-- A class whose name and qualified name are one node, with a list that is not visited because of a
foreign item, and a class beside it. -/
def sharingUnit : List Node :=
  [⟨.classDecl 0, {}, [.node sharedName,
      .list [.node ⟨.returnStmt, {}, [.null]⟩, .int 3], .null, .node sharedName]⟩,
    ⟨.classDecl 1, {}, [.str "B", .list [.node ⟨.returnStmt, {}, [.null]⟩], .null, .null]⟩]

theorem copiesAgree_sharingUnit : CopiesAgree sharingUnit := by
  refine ⟨fun _ => sharedName, ?_⟩
  simp [sharingUnit, sharedName, Node.Agrees, Value.Agrees, Value.AgreesAll]

theorem traverse_calls_in_document_order_sample :
    (∀ v ∈ [Visitor.idle "First", countingVisitor], v.LooksOn) ∧ CopiesAgree sharingUnit ∧
      depth sharingUnit ≤ 2 ∧
      callsTo 1 (calls 2 [Visitor.idle "First", countingVisitor] sharingUnit { own := 0 }) =
        callsTo 0 (calls 2 [countingVisitor] sharingUnit { own := 0 }) ∧
      let o := traverse 2 [Visitor.idle "First", countingVisitor] sharingUnit { own := 0 }
      o.subject = sharingUnit ∧ o.reply = .ok sharingUnit ∧ o.session.own = 5 := by
  have hvs : ∀ v ∈ [Visitor.idle "First", countingVisitor], v.LooksOn := by
    intro v hv
    rcases List.mem_pair.mp hv with rfl | rfl
    · exact looksOn_idle "First"
    · exact looksOn_countingVisitor
  have hd : depth sharingUnit ≤ 2 := by decide
  obtain ⟨hsubject, hreply, -, -, -, -, halone⟩ :=
    traverse_calls_in_document_order hvs copiesAgree_sharingUnit hd { own := 0 }
  exact ⟨hvs, copiesAgree_sharingUnit, hd, (halone 1 countingVisitor rfl).2, hsubject, hreply,
    by decide⟩

end Sample

end PropertyRenaming
