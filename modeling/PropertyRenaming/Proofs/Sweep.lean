import PropertyRenaming.Proofs.Sites
import PropertyRenaming.Walk.Basic

namespace PropertyRenaming

variable {σ : Type}

namespace Node

@[simp] theorem kind_patched (n : Node) (ps : List Patch) : (n.patched ps).kind = n.kind := by
  induction ps generalizing n with
  | nil => rfl
  | cons p ps ih =>
    change ((n.modify p.1 p.2).patched ps).kind = n.kind
    rw [ih, modify, kind_set]

@[simp] theorem place_patched (n : Node) (ps : List Patch) : (n.patched ps).place = n.place := by
  induction ps generalizing n with
  | nil => rfl
  | cons p ps ih =>
    change ((n.modify p.1 p.2).patched ps).place = n.place
    rw [ih, modify, place_set]

theorem get_patched_of_ne {n : Node} {ps : List Patch} {f : Field} (h : ∀ p ∈ ps, p.1 ≠ f) :
    (n.patched ps).get f = n.get f := by
  induction ps generalizing n with
  | nil => rfl
  | cons p ps ih =>
    change ((n.modify p.1 p.2).patched ps).get f = n.get f
    rw [ih fun q hq => h q (List.mem_cons_of_mem _ hq), modify,
      get_set_of_ne (h p List.mem_cons_self)]

theorem patched_append (n : Node) (ps qs : List Patch) :
    n.patched (ps ++ qs) = (n.patched ps).patched qs := by
  simp [patched]

theorem Filled.patched {n : Node} (hn : n.Filled) (ps : List Patch) : (n.patched ps).Filled := by
  induction ps generalizing n with
  | nil => exact hn
  | cons p ps ih => exact ih (hn.modify _ _)

end Node

/-- What visitors do to nodes and to the session. -/
structure Sweep (σ : Type) where
  opened : Node → Session σ → Session σ
  place : Node → Session σ → Place
  patches : Node → Session σ → List Patch
  closed : Node → Session σ → Session σ

/-- A node as it is left, above the given fields. -/
def Sweep.dressed (w : Sweep σ) (n : Node) (s : Session σ) (fields : List Value) : Node :=
  Node.patched ⟨n.kind, w.place n s, fields⟩ (w.patches n s)

@[simp] theorem Sweep.kind_dressed (w : Sweep σ) (n : Node) (s : Session σ) (fields : List Value) :
    (w.dressed n s fields).kind = n.kind := by
  rw [Sweep.dressed, Node.kind_patched]

@[simp] theorem Sweep.place_dressed (w : Sweep σ) (n : Node) (s : Session σ) (fields : List Value) :
    (w.dressed n s fields).place = w.place n s := by
  rw [Sweep.dressed, Node.place_patched]

mutual

def Node.sweep (w : Sweep σ) (s : Session σ) : Node → Node × Session σ
  | ⟨kind, place, fields⟩ =>
    let inner := Value.sweepAll w (w.opened ⟨kind, place, fields⟩ s) fields
    (w.dressed ⟨kind, place, fields⟩ s inner.1, w.closed ⟨kind, place, fields⟩ inner.2)

def Value.sweep (w : Sweep σ) (s : Session σ) : Value → Value × Session σ
  | .node n => (.node (n.sweep w s).1, (n.sweep w s).2)
  | .list vs =>
    if vs.all Value.isNode then (.list (Value.sweepAll w s vs).1, (Value.sweepAll w s vs).2)
    else (.list vs, s)
  | v => (v, s)

def Value.sweepAll (w : Sweep σ) (s : Session σ) : List Value → List Value × Session σ
  | [] => ([], s)
  | v :: vs =>
    let rest := Value.sweepAll w (v.sweep w s).2 vs
    ((v.sweep w s).1 :: rest.1, rest.2)

end

def sweepUnit (w : Sweep σ) (s : Session σ) : List Node → List Node × Session σ
  | [] => ([], s)
  | n :: ns =>
    let rest := sweepUnit w (n.sweep w s).2 ns
    ((n.sweep w s).1 :: rest.1, rest.2)

theorem Node.sweep_eq (w : Sweep σ) (s : Session σ) (n : Node) :
    n.sweep w s = (w.dressed n s (Value.sweepAll w (w.opened n s) n.fields).1,
      w.closed n (Value.sweepAll w (w.opened n s) n.fields).2) := by
  obtain ⟨kind, place, fields⟩ := n
  rw [Node.sweep]

theorem Value.sweepAll_nodes (w : Sweep σ) (s : Session σ) (ns : List Node) :
    Value.sweepAll w s (ns.map .node) = ((sweepUnit w s ns).1.map .node, (sweepUnit w s ns).2) := by
  induction ns generalizing s with
  | nil => rfl
  | cons n ns ih => simp [Value.sweepAll, Value.sweep, sweepUnit, ih]

@[simp] theorem Value.sweep_atom (w : Sweep σ) (s : Session σ) (a : Atom) :
    (Value.atom a).sweep w s = (.atom a, s) := by
  simp [Value.sweep]

theorem Value.length_sweepAll (w : Sweep σ) (s : Session σ) (vs : List Value) :
    (Value.sweepAll w s vs).1.length = vs.length := by
  induction vs generalizing s with
  | nil => rfl
  | cons v vs ih => simp [Value.sweepAll, ih]

@[simp] theorem Node.kind_sweep (w : Sweep σ) (s : Session σ) (n : Node) :
    (n.sweep w s).1.kind = n.kind := by
  rw [Node.sweep_eq, Sweep.kind_dressed]

theorem Node.place_sweep (w : Sweep σ) (s : Session σ) (n : Node) :
    (n.sweep w s).1.place = w.place n s := by
  rw [Node.sweep_eq, Sweep.place_dressed]

@[simp] theorem Value.str?_sweep (w : Sweep σ) (s : Session σ) (v : Value) :
    (v.sweep w s).1.str? = v.str? := by
  cases v with
  | list vs =>
    rw [Value.sweep]
    split <;> rfl
  | _ => simp [Value.sweep, Value.str?]

theorem Value.getElem?_sweepAll (w : Sweep σ) (s : Session σ) (vs : List Value) (i : Nat) :
    ∃ t, (Value.sweepAll w s vs).1[i]? = vs[i]?.map fun v => (v.sweep w t).1 := by
  induction vs generalizing s i with
  | nil => exact ⟨s, by simp [Value.sweepAll]⟩
  | cons v vs ih =>
    cases i with
    | zero => exact ⟨s, by simp [Value.sweepAll]⟩
    | succ i =>
      obtain ⟨t, ht⟩ := ih (v.sweep w s).2 i
      exact ⟨t, by simpa [Value.sweepAll] using ht⟩

theorem Value.all_isNode_sweepAll (w : Sweep σ) (s : Session σ) {vs : List Value}
    (h : vs.all Value.isNode = true) : (Value.sweepAll w s vs).1.all Value.isNode = true := by
  induction vs generalizing s with
  | nil => rfl
  | cons v vs ih =>
    cases v with
    | node n =>
      have hvs : vs.all Value.isNode = true := by simpa [Value.isNode] using h
      simpa [Value.sweepAll, Value.sweep, Value.isNode] using ih _ hvs
    | _ => simp [Value.isNode] at h

theorem Node.get_sweepAll (w : Sweep σ) (s : Session σ) (n : Node) (place : Place) (f : Field) :
    ∃ t, Node.get ⟨n.kind, place, (Value.sweepAll w s n.fields).1⟩ f =
      ((n.get f).sweep w t).1 := by
  unfold Node.get
  cases n.kind.fields.idxOf? f with
  | none => exact ⟨s, by simp⟩
  | some i =>
    obtain ⟨t, ht⟩ := Value.getElem?_sweepAll w s n.fields i
    refine ⟨t, ?_⟩
    simp only [List.getD_eq_getElem?_getD, ht]
    cases n.fields[i]? <;> simp

theorem Content.all_isItem_sweepAll (w : Sweep σ) (s : Session σ) {vs : List Value}
    (h : vs.all Content.isItem = true) :
    (Value.sweepAll w s vs).1.all Content.isItem = true := by
  induction vs generalizing s with
  | nil => rfl
  | cons v vs ih =>
    simp only [List.all_cons, Bool.and_eq_true] at h
    obtain ⟨hv, hvs⟩ := h
    simp only [Value.sweepAll, List.all_cons, Bool.and_eq_true]
    refine ⟨?_, ih _ hvs⟩
    cases v with
    | node n => simpa [Value.sweep, Content.isItem] using hv
    | _ => simp [Content.isItem] at hv

theorem Content.admits_sweep (w : Sweep σ) (s : Session σ) {c : Content} {v : Value}
    (h : c.admits v = true) : c.admits (v.sweep w s).1 = true := by
  cases v with
  | atom a => simpa using h
  | object => simpa [Value.sweep] using h
  | node n => cases c <;> simp_all [Value.sweep, Content.admits]
  | list vs =>
    rw [Value.sweep]
    split
    · cases c with
      | items => exact all_isItem_sweepAll w s h
      | _ => simp_all [Content.admits]
    · exact h

/-- A change of a field commutes with sweeping what the field holds. -/
def Sweep.CommutesAt (w : Sweep σ) (change : Value → Value) (v : Value) : Prop :=
  ∀ s, (change v).sweep w s = (change (v.sweep w s).1, (v.sweep w s).2)

def Sweep.Commutes (w : Sweep σ) : List Patch → Node → Prop
  | [], _ => True
  | p :: ps, n => w.CommutesAt p.2 (n.get p.1) ∧ w.Commutes ps (n.modify p.1 p.2)

section Patches

variable {w : Sweep σ}

theorem Sweep.Commutes.append {ps qs : List Patch} {n : Node} (hp : w.Commutes ps n)
    (hq : w.Commutes qs (n.patched ps)) : w.Commutes (ps ++ qs) n := by
  induction ps generalizing n with
  | nil => exact hq
  | cons p ps ih => exact ⟨hp.1, ih hp.2 hq⟩

theorem Value.sweepAll_set {vs : List Value} {i : Nat} {v : Value} (hv : vs[i]? = some v)
    {change : Value → Value} (h : w.CommutesAt change v) (s : Session σ) :
    Value.sweepAll w s (vs.set i (change v)) =
      ((Value.sweepAll w s vs).1.set i (change ((Value.sweepAll w s vs).1.getD i .null)),
        (Value.sweepAll w s vs).2) := by
  induction vs generalizing i s with
  | nil => simp at hv
  | cons u vs ih =>
    cases i with
    | zero =>
      obtain rfl : u = v := by simpa using hv
      simp [Value.sweepAll, h s]
    | succ i =>
      rw [List.set_cons_succ, Value.sweepAll, Value.sweepAll, ih (by simpa using hv)]
      simp

theorem Node.sweepAll_modify {n : Node} (hn : n.Filled) {f : Field} {change : Value → Value}
    (h : w.CommutesAt change (n.get f)) (s : Session σ) :
    Value.sweepAll w s (n.modify f change).fields =
      ((Node.modify ⟨n.kind, n.place, (Value.sweepAll w s n.fields).1⟩ f change).fields,
        (Value.sweepAll w s n.fields).2) := by
  cases hi : n.kind.fields.idxOf? f with
  | none => simp [Node.modify, Node.set, hi]
  | some i =>
    have hlt : i < n.fields.length := by
      rw [hn]
      exact (List.idxOf?_eq_some_iff.mp hi).1
    have hg : n.get f = n.fields.getD i .null := by simp [Node.get, hi]
    have hv : n.fields[i]? = some (n.get f) := by simp [hg, List.getD_eq_getElem?_getD, hlt]
    have hs := Value.sweepAll_set hv h s
    simpa [Node.modify, Node.set, Node.get, hi] using hs

theorem Node.sweepAll_patched {n : Node} (hn : n.Filled) {ps : List Patch}
    (h : w.Commutes ps n) (s : Session σ) :
    Value.sweepAll w s (n.patched ps).fields =
      ((Node.patched ⟨n.kind, n.place, (Value.sweepAll w s n.fields).1⟩ ps).fields,
        (Value.sweepAll w s n.fields).2) := by
  induction ps generalizing n with
  | nil => rfl
  | cons p ps ih =>
    obtain ⟨hp, hps⟩ := h
    have hm : Node.modify ⟨n.kind, n.place, (Value.sweepAll w s n.fields).1⟩ p.1 p.2 =
        ⟨(n.modify p.1 p.2).kind, (n.modify p.1 p.2).place,
          (Value.sweepAll w s (n.modify p.1 p.2).fields).1⟩ := by
      rw [Node.sweepAll_modify hn hp]
      simp only [Node.modify, Node.kind_set, Node.place_set]
      simp only [Node.set]
      split <;> rfl
    have hs : (Value.sweepAll w s (n.modify p.1 p.2).fields).2 =
        (Value.sweepAll w s n.fields).2 := by
      rw [Node.sweepAll_modify hn hp]
    have hrest := ih (hn.modify _ _) hps
    rw [← hm, hs] at hrest
    exact hrest

theorem Node.patched_at_place (kind : Kind) (place place' : Place) (fields : List Value)
    (ps : List Patch) :
    (⟨kind, place', (Node.patched ⟨kind, place, fields⟩ ps).fields⟩ : Node) =
      Node.patched ⟨kind, place', fields⟩ ps := by
  induction ps generalizing fields with
  | nil => rfl
  | cons p ps ih =>
    have hset : ∀ place, Node.modify ⟨kind, place, fields⟩ p.1 p.2 =
        ⟨kind, place, (Node.modify ⟨kind, place', fields⟩ p.1 p.2).fields⟩ := by
      intro place
      simp only [Node.modify, Node.set, Node.get]
      split <;> rfl
    change (⟨kind, place', (Node.patched (Node.modify ⟨kind, place, fields⟩ p.1 p.2) ps).fields⟩ :
      Node) = Node.patched (Node.modify ⟨kind, place', fields⟩ p.1 p.2) ps
    rw [hset place, ih, ← hset place']

/-- A second sweep goes over what the first one has changed; it comes to the same as to sweep what
is below the node twice, and to make all changes to the node then. -/
theorem Node.sweep_sweep {τ : Type} {v : Sweep τ} {n : Node} (hn : n.Filled) {s : Session τ}
    (h : w.Commutes (v.patches n s)
      ⟨n.kind, v.place n s, (Value.sweepAll v (v.opened n s) n.fields).1⟩) (t : Session σ) :
    (n.sweep v s).1.sweep w t =
      let n' := (n.sweep v s).1
      let inner := Value.sweepAll w (w.opened n' t) (Value.sweepAll v (v.opened n s) n.fields).1
      (Node.patched ⟨n.kind, w.place n' t, inner.1⟩ (v.patches n s ++ w.patches n' t),
        w.closed n' inner.2) := by
  have hfilled := hn.refill (v.place n s) (Value.length_sweepAll v (v.opened n s) n.fields)
  dsimp only
  generalize hdef : (n.sweep v s).1 = n'
  have hn' : n' = Node.patched
      ⟨n.kind, v.place n s, (Value.sweepAll v (v.opened n s) n.fields).1⟩ (v.patches n s) := by
    rw [← hdef, Node.sweep_eq]
    rfl
  have hkind : n'.kind = n.kind := by rw [hn', Node.kind_patched]
  have hfields := Node.sweepAll_patched hfilled h (w.opened n' t)
  rw [← hn'] at hfields
  rw [Node.sweep_eq w t n', Sweep.dressed, hkind, Node.patched_append, hfields]
  dsimp only
  rw [Node.patched_at_place]

end Patches

/-- The walk of some visitors is a sweep, for nodes and sessions of a certain sort. -/
structure Sweep.Describes (w : Sweep σ) (vs : List (Visitor σ)) (Good : Node → Prop)
    (Ok : Session σ → Prop) : Prop where
  settled {s : Session σ} : Ok s → s.shares.latest = []
  filled {n : Node} : Good n → n.Filled
  unshared {n : Node} {s : Session σ} : Good n → (w.place n s).share = none
  commutes {n : Node} {s : Session σ} :
    Good n → w.Commutes (w.patches n s) ⟨n.kind, w.place n s, n.fields⟩
  good {n : Node} {s : Session σ} : Good n → (∀ m ∈ Value.preorderAll n.fields, Good m) →
    ∀ m ∈ Value.preorderAll (w.dressed n s n.fields).fields, Good m
  depth {n : Node} {s : Session σ} :
    Good n → Value.depthAll (w.dressed n s n.fields).fields ≤ Value.depthAll n.fields
  ok_opened {n : Node} {s : Session σ} : Good n → Ok s → Ok (w.opened n s)
  ok_closed {n : Node} {s : Session σ} : Good n → Ok s → Ok (w.closed n s)
  enter {n : Node} {s : Session σ} : Good n → Ok s →
    callHooks .enter Visitor.enter vs ⟨n, .within 0⟩ s =
      (w.opened n s).done ⟨w.dressed n s n.fields, .within 0⟩ ()
  leave {n : Node} {s t : Session σ} {fields : List Value} : Good n → Ok t →
    Value.sweepAll w (w.opened n s) n.fields = (fields, t) →
    callHooks .leave Visitor.leave vs ⟨w.dressed n s fields, .within 0⟩ t =
      (w.closed n t).done ⟨w.dressed n s fields, .within 0⟩ ()

section Walk

variable {w : Sweep σ} {vs : List (Visitor σ)} {Good : Node → Prop} {Ok : Session σ → Prop}

theorem Stand.walkFields_within_zero
    (visit : (depth : Nat) → Node → Session σ → Outcome σ Node Node) (n : Node) (s : Session σ) :
    Stand.walkFields visit ⟨n, .within 0⟩ s =
      let r := PropertyRenaming.walkFields (visit 0) n.fields s
      ⟨⟨⟨n.kind, n.place, r.subject.map r.session.shares.refresh⟩, .within 0⟩, r.session,
        r.reply⟩ :=
  rfl

theorem Shares.refresh_of_latest_eq_nil {t : Shares} (h : t.latest = []) (v : Value) :
    t.refresh v = v := by
  simp [Shares.refresh, h]

theorem Shares.refreshNode_of_latest_eq_nil {t : Shares} (h : t.latest = []) (n : Node) :
    t.refreshNode n = n := by
  simp [Shares.refreshNode, h]

theorem Session.keep_of_share_eq_none (s : Session σ) {n : Node} (h : n.place.share = none) :
    s.keep n = s := by
  simp [Session.keep, Shares.keep_of_share_eq_none s.shares h]

theorem Sweep.keep_dressed {τ : Type} (w : Sweep σ) {n : Node} {s : Session σ}
    (h : (w.place n s).share = none) (fields : List Value) (t : Session τ) :
    t.keep (w.dressed n s fields) = t := by
  apply t.keep_of_share_eq_none
  rw [w.place_dressed]
  exact h

theorem Value.nodesOf?_eq_some_iff {vs : List Value} {ns : List Node} :
    Value.nodesOf? vs = some ns ↔ vs = ns.map .node := by
  induction vs generalizing ns with
  | nil => cases ns <;> simp [Value.nodesOf?]
  | cons v vs ih => cases v <;> cases ns <;> simp [Value.nodesOf?, ih, and_comm]

theorem Value.all_isNode_eq (vs : List Value) :
    vs.all Value.isNode = (Value.nodesOf? vs).isSome := by
  induction vs with
  | nil => rfl
  | cons v vs ih => cases v <;> simp [Value.nodesOf?, Value.isNode, ih]

theorem Value.mem_preorderAll {vs : List Value} {v : Value} (hv : v ∈ vs) {n : Node}
    (hn : n ∈ v.preorder) : n ∈ Value.preorderAll vs := by
  induction vs with
  | nil => simp at hv
  | cons u vs ih =>
    rw [Value.preorderAll, List.mem_append]
    rcases List.mem_cons.mp hv with rfl | hv
    · exact Or.inl hn
    · exact Or.inr (ih hv)

theorem Value.depth_le_depthAll {vs : List Value} {v : Value} (hv : v ∈ vs) :
    v.depth ≤ Value.depthAll vs := by
  induction vs with
  | nil => simp at hv
  | cons u vs ih =>
    rw [Value.depthAll]
    rcases List.mem_cons.mp hv with rfl | hv
    · exact le_max_left _ _
    · exact (ih hv).trans (le_max_right _ _)

theorem Node.mem_preorderAll_set {n m : Node} {f : Field} {v : Value}
    (hm : m ∈ Value.preorderAll (n.set f v).fields) :
    m ∈ Value.preorderAll n.fields ∨ m ∈ v.preorder := by
  have hset : ∀ (vs : List Value) (i : Nat), m ∈ Value.preorderAll (vs.set i v) →
      m ∈ Value.preorderAll vs ∨ m ∈ v.preorder := by
    intro vs i hm
    induction vs generalizing i with
    | nil => exact Or.inl hm
    | cons u vs ih =>
      cases i with
      | zero =>
        simp only [List.set_cons_zero, Value.preorderAll, List.mem_append] at hm ⊢
        tauto
      | succ i =>
        simp only [List.set_cons_succ, Value.preorderAll, List.mem_append] at hm ⊢
        have := ih i
        tauto
  unfold Node.set at hm
  split at hm
  · exact hset _ _ hm
  · exact Or.inl hm

theorem Node.depthAll_set_le {n : Node} {f : Field} {v : Value}
    (hv : v.depth ≤ Value.depthAll n.fields) :
    Value.depthAll (n.set f v).fields ≤ Value.depthAll n.fields := by
  have hset : ∀ (vs : List Value) (i : Nat),
      Value.depthAll (vs.set i v) ≤ max (Value.depthAll vs) v.depth := by
    intro vs i
    induction vs generalizing i with
    | nil => simp [Value.depthAll]
    | cons u vs ih =>
      cases i with
      | zero => simp only [List.set_cons_zero, Value.depthAll]; omega
      | succ i =>
        have := ih i
        simp only [List.set_cons_succ, Value.depthAll]
        omega
  unfold Node.set
  split
  · exact (hset _ _).trans (by omega)
  · exact le_rfl

theorem Node.get_depth_le (n : Node) (f : Field) : (n.get f).depth ≤ Value.depthAll n.fields := by
  rcases n.get_mem_or_null f with h | h
  · exact Value.depth_le_depthAll h
  · simp [h, Value.depth]

theorem Node.mem_preorderAll_of_get {n m : Node} {f : Field} (hm : m ∈ (n.get f).preorder) :
    m ∈ Value.preorderAll n.fields := by
  rcases n.get_mem_or_null f with h | h
  · exact Value.mem_preorderAll h hm
  · simp [h, Value.preorder] at hm

mutual

theorem Node.preorder_subset {m : Node} : (n : Node) → m ∈ n.preorder → m.preorder ⊆ n.preorder
  | ⟨kind, place, fields⟩, hm => by
    rw [Node.preorder, List.mem_cons] at hm
    rcases hm with rfl | hm
    · exact fun _ hk => hk
    · rw [Node.preorder]
      exact fun k hk => List.mem_cons_of_mem _ (Value.preorderAll_subset fields hm hk)

theorem Value.preorder_subset {m : Node} : (v : Value) → m ∈ v.preorder → m.preorder ⊆ v.preorder
  | .node n, hm => by
    rw [Value.preorder] at hm ⊢
    exact Node.preorder_subset n hm
  | .list vs, hm => by
    rw [Value.preorder] at hm ⊢
    split at hm
    · rename_i hall
      rw [if_pos hall]
      exact Value.preorderAll_subset vs hm
    · simp at hm
  | .atom _, hm | .object, hm => by simp [Value.preorder] at hm

theorem Value.preorderAll_subset {m : Node} : (vs : List Value) → m ∈ Value.preorderAll vs →
    m.preorder ⊆ Value.preorderAll vs
  | [], hm => by simp [Value.preorderAll] at hm
  | v :: vs, hm => by
    rw [Value.preorderAll, List.mem_append] at hm
    rw [Value.preorderAll]
    rcases hm with hm | hm
    · exact List.subset_append_of_subset_left _ (Value.preorder_subset v hm)
    · exact List.subset_append_of_subset_right _ (Value.preorderAll_subset vs hm)

end

theorem preorder_subset {unit : List Node} {m : Node} (hm : m ∈ preorder unit) :
    m.preorder ⊆ preorder unit := by
  obtain ⟨n, hn, hm⟩ := List.mem_flatMap.mp hm
  exact fun k hk => List.mem_flatMap.mpr ⟨n, hn, Node.preorder_subset n hm hk⟩

theorem Value.mem_children {v : Value} {n : Node} (hn : n ∈ v.children) :
    n.depth ≤ v.depth ∧ ∀ m ∈ n.preorder, m ∈ v.preorder := by
  cases v with
  | node n' =>
    obtain rfl : n = n' := by simpa [Value.children] using hn
    simp [Value.depth, Value.preorder]
  | list vs =>
    rw [Value.children] at hn
    cases hns : Value.nodesOf? vs with
    | none => simp [hns] at hn
    | some ns =>
      have hmem : n ∈ ns := by simpa [hns] using hn
      have hall : vs.all Value.isNode = true := by simp [Value.all_isNode_eq, hns]
      obtain rfl := Value.nodesOf?_eq_some_iff.mp hns
      have hv : Value.node n ∈ ns.map Value.node := List.mem_map_of_mem hmem
      refine ⟨?_, fun m hm => ?_⟩
      · simpa [Value.depth] using Value.depth_le_depthAll hv
      · rw [Value.preorder, if_pos hall]
        exact Value.mem_preorderAll hv (by simpa [Value.preorder] using hm)
  | _ => simp [Value.children] at hn

section Visit

variable {visit : Node → Session σ → Outcome σ Node Node} {P : Node → Prop}
  (hvisit : ∀ n s, P n → Ok s →
    visit n s = ⟨(n.sweep w s).1, (n.sweep w s).2, .ok (n.sweep w s).1⟩ ∧ Ok (n.sweep w s).2)

include hvisit

theorem walkList_sweep (hlatest : ∀ s, Ok s → s.shares.latest = []) (ns : List Node)
    (s : Session σ) (hns : ∀ n ∈ ns, P n) (hs : Ok s) :
    walkList visit ns s = ⟨(sweepUnit w s ns).1, (sweepUnit w s ns).2, .ok (sweepUnit w s ns).1⟩ ∧
      Ok (sweepUnit w s ns).2 := by
  induction ns generalizing s with
  | nil => exact ⟨rfl, hs⟩
  | cons n ns ih =>
    obtain ⟨hn, hok⟩ := hvisit n s (hns n List.mem_cons_self) hs
    obtain ⟨hrest, hok'⟩ := ih _ (fun m hm => hns m (List.mem_cons_of_mem _ hm)) hok
    simp [walkList, sweepUnit, Shares.refreshNode_of_latest_eq_nil (hlatest s hs), hn, hrest, hok',
      Except.map]

theorem walkField_sweep (hlatest : ∀ s, Ok s → s.shares.latest = []) (v : Value) (s : Session σ)
    (hv : ∀ n ∈ v.children, P n) (hs : Ok s) :
    walkField visit v s = ⟨(v.sweep w s).1, (v.sweep w s).2, .ok (v.sweep w s).1⟩ ∧
      Ok (v.sweep w s).2 := by
  cases v with
  | node n =>
    obtain ⟨hn, hok⟩ := hvisit n s (hv n (by simp [Value.children])) hs
    simp [walkField, Value.sweep, hn, hok, Except.map]
  | list vs =>
    rw [walkField, Value.sweep, Value.all_isNode_eq]
    cases hns : Value.nodesOf? vs with
    | none => exact ⟨rfl, hs⟩
    | some ns =>
      have hp : ∀ n ∈ ns, P n := by simpa [Value.children, hns] using hv
      obtain ⟨hlist, hok⟩ := walkList_sweep hvisit hlatest ns s hp hs
      obtain rfl := Value.nodesOf?_eq_some_iff.mp hns
      simp [hlist, hok, Value.sweepAll_nodes, Except.map]
  | _ => simp [walkField, Value.sweep, Session.done, hs]

theorem walkFields_sweep (hlatest : ∀ s, Ok s → s.shares.latest = []) (fields : List Value)
    (s : Session σ) (hp : ∀ v ∈ fields, ∀ n ∈ v.children, P n) (hs : Ok s) :
    walkFields visit fields s =
      ⟨(Value.sweepAll w s fields).1, (Value.sweepAll w s fields).2, .ok ()⟩ ∧
      Ok (Value.sweepAll w s fields).2 := by
  induction fields generalizing s with
  | nil => exact ⟨rfl, hs⟩
  | cons v vs ih =>
    obtain ⟨hv, hok⟩ := walkField_sweep hvisit hlatest v s (hp v List.mem_cons_self) hs
    obtain ⟨hrest, hok'⟩ := ih _ (fun u hu => hp u (List.mem_cons_of_mem _ hu)) hok
    simp [walkFields, Value.sweepAll, Shares.refresh_of_latest_eq_nil (hlatest s hs), hv, hrest,
      hok']

end Visit

/-- What is below a node is walked after the node has been dressed, and it comes to the same as to
sweep it first and to dress the node then. -/
theorem Sweep.Describes.walkFields (h : w.Describes vs Good Ok) {limit : Nat}
    {visit : Node → Session σ → Outcome σ Node Node}
    (hvisit : ∀ m t, (m.depth ≤ limit ∧ ∀ k ∈ m.preorder, Good k) → Ok t →
      visit m t = ⟨(m.sweep w t).1, (m.sweep w t).2, .ok (m.sweep w t).1⟩ ∧ Ok (m.sweep w t).2)
    {n : Node} (hd : Value.depthAll n.fields ≤ limit) (hn : ∀ m ∈ n.preorder, Good m)
    {s : Session σ} (hs : Ok s) :
    PropertyRenaming.walkFields visit (w.dressed n s n.fields).fields (w.opened n s) =
        ⟨(w.dressed n s (Value.sweepAll w (w.opened n s) n.fields).1).fields,
          (Value.sweepAll w (w.opened n s) n.fields).2, .ok ()⟩ ∧
      Ok (Value.sweepAll w (w.opened n s) n.fields).2 := by
  have hgood : Good n := hn n (by simp [Node.preorder_eq])
  have hfields : ∀ m ∈ Value.preorderAll n.fields, Good m := fun m hm =>
    hn m (by simp [Node.preorder_eq, hm])
  have hpatched : Value.sweepAll w (w.opened n s) (w.dressed n s n.fields).fields =
      ((w.dressed n s (Value.sweepAll w (w.opened n s) n.fields).1).fields,
        (Value.sweepAll w (w.opened n s) n.fields).2) :=
    Node.sweepAll_patched ((h.filled hgood).refill _ rfl) (h.commutes hgood) _
  have hwalk := walkFields_sweep hvisit (fun t => h.settled) (w.dressed n s n.fields).fields
    (w.opened n s) (fun v hv m hm => ?_) (h.ok_opened hgood hs)
  · rwa [hpatched] at hwalk
  · -- Dressing brings in no deeper nodes, and none that the visitors cannot deal with.
    obtain ⟨hdepth, hbelow⟩ := Value.mem_children hm
    have hle := hdepth.trans ((Value.depth_le_depthAll hv).trans (h.depth hgood))
    exact ⟨hle.trans hd, fun k hk =>
      h.good hgood hfields k (Value.mem_preorderAll hv (hbelow k hk))⟩

theorem Sweep.Describes.walkNode (h : w.Describes vs Good Ok) (limit : Nat) (n : Node)
    (s : Session σ) (hd : n.depth ≤ limit) (hn : ∀ m ∈ n.preorder, Good m) (hs : Ok s) :
    walkNode vs limit 0 n s = ⟨(n.sweep w s).1, (n.sweep w s).2, .ok (n.sweep w s).1⟩ ∧
      Ok (n.sweep w s).2 := by
  -- By induction on the limit and not on the node: the walk goes on in fields that are not its own.
  induction limit generalizing n s with
  | zero =>
    obtain ⟨kind, place, fields⟩ := n
    simp [Node.depth] at hd
  | succ limit ih =>
    have hgood : Good n := hn n (by simp [Node.preorder_eq])
    have hdepth : Value.depthAll n.fields ≤ limit := by
      obtain ⟨kind, place, fields⟩ := n
      simpa [Node.depth] using hd
    obtain ⟨hwalk, hok⟩ := h.walkFields (fun m t hm ht => ih m t hm.1 hm.2 ht) hdepth hn hs
    have hrefresh : ∀ us : List Value,
        us.map (Value.sweepAll w (w.opened n s) n.fields).2.shares.refresh = us :=
      List.map_id'' fun v => Shares.refresh_of_latest_eq_nil (h.settled hok) v
    have hframe : ∀ fields, (⟨(w.dressed n s n.fields).kind, (w.dressed n s n.fields).place,
        (w.dressed n s fields).fields⟩ : Node) = w.dressed n s fields := fun fields => by
      rw [w.kind_dressed, w.place_dressed, ← w.kind_dressed n s fields,
        ← w.place_dressed n s fields, Node.eta]
    have hleave := h.leave (s := s) hgood hok rfl
    rw [PropertyRenaming.walkNode, h.enter hgood hs, Node.sweep_eq]
    simp only [Session.done, Outcome.andThen, Stand.walkFields_within_zero, hwalk, hrefresh, hframe]
    rw [hleave]
    have hclosed := h.ok_closed hgood hok
    simp only [Session.done, Stand.start, Node.inner, w.keep_dressed (h.unshared hgood),
      Shares.refreshNode_of_latest_eq_nil (h.settled hclosed), Except.map]
    exact ⟨trivial, hclosed⟩

theorem depth_le_of_mem {unit : List Node} {n : Node} (hn : n ∈ unit) :
    n.depth ≤ PropertyRenaming.depth unit := by
  induction unit with
  | nil => simp at hn
  | cons m unit ih =>
    simp only [PropertyRenaming.depth, List.map_cons, List.foldr_cons] at ih ⊢
    rcases List.mem_cons.mp hn with rfl | hn
    · exact le_max_left _ _
    · exact (ih hn).trans (le_max_right _ _)

theorem Sweep.Describes.walkUnit (h : w.Describes vs Good Ok) {limit : Nat} {unit : List Node}
    (hd : PropertyRenaming.depth unit ≤ limit) (hg : ∀ n ∈ preorder unit, Good n) {s : Session σ}
    (hs : Ok s) :
    walkList (PropertyRenaming.walkNode vs limit 0) unit s =
        ⟨(sweepUnit w s unit).1, (sweepUnit w s unit).2, .ok (sweepUnit w s unit).1⟩ ∧
      Ok (sweepUnit w s unit).2 := by
  refine walkList_sweep (P := fun n => n.depth ≤ limit ∧ ∀ m ∈ n.preorder, Good m)
    ?_ (fun t => h.settled) unit s ?_ hs
  · exact fun n t hn ht => h.walkNode limit n t hn.1 hn.2 ht
  · intro n hn
    exact ⟨(depth_le_of_mem hn).trans hd, fun m hm => hg m (List.mem_flatMap.mpr ⟨n, hn, hm⟩)⟩

/-- A whole walk, with what the visitors do to the unit before and after. -/
theorem Sweep.Describes.traverseAll (h : w.Describes vs Good Ok) {limit : Nat}
    {unit unit' : List Node} {s t u : Session σ}
    (hbefore : callUnitHooks .before Visitor.before vs ⟨unit, none⟩ s = t.done ⟨unit', none⟩ ())
    (hd : PropertyRenaming.depth unit' ≤ limit) (hg : ∀ n ∈ preorder unit', Good n)
    (ht : Ok t.settled) {nodes : List Node} (hnodes : (sweepUnit w t.settled unit').1 = nodes)
    (hafter : callUnitHooks .after Visitor.after vs ⟨nodes, some nodes⟩
      (sweepUnit w t.settled unit').2 = u.done ⟨nodes, some nodes⟩ ()) :
    PropertyRenaming.traverse limit vs unit s = ⟨nodes, u, .ok nodes⟩ := by
  obtain ⟨hwalk, hok⟩ := h.walkUnit hd hg ht
  rw [hnodes] at hwalk
  have hnow : nodes.map (sweepUnit w t.settled unit').2.shares.refreshNode = nodes :=
    List.map_id'' (fun n => Shares.refreshNode_of_latest_eq_nil (h.settled hok) n) nodes
  simp only [PropertyRenaming.traverse, hbefore, Session.done, Outcome.andThen, Roll.walk,
    Roll.conclude, Option.getD_none]
  rw [hwalk]
  simp only [Session.done, hnow, hafter, Roll.start, Option.getD_some, Except.map]

theorem Sweep.Describes.traverse {v : Visitor σ} (h : w.Describes [v] Good Ok) {limit : Nat}
    {unit unit' : List Node} {s t u : Session σ} (hbefore : v.before unit s = t.done unit' .keep)
    (hd : PropertyRenaming.depth unit' ≤ limit) (hg : ∀ n ∈ preorder unit', Good n)
    (ht : Ok t.settled)
    (hafter : v.after (sweepUnit w t.settled unit').1 (sweepUnit w t.settled unit').2 =
      u.done (sweepUnit w t.settled unit').1 .keep) :
    PropertyRenaming.traverse limit [v] unit s =
      ⟨(sweepUnit w t.settled unit').1, u, .ok (sweepUnit w t.settled unit').1⟩ := by
  refine h.traverseAll (t := t) ?_ hd hg ht rfl ?_
  · simp [callUnitHooks, hbefore, Session.done, Roll.accept]
  · simp [callUnitHooks, hafter, Session.done, Roll.accept]

/-- A walk ends before it begins if a visitor refuses the unit. -/
theorem traverse_of_hooks_error {vs : List (Visitor σ)} {unit : List Node} {s : Session σ}
    {e : Fault}
    (h : (callUnitHooks .before Visitor.before vs ⟨unit, none⟩ s).reply = .error e) (limit : Nat) :
    (traverse limit vs unit s).reply = .error e := by
  simp only [PropertyRenaming.traverse, Outcome.andThen, h, Except.map]

theorem traverse_of_before_error {v : Visitor σ} {unit : List Node} {s : Session σ} {e : Fault}
    (h : (v.before unit s).reply = .error e) (limit : Nat) (vs : List (Visitor σ)) :
    (traverse limit (v :: vs) unit s).reply = .error e := by
  apply traverse_of_hooks_error
  simp only [callUnitHooks, h, Session.fail]

end Walk

end PropertyRenaming
