import PropertyRenaming.Proofs.Exchanges

namespace PropertyRenaming

open List (Forall₂)
open Value (Updated)

section Unshared

mutual

/-- Neither the node nor one below it is shared. -/
def Node.Unshared : Node → Prop
  | ⟨_, place, fields⟩ => place.share = none ∧ Value.UnsharedAll fields

def Value.Unshared : Value → Prop
  | .node n => n.Unshared
  | .list vs => Value.UnsharedAll vs
  | .atom _ | .object => True

def Value.UnsharedAll : List Value → Prop
  | [] => True
  | v :: vs => v.Unshared ∧ Value.UnsharedAll vs

end

mutual

theorem Node.agrees_of_unshared (table : ShareId → Node) : (n : Node) → n.Unshared → n.Agrees table
  | ⟨kind, place, fields⟩, h => by
    rw [Node.Unshared] at h
    rw [Node.Agrees]
    exact ⟨fun id hid => absurd (h.1.symm.trans hid) nofun,
      Value.agreesAll_of_unshared table fields h.2⟩

theorem Value.agrees_of_unshared (table : ShareId → Node) : (v : Value) → v.Unshared →
    v.Agrees table
  | .node n, h => by
    rw [Value.Unshared] at h
    exact Node.agrees_of_unshared table n h
  | .list vs, h => by
    rw [Value.Unshared] at h
    exact Value.agreesAll_of_unshared table vs h
  | .atom _, _ | .object, _ => by simp [Value.Agrees]

theorem Value.agreesAll_of_unshared (table : ShareId → Node) : (vs : List Value) →
    Value.UnsharedAll vs → Value.AgreesAll table vs
  | [], _ => by simp [Value.AgreesAll]
  | v :: vs, h => by
    rw [Value.UnsharedAll] at h
    exact ⟨Value.agrees_of_unshared table v h.1, Value.agreesAll_of_unshared table vs h.2⟩

end

/-- Where nothing is shared, there is nothing to bring up to date. -/
theorem Value.Updated.eq_of_unshared {v u : Value} (h : v.Updated u) (hv : v.Unshared) : u = v := by
  obtain ⟨t, -, rfl⟩ := h
  -- Whatever is kept under a number, no node here has that number.
  unfold Shares.refresh
  generalize t.latest = entries
  induction entries with
  | nil => rfl
  | cons e entries ih =>
    have hput := Value.putShared_of_agrees e.1 v (Value.agrees_of_unshared (fun _ => e.2) v hv)
    rw [List.foldl_cons, hput, ih]

mutual

def Node.decidableUnshared : (n : Node) → Decidable n.Unshared
  | ⟨_, _, fields⟩ =>
    have := Value.decidableUnsharedAll fields
    decidable_of_iff _ (Iff.of_eq (Node.Unshared.eq_1 ..).symm)

def Value.decidableUnshared : (v : Value) → Decidable v.Unshared
  | .node n =>
    have := n.decidableUnshared
    decidable_of_iff _ (Iff.of_eq (Value.Unshared.eq_1 n).symm)
  | .list vs =>
    have := Value.decidableUnsharedAll vs
    decidable_of_iff _ (Iff.of_eq (Value.Unshared.eq_2 vs).symm)
  | .atom _ | .object => isTrue (by simp [Value.Unshared])

def Value.decidableUnsharedAll : (vs : List Value) → Decidable (Value.UnsharedAll vs)
  | [] => isTrue (by simp [Value.UnsharedAll])
  | v :: vs =>
    have := v.decidableUnshared
    have := Value.decidableUnsharedAll vs
    decidable_of_iff _ (Iff.of_eq (Value.UnsharedAll.eq_2 v vs).symm)

end

instance : DecidablePred Node.Unshared := Node.decidableUnshared

theorem Value.unsharedAll_iff {vs : List Value} :
    Value.UnsharedAll vs ↔ ∀ v ∈ vs, v.Unshared := by
  induction vs with
  | nil => simp [Value.UnsharedAll]
  | cons v vs ih => rw [Value.UnsharedAll, List.forall_mem_cons, ih]

theorem Value.unsharedAll_append {vs us : List Value} :
    Value.UnsharedAll (vs ++ us) ↔ Value.UnsharedAll vs ∧ Value.UnsharedAll us := by
  simp only [Value.unsharedAll_iff, List.forall_mem_append]

theorem Value.unsharedAll_nodes {ns : List Node} :
    Value.UnsharedAll (ns.map .node) ↔ ∀ n ∈ ns, n.Unshared := by
  simp [Value.unsharedAll_iff, Value.Unshared]

theorem Node.unshared_iff {n : Node} :
    n.Unshared ↔ n.place.share = none ∧ Value.UnsharedAll n.fields := by
  obtain ⟨kind, place, fields⟩ := n
  rw [Node.Unshared]

theorem Node.Unshared.fields {n : Node} (h : n.Unshared) {fields : List Value}
    (hfields : Value.UnsharedAll fields) : Node.Unshared { n with fields } :=
  Node.unshared_iff.mpr ⟨(Node.unshared_iff.mp h).1, hfields⟩

theorem Value.unshared_initial (kind : Kind) (f : Field) : (Value.initial kind f).Unshared := by
  cases f <;> simp [Value.initial, Value.Unshared, Value.UnsharedAll]
  split <;> simp [Value.Unshared]

theorem Node.Unshared.wrapping {n : Node} (h : n.Unshared) (kind : Kind) :
    (Node.wrapping kind n).Unshared := by
  refine Node.unshared_iff.mpr ⟨rfl, Value.unsharedAll_iff.mpr ?_⟩
  intro v hv
  rcases List.mem_cons.mp hv with rfl | hv
  · exact h
  · obtain ⟨f, -, rfl⟩ := List.mem_map.mp hv
    exact Value.unshared_initial kind f

theorem Node.Unshared.inner {n : Node} (h : n.Unshared) : (depth : Nat) → (n.inner depth).Unshared
  | 0 => h
  | depth + 1 => by
    rw [Node.inner]
    split
    · rename_i first rest hfields
      have hall := (Node.unshared_iff.mp h).2
      rw [hfields] at hall
      exact Node.Unshared.inner hall.1 depth
    · exact h

theorem Value.Updated.unshared {v u : Value} (h : v.Updated u) (hv : v.Unshared) : u.Unshared := by
  rwa [h.eq_of_unshared hv]

theorem OnNodes.unshared {n m : Node} (h : OnNodes Updated n m) (hn : n.Unshared) : m.Unshared :=
  Value.Updated.unshared h hn

theorem OnNodes.eq_of_unshared {n m : Node} (h : OnNodes Updated n m) (hn : n.Unshared) : m = n :=
  Value.node.inj (Updated.eq_of_unshared h hn)

theorem eq_of_forall₂_updated {vs us : List Value} (h : Forall₂ Updated vs us) :
    Value.UnsharedAll vs → us = vs := by
  induction h with
  | nil => exact fun _ => rfl
  | cons hv _ ih => exact fun hvs => congrArg₂ List.cons (hv.eq_of_unshared hvs.1) (ih hvs.2)

theorem eq_of_forall₂_onNodes {ns ms : List Node} (h : Forall₂ (OnNodes Updated) ns ms)
    (hns : ∀ n ∈ ns, n.Unshared) : ms = ns := by
  induction h with
  | nil => rfl
  | cons hn _ ih =>
    rw [List.forall_mem_cons] at hns
    rw [hn.eq_of_unshared hns.1, ih hns.2]

end Unshared

section Hooks

/-- Nothing in the answer stands anywhere else. -/
def Reply.Fresh : Reply → Prop
  | .give v => v.Unshared
  | .keep | .same | .wrap _ => True

def Exchange.Fresh (x : Exchange) : Prop := ∀ reply, x.reply = .ok reply → reply.Fresh

instance : DecidablePred Reply.Fresh
  | .give v => v.decidableUnshared
  | .keep | .same | .wrap _ => isTrue trivial

instance : DecidablePred Exchange.Fresh
  | ⟨_, _, _, .error _⟩ => isTrue nofun
  | ⟨_, _, _, .ok reply⟩ => decidable_of_iff reply.Fresh (by simp [Exchange.Fresh])

structure Stand.Unshared (st : Stand) : Prop where
  node : st.node.Unshared
  start : st.start.Unshared

variable {who : List (Nat × String)} {st st' : Stand} {xs : List Exchange}

theorem Stand.unshared_within {n : Node} (h : n.Unshared) (depth : Nat) :
    Stand.Unshared ⟨n, .within depth⟩ :=
  ⟨h, h.inner depth⟩

theorem Taken.plain {reply : Reply} (h : Taken Updated st reply st') (hst : st.Unshared)
    (hreply : reply.Fresh) : Taken Eq st reply st' ∧ st'.Unshared := by
  have hstart := h.start_eq
  cases h with
  | keep => exact ⟨.keep, hst⟩
  | same => exact ⟨.same, hst⟩
  | wrap kind => exact ⟨.wrap kind, hst.node.wrapping kind, hstart ▸ hst.start⟩
  | give hnow =>
    obtain rfl := hnow.eq_of_unshared hreply
    exact ⟨.give rfl, hreply, hst.start⟩

theorem Passed.plain {step : Node → Step} (h : Passed Updated step who st xs st')
    (hst : st.Unshared) (hxs : ∀ x ∈ xs, x.Fresh) : Passed Eq step who st xs st' ∧ st'.Unshared := by
  induction h with
  | nil => exact ⟨.nil, hst⟩
  | cons htaken _ ih =>
    rw [List.forall_mem_cons] at hxs
    obtain ⟨htaken, hst⟩ := htaken.plain hst (hxs.1 _ rfl)
    obtain ⟨hpassed, hst⟩ := ih hst hxs.2
    exact ⟨.cons htaken hpassed, hst⟩

theorem Halted.plain {step : Node → Step} (h : Halted Updated step who st xs st')
    (hst : st.Unshared) (hxs : ∀ x ∈ xs, x.Fresh) : Halted Eq step who st xs st' := by
  induction h with
  | here hposition hlabel hcall hfault => exact .here hposition hlabel hcall hfault
  | later htaken _ ih =>
    rw [List.forall_mem_cons] at hxs
    obtain ⟨htaken, hst⟩ := htaken.plain hst (hxs.1 _ rfl)
    exact .later htaken (ih hst hxs.2)

structure Roll.Unshared (roll : Roll) : Prop where
  nodes : ∀ n ∈ roll.nodes, n.Unshared
  caller : ∀ ns, roll.caller = some ns → ∀ n ∈ ns, n.Unshared

theorem Roll.Unshared.getD_caller {roll : Roll} (h : roll.Unshared) {left : List Node}
    (hleft : ∀ n ∈ left, n.Unshared) : ∀ n ∈ roll.caller.getD left, n.Unshared := by
  cases hcaller : roll.caller with
  | none => exact hleft
  | some ns => exact h.caller ns hcaller

theorem UnitTaken.plain {roll roll' : Roll} {reply : Reply}
    (h : UnitTaken Updated roll reply roll') (hroll : roll.Unshared) (hreply : reply.Fresh) :
    UnitTaken Eq roll reply roll' ∧ roll'.Unshared := by
  cases h with
  | keep => exact ⟨.keep, hroll⟩
  | same => exact ⟨.same, hroll⟩
  | give hnow =>
    have hns := Value.unsharedAll_nodes.mp hreply
    obtain rfl := eq_of_forall₂_onNodes hnow hns
    refine ⟨.give (List.forall₂_same.mpr fun _ _ => rfl), hns, ?_⟩
    rintro _ ⟨⟩
    exact hroll.getD_caller hroll.nodes

theorem UnitPassed.plain {call : List Node → Call} {roll roll' : Roll}
    (h : UnitPassed Updated call who roll xs roll') (hroll : roll.Unshared)
    (hxs : ∀ x ∈ xs, x.Fresh) : UnitPassed Eq call who roll xs roll' ∧ roll'.Unshared := by
  induction h with
  | nil => exact ⟨.nil, hroll⟩
  | cons htaken _ ih =>
    rw [List.forall_mem_cons] at hxs
    obtain ⟨htaken, hroll⟩ := htaken.plain hroll (hxs.1 _ rfl)
    obtain ⟨hpassed, hroll⟩ := ih hroll hxs.2
    exact ⟨.cons htaken hpassed, hroll⟩

end Hooks

section Visits

variable {who : List (Nat × String)}

theorem Stand.Unshared.of_inFirst {st : Stand} (hst : st.Unshared) {depth : Nat} {first : Node}
    {rest : List Value} (h : st.inFirst? = some (depth, first, rest)) :
    first.Unshared ∧ Value.UnsharedAll rest := by
  obtain ⟨-, hfields⟩ := Stand.inFirst?_eq_some_iff.mp h
  have hall := (Node.unshared_iff.mp hst.node).2
  rw [hfields] at hall
  exact hall

theorem Stand.Unshared.fields {st : Stand} (hst : st.Unshared) {fields : List Value}
    (hfields : Value.UnsharedAll fields) :
    Stand.Unshared ⟨{ st.node with fields }, st.origin⟩ := by
  have hnode := hst.node.fields hfields
  refine ⟨hnode, ?_⟩
  obtain ⟨node, origin⟩ := st
  cases origin with
  | within depth => exact hnode.inner depth
  | apart n => exact hst.start

mutual

theorem Visited.plain {depth : Nat} {n left became : Node} {xs : List Exchange} :
    Visited Updated who depth n xs left became → n.Unshared → (∀ x ∈ xs, x.Fresh) →
      Visited Eq who depth n xs left became ∧ left.Unshared ∧ became.Unshared
  | .mk hpassed hwalked hleaving hleft, hn, hxs => by
    simp only [List.forall_mem_append] at hxs
    obtain ⟨hpassed, hst⟩ := hpassed.plain (Stand.unshared_within hn depth) hxs.1.1
    obtain ⟨hwalked, hst₁⟩ := hwalked.plain hst hxs.1.2
    obtain ⟨hleaving, hst₂⟩ := hleaving.plain hst₁ hxs.2
    obtain rfl := hleft.eq_of_unshared hst₁.start
    exact ⟨.mk hpassed hwalked hleaving rfl, hst₁.start, hst₂.node⟩

theorem Walked.plain {st st' : Stand} {xs : List Exchange} :
    Walked Updated who st xs st' → st.Unshared → (∀ x ∈ xs, x.Fresh) →
      Walked Eq who st xs st' ∧ st'.Unshared
  | .fields hin hfields hnow, hst, hxs => by
    obtain ⟨hfields, hus⟩ := hfields.plain (Node.unshared_iff.mp hst.node).2 hxs
    obtain rfl := eq_of_forall₂_updated hnow hus
    exact ⟨.fields hin hfields (List.forall₂_same.mpr fun _ _ => rfl), hst.fields hus⟩
  | .around hin hvisited hrest hleft hnow, hst, hxs => by
    rw [List.forall_mem_append] at hxs
    obtain ⟨hfirst, hvs⟩ := hst.of_inFirst hin
    obtain ⟨hvisited, hunleft, hunbecame⟩ := hvisited.plain hfirst hxs.1
    obtain ⟨hrest, hus⟩ := hrest.plain hvs hxs.2
    obtain rfl := hleft.eq_of_unshared hunleft
    obtain rfl := eq_of_forall₂_updated hnow ⟨hunbecame, hus⟩
    exact ⟨.around hin hvisited hrest rfl (List.forall₂_same.mpr fun _ _ => rfl),
      hst.node.fields ⟨hunbecame, hus⟩, hunleft⟩

theorem FieldsWalked.plain {vs us : List Value} {xs : List Exchange} :
    FieldsWalked Updated who vs xs us → Value.UnsharedAll vs → (∀ x ∈ xs, x.Fresh) →
      FieldsWalked Eq who vs xs us ∧ Value.UnsharedAll us
  | .nil, _, _ => ⟨.nil, trivial⟩
  | .cons hnow hfirst hrest, hvs, hxs => by
    rw [List.forall_mem_append] at hxs
    obtain ⟨hfirst, -, hunbecame⟩ := hfirst.plain (hnow.unshared hvs.1) hxs.1
    obtain ⟨hrest, hus⟩ := hrest.plain hvs.2 hxs.2
    obtain rfl := hnow.eq_of_unshared hvs.1
    exact ⟨.cons rfl hfirst hrest, hunbecame, hus⟩

theorem FieldWalked.plain {v left became : Value} {xs : List Exchange} :
    FieldWalked Updated who v xs left became → v.Unshared → (∀ x ∈ xs, x.Fresh) →
      FieldWalked Eq who v xs left became ∧ left.Unshared ∧ became.Unshared
  | .node hvisited, hv, hxs => by
    obtain ⟨hvisited, hunleft, hunbecame⟩ := hvisited.plain hv hxs
    exact ⟨.node hvisited, hunleft, hunbecame⟩
  | .nodes hvisited, hv, hxs => by
    obtain ⟨hvisited, hunleft, hunbecame⟩ := hvisited.plain (Value.unsharedAll_nodes.mp hv) hxs
    exact ⟨.nodes hvisited, Value.unsharedAll_nodes.mpr hunleft,
      Value.unsharedAll_nodes.mpr hunbecame⟩
  | .other hchildren, hv, _ => ⟨.other hchildren, hv, hv⟩

theorem AllVisited.plain {ns left became : List Node} {xs : List Exchange} :
    AllVisited Updated who ns xs left became → (∀ n ∈ ns, n.Unshared) → (∀ x ∈ xs, x.Fresh) →
      AllVisited Eq who ns xs left became ∧ (∀ n ∈ left, n.Unshared) ∧ ∀ n ∈ became, n.Unshared
  | .nil, _, _ => ⟨.nil, nofun, nofun⟩
  | .cons hnow hfirst hrest, hns, hxs => by
    rw [List.forall_mem_append] at hxs
    rw [List.forall_mem_cons] at hns
    obtain ⟨hfirst, hleft, hbecame⟩ := hfirst.plain (OnNodes.unshared hnow hns.1) hxs.1
    obtain ⟨hrest, hlefts, hbecames⟩ := hrest.plain hns.2 hxs.2
    obtain rfl := OnNodes.eq_of_unshared hnow hns.1
    exact ⟨.cons rfl hfirst hrest, List.forall_mem_cons.mpr ⟨hleft, hlefts⟩,
      List.forall_mem_cons.mpr ⟨hbecame, hbecames⟩⟩

end

mutual

theorem Aborted.plain {depth : Nat} {n : Node} {st : Stand} {xs : List Exchange} :
    Aborted Updated who depth n xs st → n.Unshared → (∀ x ∈ xs, x.Fresh) →
      Aborted Eq who depth n xs st ∧ st.start.Unshared
  | .entering hhalted, hn, hxs => by
    have hbegin := Stand.unshared_within hn depth
    have hstart := hbegin.start
    rw [← hhalted.start_eq] at hstart
    exact ⟨.entering (hhalted.plain hbegin hxs), hstart⟩
  | .inside hpassed hbelow, hn, hxs => by
    have hbegin := Stand.unshared_within hn depth
    rw [List.forall_mem_append] at hxs
    obtain ⟨hpassed, hst⟩ := hpassed.plain hbegin hxs.1
    obtain ⟨hbelow, hstart⟩ := hbelow.plain hst hxs.2
    exact ⟨.inside hpassed hbelow, hstart⟩
  | .leaving hpassed hwalked hhalted, hn, hxs => by
    have hbegin := Stand.unshared_within hn depth
    simp only [List.forall_mem_append] at hxs
    obtain ⟨hpassed, hst⟩ := hpassed.plain hbegin hxs.1.1
    obtain ⟨hwalked, hst⟩ := hwalked.plain hst hxs.1.2
    have hstart := hst.start
    rw [← hhalted.start_eq] at hstart
    exact ⟨.leaving hpassed hwalked (hhalted.plain hst hxs.2), hstart⟩

theorem AbortedBelow.plain {st st' : Stand} {xs : List Exchange} :
    AbortedBelow Updated who st xs st' → st.Unshared → (∀ x ∈ xs, x.Fresh) →
      AbortedBelow Eq who st xs st' ∧ st'.start.Unshared
  | .fields hin hfields hnow, hst, hxs => by
    obtain ⟨hfields, hus⟩ := hfields.plain (Node.unshared_iff.mp hst.node).2 hxs
    obtain rfl := eq_of_forall₂_updated hnow hus
    exact ⟨.fields hin hfields (List.forall₂_same.mpr fun _ _ => rfl), (hst.fields hus).start⟩
  | .first hin haborted hleft, hst, hxs => by
    obtain ⟨haborted, hstart⟩ := haborted.plain (hst.of_inFirst hin).1 hxs
    obtain rfl := hleft.eq_of_unshared hstart
    exact ⟨.first hin haborted rfl, hstart⟩
  | .rest hin hvisited hrest hleft hnow, hst, hxs => by
    rw [List.forall_mem_append] at hxs
    obtain ⟨hfirst, hvs⟩ := hst.of_inFirst hin
    obtain ⟨hvisited, hunleft, hunbecame⟩ := hvisited.plain hfirst hxs.1
    obtain ⟨hrest, hus⟩ := hrest.plain hvs hxs.2
    obtain rfl := hleft.eq_of_unshared hunleft
    obtain rfl := eq_of_forall₂_updated hnow ⟨hunbecame, hus⟩
    exact ⟨.rest hin hvisited hrest rfl (List.forall₂_same.mpr fun _ _ => rfl), hunleft⟩

theorem FieldsAborted.plain {vs us : List Value} {xs : List Exchange} :
    FieldsAborted Updated who vs xs us → Value.UnsharedAll vs → (∀ x ∈ xs, x.Fresh) →
      FieldsAborted Eq who vs xs us ∧ Value.UnsharedAll us
  | .mk hearlier hnow haborted, hvs, hxs => by
    rw [List.forall_mem_append] at hxs
    obtain ⟨hunearlier, hv, hlater⟩ := Value.unsharedAll_append.mp hvs
    obtain ⟨hearlier, hundone⟩ := hearlier.plain hunearlier hxs.1
    obtain ⟨haborted, hunleft⟩ := haborted.plain (hnow.unshared hv) hxs.2
    obtain rfl := hnow.eq_of_unshared hv
    exact ⟨.mk hearlier rfl haborted, Value.unsharedAll_append.mpr ⟨hundone, hunleft, hlater⟩⟩

theorem FieldAborted.plain {v left : Value} {xs : List Exchange} :
    FieldAborted Updated who v xs left → v.Unshared → (∀ x ∈ xs, x.Fresh) →
      FieldAborted Eq who v xs left ∧ left.Unshared
  | .node haborted hleft, hv, hxs => by
    obtain ⟨haborted, hstart⟩ := haborted.plain hv hxs
    obtain rfl := hleft.eq_of_unshared hstart
    exact ⟨.node haborted rfl, hstart⟩
  | .nodes haborted, hv, hxs => by
    obtain ⟨haborted, hunleft⟩ := haborted.plain (Value.unsharedAll_nodes.mp hv) hxs
    exact ⟨.nodes haborted, Value.unsharedAll_nodes.mpr hunleft⟩

theorem AllAborted.plain {ns left : List Node} {xs : List Exchange} :
    AllAborted Updated who ns xs left → (∀ n ∈ ns, n.Unshared) → (∀ x ∈ xs, x.Fresh) →
      AllAborted Eq who ns xs left ∧ ∀ n ∈ left, n.Unshared
  | .mk hearlier hnow haborted hleft, hns, hxs => by
    rw [List.forall_mem_append] at hxs
    rw [List.forall_mem_append, List.forall_mem_cons] at hns
    obtain ⟨hunearlier, hn, hlater⟩ := hns
    obtain ⟨hearlier, hlefts, -⟩ := hearlier.plain hunearlier hxs.1
    obtain ⟨haborted, hstart⟩ := haborted.plain (OnNodes.unshared hnow hn) hxs.2
    obtain rfl := OnNodes.eq_of_unshared hnow hn
    obtain rfl := hleft.eq_of_unshared hstart
    exact ⟨.mk hearlier rfl haborted rfl,
      List.forall_mem_append.mpr ⟨hlefts, List.forall_mem_cons.mpr ⟨hstart, hlater⟩⟩⟩

end

theorem Concluded.plain {roll walked : Roll} {left became : List Node}
    (h : Concluded Updated roll left became walked) (hroll : roll.Unshared)
    (hleft : ∀ n ∈ left, n.Unshared) (hbecame : ∀ n ∈ became, n.Unshared) :
    Concluded Eq roll left became walked ∧ walked.Unshared := by
  cases h with
  | mk hnodes hcaller =>
    have hunshared := hroll.getD_caller hleft
    obtain rfl := eq_of_forall₂_onNodes hnodes hbecame
    obtain rfl := eq_of_forall₂_onNodes hcaller hunshared
    refine ⟨.mk (List.forall₂_same.mpr fun _ _ => rfl) (List.forall₂_same.mpr fun _ _ => rfl),
      hbecame, ?_⟩
    rintro _ ⟨⟩
    exact hunshared

theorem Returned.plain {unit : List Node} {xs : List Exchange} {roll : Roll}
    (h : Returned Updated who unit xs roll) (hunit : ∀ n ∈ unit, n.Unshared)
    (hxs : ∀ x ∈ xs, x.Fresh) : Returned Eq who unit xs roll := by
  cases h with
  | mk hbefore hvisited hconcluded hafter =>
    simp only [List.forall_mem_append] at hxs
    obtain ⟨hbefore, hroll⟩ := hbefore.plain ⟨hunit, by simp⟩ hxs.1.1
    obtain ⟨hvisited, hleft, hbecame⟩ := hvisited.plain hroll.nodes hxs.1.2
    obtain ⟨hconcluded, hwalked⟩ := hconcluded.plain hroll hleft hbecame
    exact .mk hbefore hvisited hconcluded (hafter.plain hwalked hxs.2).1

end Visits

end PropertyRenaming
