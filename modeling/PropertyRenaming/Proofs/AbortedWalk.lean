import PropertyRenaming.Context
import PropertyRenaming.Proofs.UnsharedWalk
import PropertyRenaming.Tree.Decidable

namespace PropertyRenaming

open List (Forall₂)
open Value (Updated)

section Sameness

/-- The same node, whatever has become of its fields: a shared node goes by its number, and any
other by its kind and place. -/
structure Node.Is (n m : Node) : Prop where
  share : m.place.share = n.place.share
  standing : n.place.share = none → m.kind = n.kind ∧ m.place = n.place

theorem Node.Is.refl (n : Node) : n.Is n := ⟨rfl, fun _ => ⟨rfl, rfl⟩⟩

theorem Node.Is.trans {n m k : Node} (h : n.Is m) (h' : m.Is k) : n.Is k where
  share := h'.share.trans h.share
  standing hn := by
    obtain ⟨hkind, hplace⟩ := h'.standing (h.share.trans hn)
    exact ⟨hkind.trans (h.standing hn).1, hplace.trans (h.standing hn).2⟩

theorem Node.is_fields (n : Node) (fields : List Value) : n.Is { n with fields } :=
  ⟨rfl, fun _ => ⟨rfl, rfl⟩⟩

theorem Node.is_putShared {id : ShareId} {new : Node} (hnew : new.place.share = some id)
    (n : Node) : n.Is (Node.putShared id new n) where
  share := Node.share_putShared hnew n
  standing hn := by
    obtain ⟨kind, place, fields⟩ := n
    have hother : ¬ place.share = some id := by simp [show place.share = none from hn]
    rw [Node.putShared, if_neg hother]
    exact ⟨rfl, rfl⟩

theorem OnNodes.is {n m : Node} (h : OnNodes Updated n m) : n.Is m := by
  obtain ⟨t, ht, hm⟩ := h
  rw [Shares.refresh_node, Value.node.injEq] at hm
  subst hm
  unfold Shares.Faithful at ht
  unfold Shares.refreshNode
  generalize t.latest = entries at ht ⊢
  induction entries generalizing n with
  | nil => exact .refl n
  | cons e entries ih =>
    rw [List.forall_mem_cons] at ht
    rw [List.foldl_cons]
    exact (Node.is_putShared ht.1 n).trans (ih ht.2)

def Node.Reaches : (depth : Nat) → Node → Prop
  | 0, _ => True
  | depth + 1, n => ∃ first rest, n.fields = .node first :: rest ∧ first.Reaches depth

def Stand.Sound (st : Stand) : Prop :=
  match st.origin with
  | .within depth => st.node.Reaches depth
  | .apart _ => True

theorem Taken.sound {Now : Value → Value → Prop} {st st' : Stand} {reply : Reply}
    (h : Taken Now st reply st') (hst : st.Sound) : st'.Sound := by
  cases h with
  | keep | same => exact hst
  | wrap kind =>
    obtain ⟨node, origin⟩ := st
    cases origin with
    | within depth => exact ⟨node, _, rfl, hst⟩
    | apart m => trivial
  | give => trivial

theorem Passed.sound {Now : Value → Value → Prop} {step : Node → Step} {st st' : Stand}
    {who : List (Nat × String)} {xs : List Exchange} (h : Passed Now step who st xs st')
    (hst : st.Sound) : st'.Sound := by
  induction h with
  | nil => exact hst
  | cons htaken _ ih => exact ih (htaken.sound hst)

theorem Stand.start_of_inFirst {st : Stand} {depth : Nat} {first : Node} {rest : List Value}
    (h : st.inFirst? = some (depth, first, rest)) (hst : st.Sound) :
    st.start = first.inner depth ∧ first.Reaches depth := by
  obtain ⟨horigin, hfields⟩ := Stand.inFirst?_eq_some_iff.mp h
  constructor
  · simp only [Stand.start, horigin, Node.inner, hfields]
  · rw [Stand.Sound, horigin] at hst
    obtain ⟨first', rest', hnode, hfirst⟩ := hst
    rw [hfields] at hnode
    obtain rfl : first = first' := by simpa using (List.cons.inj hnode).1
    exact hfirst

theorem Stand.is_of_not_inFirst {st : Stand} (h : st.inFirst? = none) (hst : st.Sound)
    (fields : List Value) : st.start.Is (Stand.start ⟨{ st.node with fields }, st.origin⟩) := by
  obtain ⟨node, origin⟩ := st
  match origin with
  | .within 0 => exact node.is_fields fields
  | .within (depth + 1) =>
    obtain ⟨first, rest, hnode, -⟩ := hst
    exact absurd (h.symm.trans (Stand.inFirst?_eq_some_iff.mpr ⟨rfl, hnode⟩)) nofun
  | .apart m => exact .refl m

end Sameness

section Leaving

variable {who : List (Nat × String)}

mutual

theorem Visited.is {depth : Nat} {n left became : Node} {xs : List Exchange} :
    Visited Updated who depth n xs left became → n.Reaches depth → (n.inner depth).Is left
  | .mk hpassed hwalked _ hleft, hn => by
    have hsound : Stand.Sound ⟨n, .within depth⟩ := hn
    have h := hwalked.is (hpassed.sound hsound)
    rw [hpassed.start_eq] at h
    exact h.trans hleft.is

theorem Walked.is {st st' : Stand} {xs : List Exchange} :
    Walked Updated who st xs st' → st.Sound → st.start.Is st'.start
  | .fields hin _ _, hst => Stand.is_of_not_inFirst hin hst _
  | .around hin hvisited _ hleft _, hst => by
    obtain ⟨hstart, hfirst⟩ := Stand.start_of_inFirst hin hst
    rw [hstart]
    exact (hvisited.is hfirst).trans hleft.is

end

mutual

theorem Aborted.is {depth : Nat} {n : Node} {st : Stand} {xs : List Exchange} :
    Aborted Updated who depth n xs st → n.Reaches depth → (n.inner depth).Is st.start
  | .entering hhalted, _ => by
    rw [hhalted.start_eq]
    exact .refl _
  | .inside hpassed hbelow, hn => by
    have hsound : Stand.Sound ⟨n, .within depth⟩ := hn
    have h := hbelow.is (hpassed.sound hsound)
    rwa [hpassed.start_eq] at h
  | .leaving hpassed hwalked hhalted, hn => by
    have hsound : Stand.Sound ⟨n, .within depth⟩ := hn
    have h := hwalked.is (hpassed.sound hsound)
    rw [hpassed.start_eq] at h
    rwa [hhalted.start_eq]

theorem AbortedBelow.is {st st' : Stand} {xs : List Exchange} :
    AbortedBelow Updated who st xs st' → st.Sound → st.start.Is st'.start
  | .fields hin _ _, hst => Stand.is_of_not_inFirst hin hst _
  | .first hin haborted hleft, hst => by
    obtain ⟨hstart, hfirst⟩ := Stand.start_of_inFirst hin hst
    rw [hstart]
    exact (haborted.is hfirst).trans hleft.is
  | .rest hin hvisited _ hleft _, hst => by
    obtain ⟨hstart, hfirst⟩ := Stand.start_of_inFirst hin hst
    rw [hstart]
    exact (hvisited.is hfirst).trans hleft.is

end

theorem AllVisited.is {ns left became : List Node} {xs : List Exchange} :
    AllVisited Updated who ns xs left became → Forall₂ Node.Is ns left
  | .nil => .nil
  | .cons hnow hvisited h => .cons (hnow.is.trans (hvisited.is trivial)) h.is

/-- A list whose walk is aborted still holds its nodes in order. -/
theorem AllAborted.is {ns left : List Node} {xs : List Exchange}
    (h : AllAborted Updated who ns xs left) : Forall₂ Node.Is ns left := by
  cases h with
  | mk hearlier hnow haborted hleft =>
    have hn := (hnow.is.trans (haborted.is trivial)).trans hleft.is
    refine List.rel_append hearlier.is (.cons hn ?_)
    exact List.forall₂_same.mpr fun n _ => .refl n

end Leaving

section Traverse

variable {Now : Value → Value → Prop} {who : List (Nat × String)} {call : List Node → Call}
  {unit : List Node} {roll roll' : Roll} {xs : List Exchange} {x : Exchange}

theorem UnitHalted.ne_nil (h : UnitHalted Now call who roll xs roll') : xs ≠ [] := by
  cases h <;> nofun

theorem UnitHalted.call_of_mem (h : UnitHalted Now call who roll xs roll') (hx : x ∈ xs) :
    ∃ ns, x.call = call ns := by
  induction h with
  | here _ _ hcall _ =>
    obtain rfl := List.mem_singleton.mp hx
    exact ⟨_, hcall⟩
  | later _ _ ih =>
    rcases List.mem_cons.mp hx with rfl | hx
    · exact ⟨_, rfl⟩
    · exact ih hx

theorem UnitPassed.call_of_mem (h : UnitPassed Now call who roll xs roll') (hx : x ∈ xs) :
    ∃ ns, x.call = call ns := by
  induction h with
  | nil => cases hx
  | cons _ _ ih =>
    rcases List.mem_cons.mp hx with rfl | hx
    · exact ⟨_, rfl⟩
    · exact ih hx

theorem getLast?_of_append_eq_concat {α : Type} {as bs cs : List α} {a : α} (hbs : bs ≠ [])
    (h : as ++ bs = cs ++ [a]) : bs.getLast? = some a := by
  have hlast := congrArg List.getLast? h
  rwa [List.getLast?_append_of_ne_nil _ hbs, List.getLast?_concat] at hlast

/-- How a walk leaves the list it was called with if the exchange of a hook on a node breaks it off.
The unit has been shown to all visitors before; the list that is walked then still holds its nodes
in order, and is left as the exchanges say. -/
inductive LeftMidway (Now : Value → Value → Prop) (who : List (Nat × String)) (unit : List Node)
    (x : Exchange) : List Exchange → List Node → Prop
  | mk {befores walked : List Exchange} {start : Roll} {left caller : List Node} :
      UnitPassed Now .before who ⟨unit, none⟩ befores start → walked.getLast? = some x →
      AllAborted Now who start.nodes walked left → Forall₂ Node.Is start.nodes left →
      Forall₂ (OnNodes Now) (start.caller.getD left) caller →
      LeftMidway Now who unit x (befores ++ walked) caller

theorem BrokenOff.leftMidway (h : BrokenOff Updated who unit xs roll) {good : List Exchange}
    (hxs : xs = good ++ [x]) {step : Step} (hx : x.call = .step step) :
    LeftMidway Updated who unit x xs roll.start := by
  -- The last exchange tells which part of the walk was broken off.
  cases h with
  | @walk start _ befores walked left hpassed haborted hconcluded =>
    have hwalked : walked ≠ [] := by
      rintro rfl
      rw [List.append_nil] at hxs
      obtain ⟨ns, hcall⟩ := hpassed.call_of_mem (x := x) (by simp [hxs])
      rw [hx] at hcall
      cases hcall
    cases hconcluded with
    | mk _ hcaller =>
      exact .mk hpassed (getLast?_of_append_eq_concat hwalked hxs) haborted haborted.is hcaller
  | before hhalted =>
    obtain ⟨ns, hcall⟩ := hhalted.call_of_mem (x := x) (by simp [hxs])
    rw [hx] at hcall
    cases hcall
  | after _ _ _ hhalted =>
    have hlast := getLast?_of_append_eq_concat hhalted.ne_nil hxs
    obtain ⟨ns, hcall⟩ := hhalted.call_of_mem (List.mem_of_getLast? hlast)
    rw [hx] at hcall
    cases hcall

theorem LeftMidway.plain {caller : List Node} (h : LeftMidway Updated who unit x xs caller)
    (hunit : ∀ n ∈ unit, n.Unshared) (hxs : ∀ y ∈ xs, y.Fresh) :
    LeftMidway Eq who unit x xs caller := by
  cases h with
  | mk hpassed hlast haborted his hcaller =>
    rw [List.forall_mem_append] at hxs
    obtain ⟨hpassed, hstart⟩ := hpassed.plain ⟨hunit, by simp⟩ hxs.1
    obtain ⟨haborted, hleft⟩ := haborted.plain hstart.nodes hxs.2
    obtain rfl := eq_of_forall₂_onNodes hcaller (hstart.getD_caller hleft)
    exact .mk hpassed hlast haborted his (List.forall₂_same.mpr fun _ _ => rfl)

/-- If a hook on a node fails or answers with what is no node, the walk ends with that. The list
being walked still holds its nodes in order, those before the failing one with their own fields
walked and those after it as they were. So it is in every field on the way down: fields before it
hold what has become of them, it holds the nodes it had, and fields after it are as they were. All
that is up to changes below nodes that are shared; where none is, there are no such changes. -/
theorem traverse_aborted_keeps_nodes {σ : Type} {vs : List (Visitor σ)}
    (hvs : ∀ v ∈ vs, v.MutatesNothing) {limit : Nat} {unit : List Node} {s : Session σ}
    {x : Exchange} (hx : x ∈ exchanges limit vs unit s) {step : Step} (hstep : x.call = .step step)
    {e : Fault} (hfault : x.fault? = some e) :
    let o := traverse limit vs unit s
    let heard := exchanges limit vs unit s
    let who := roster vs.zipIdx
    o.Linked (fun own journal => journal.2 = own) (overheardWalk limit vs unit s) ∧
      o.reply = .error e ∧ LeftMidway Updated who unit x heard o.subject ∧
      ((∀ n ∈ unit, n.Unshared) → (∀ y ∈ heard, y.Fresh) →
        LeftMidway Eq who unit x heard o.subject) := by
  intro o heard who
  have hending := ending_exchanges hvs limit unit s
  have hlinked : o.Linked _ _ := linked_overheardWalk limit vs unit s
  suffices hwalk : o.reply = .error e ∧ LeftMidway Updated who unit x heard o.subject from
    ⟨hlinked, hwalk.1, hwalk.2, hwalk.2.plain⟩
  rw [show traverse limit vs unit s = o from rfl] at hending
  generalize o.reply = reply at hending ⊢
  cases hending with
  | done hgood _ => simp [hgood x hx] at hfault
  | cut hgood => simp [hgood x hx] at hfault
  | @stuck good y e' hheard hgood hlast hbroken =>
    -- Only the last exchange has a fault.
    have hxy : x = y := by
      rw [hheard] at hx
      rcases List.mem_append.mp hx with hx | hx
      · simp [hgood x hx] at hfault
      · exact List.mem_singleton.mp hx
    subst hxy
    obtain rfl : e' = e := Option.some.inj (hlast.symm.trans hfault)
    obtain ⟨roll, hbroken, hleft⟩ := hbroken
    rw [hleft]
    exact ⟨rfl, hbroken.leftMidway hheard hstep⟩

end Traverse

section Sample

def editing : Visitor Unit :=
  leavingVisitor "Editing" fun n =>
    match n.kind with
    | .className => .ok (.give (.node ⟨.className, {}, [.str "B"]⟩))
    | .variableRef => .ok (.wrap .exprStmt)
    | .exprStmt => .ok (.give (.node ⟨.variableRef, {}, [.str "lost"]⟩))
    | .returnStmt => .error (.notText "int")
    | _ => .ok .keep

def statements (first : Node) : Value :=
  .list [.node ⟨.exprStmt, {}, [.node first]⟩, .node ⟨.returnStmt, {}, [.null]⟩]

def twoClasses (name : String) (first : Node) : List Node :=
  [⟨.classDecl 0, {}, [.node ⟨.className, {}, [.str name]⟩, statements first,
      .node ⟨.className, {}, [.str "C"]⟩, .null]⟩,
    ⟨.classDecl 1, {}, [.node ⟨.className, {}, [.str "D"]⟩, .list [], .null, .null]⟩]

/-- The name of the first class has been replaced and the variable has been wrapped. The statement
around it was replaced too, but that is lost, and the walk came no further. -/
theorem traverse_aborted_keeps_nodes_sample :
    let variable' : Node := ⟨.variableRef, {}, [.str "x"]⟩
    let unit := twoClasses "A" variable'
    let o := traverse 3 [editing] unit { own := () }
    let heard := exchanges 3 [editing] unit { own := () }
    editing.MutatesNothing ∧ (∀ n ∈ unit, n.Unshared) ∧ (∀ y ∈ heard, y.Fresh) ∧
      o.reply = .error (.notText "int") ∧
      o.subject = twoClasses "B" ⟨.exprStmt, {}, [.node variable']⟩ ∧
      ∃ x, LeftMidway Eq (roster [editing].zipIdx) unit x heard o.subject := by
  intro variable' unit o heard
  have hediting : editing.MutatesNothing := mutatesNothing_leavingVisitor _ _
  have hvs : ∀ v ∈ [editing], v.MutatesNothing := List.forall_mem_singleton.mpr hediting
  have hunit : ∀ n ∈ unit, n.Unshared := by decide +kernel
  have hfresh : ∀ y ∈ heard, y.Fresh := by decide +kernel
  have hfails : heard.any (fun x =>
      decide (x.call.hook = .leave) && decide (x.fault? = some (.notText "int"))) = true := by
    decide +kernel
  obtain ⟨x, hx, hlast⟩ := List.any_eq_true.mp hfails
  obtain ⟨hleave, hfault⟩ : x.call.hook = .leave ∧ x.fault? = some (.notText "int") := by
    simpa using hlast
  cases hcall : x.call with
  | before ns => simp [hcall, Call.hook] at hleave
  | after ns => simp [hcall, Call.hook] at hleave
  | step step =>
    obtain ⟨-, hreply, -, hleft⟩ := traverse_aborted_keeps_nodes hvs hx hcall hfault
    exact ⟨hediting, hunit, hfresh, hreply, by decide +kernel, x, hleft hunit hfresh⟩

def relabelling : Visitor Unit :=
  leavingVisitor "Relabelling" fun n =>
    match n.kind with
    | .className => .ok (.give (.node ⟨.className, {}, [.str "b"]⟩))
    | .returnStmt => .ok (.give (.str "gone"))
    | _ => .ok .keep

def Call.kind? : Call → Option Kind
  | .step at' => some at'.node.kind
  | .before _ | .after _ => none

/-- A class that is named by a node has that node for its qualified name as well. So a walk that is
aborted below its statements has changed the field of the qualified name, which it did not reach. -/
theorem later_field_changes_with_shared_node :
    let named (name : String) : Value :=
      .node ⟨.exprStmt, {}, [.node ⟨.className, {}, [.str name]⟩]⟩
    let unit : List Node := [⟨.classDecl 0, {},
      [named "a", .list [.node ⟨.returnStmt, {}, [.null]⟩], .null, .null]⟩]
    let resolved := traverse 4 [Context.visitor] unit { own := {} }
    let s : Session Unit := resolved.session.withOwn ()
    let o := traverse 4 [relabelling] resolved.subject s
    let heard := exchanges 4 [relabelling] resolved.subject s
    relabelling.MutatesNothing ∧ resolved.reply = .ok resolved.subject ∧
      o.reply = .error (.badNodeReply "Relabelling" .leave "str") ∧
      heard.map (fun x => (x.call.hook, x.call.kind?)) =
        [(.before, none), (.enter, some (Kind.classDecl 0)), (.enter, some Kind.exprStmt),
          (.enter, some Kind.className), (.leave, some Kind.className),
          (.leave, some Kind.exprStmt), (.enter, some Kind.returnStmt),
          (.leave, some Kind.returnStmt)] ∧
      (resolved.subject.all fun n => (n.get .qualifiedName).same (named "a")) = true ∧
      (o.subject.all fun n => (n.get .qualifiedName).same (named "b")) = true := by
  intro named unit resolved s o heard
  exact ⟨mutatesNothing_leavingVisitor _ _, by decide +kernel, by decide +kernel,
    by decide +kernel, by decide +kernel, by decide +kernel⟩

end Sample

end PropertyRenaming
