import PropertyRenaming.Proofs.ClassNames
import PropertyRenaming.Proofs.Untouched
import PropertyRenaming.Tree.Decidable

namespace PropertyRenaming

theorem Node.Filled.modify_eq_self {n : Node} (hn : n.Filled) {f : Field} {change : Value → Value}
    (h : change (n.get f) = n.get f) : n.modify f change = n := by
  rw [Node.modify, h, hn.set_get_self]

namespace Context

variable {n : Node}

theorem inFull_inFull (c : Context) (v : Value) : c.inFull (c.inFull v) = c.inFull v := by
  cases v with
  | atom a => cases a <;> simp [inFull, ClassName.resolve_resolve]
  | _ => rfl

theorem settle_settle (c : Context) {v : Value}
    (hv : ∀ token, v.token? = some token → token.WellFormed) :
    c.settle (c.settle v) = c.settle v := by
  cases htoken : v.token? with
  | none => rw [settle_of_token?_eq_none c htoken, settle_of_token?_eq_none c htoken]
  | some token =>
    have ht := hv token htoken
    obtain ⟨-, hk⟩ := Value.token?_eq_some_iff.mp htoken
    have hk' : (token.modify .value c.inFull).kind = .className := by
      rw [Node.modify, Node.kind_set, hk]
    have hget : (token.modify .value c.inFull).get .value = c.inFull (token.get .value) :=
      ht.filled.get_set_self (by rw [hk]; simp [Kind.fields]) _
    have hsame : (token.modify .value c.inFull).modify .value c.inFull =
        token.modify .value c.inFull :=
      (ht.filled.modify _ _).modify_eq_self (by rw [hget, inFull_inFull])
    rw [settle_token c htoken, settle, if_pos hk', hsame]

/-- The changes that have been made to a node change nothing when they are made again. -/
theorem patched_dressed (hn : n.Sound) (s t : Session Context) :
    (sweep.dressed n s (Value.sweepAll sweep t n.fields).1).patched (sweep.patches n s) =
      sweep.dressed n s (Value.sweepAll sweep t n.fields).1 := by
  have hfilled := (wellFormed_dressed hn.wellFormed s t).filled
  have hqualified := qualifiedName_dressed hn.wellFormed s t
  have hreference : ∀ f, n.kind.reference? = some f → (sweep.dressed n s
      (Value.sweepAll sweep t n.fields).1).get f = s.own.settle (Node.get
        ⟨n.kind, sweep.place n s, (Value.sweepAll sweep t n.fields).1⟩ f) := fun f hf =>
    get_reference hn.wellFormed.filled hf s (Value.length_sweepAll sweep t n.fields)
  generalize sweep.dressed n s (Value.sweepAll sweep t n.fields).1 = m at *
  have hname : m.patched (s.own.namePatches n) = m := by
    unfold namePatches
    cases hnaming : s.own.naming? n with
    | none => rfl
    | some e =>
      rw [hnaming] at hqualified
      exact hfilled.modify_eq_self hqualified.symm
  have href : m.patched (s.own.referencePatches n.kind) = m := by
    unfold referencePatches
    cases hf : n.kind.reference? with
    | none => rfl
    | some f =>
      refine hfilled.modify_eq_self ?_
      rw [hreference f hf]
      exact settle_settle s.own fun token ht => (sound_swept hn s t).token hf ht
  change m.patched (s.own.namePatches n ++ s.own.referencePatches n.kind) = m
  rw [Node.patched_append, hname, href]

theorem patches_dressed (hn : n.WellFormed) {s t : Session Context} (h : t.own = s.own)
    (u : Session Context) :
    sweep.patches (sweep.dressed n s (Value.sweepAll sweep u n.fields).1) t =
      sweep.patches n s := by
  have hnaming : s.own.naming? (sweep.dressed n s (Value.sweepAll sweep u n.fields).1) =
      s.own.naming? n := congrFun (congrArg Turn.naming (opening_dressed hn s u)) s.own
  simp only [sweep, h] at hnaming ⊢
  rw [namePatches, hnaming, Sweep.kind_dressed]
  rfl

theorem own_opened_dressed (hn : n.WellFormed) {s t : Session Context} (h : t.own = s.own)
    (u : Session Context) :
    (sweep.opened (sweep.dressed n s (Value.sweepAll sweep u n.fields).1) t).own =
      (sweep.opened n s).own := by
  have hstep := congrFun (congrArg Turn.step (opening_dressed hn s u)) s.own
  simp only [sweep, h]
  exact hstep

theorem place_place (n : Node) {s t : Session Context} (h : t.own = s.own) (fields : List Value) :
    sweep.place (sweep.dressed n s fields) t = sweep.place n s := by
  simp only [sweep, h, Sweep.place_dressed]

end Context

mutual

/-- A second walk that starts with the same in force leaves what the first one has left. -/
theorem Node.sweep_again {s t : Session Context} (h : t.own = s.own) : (n : Node) →
    (∀ m ∈ n.preorder, m.Sound) →
    ((n.sweep Context.sweep s).1.sweep Context.sweep t).1 = (n.sweep Context.sweep s).1
  | ⟨kind, place, fields⟩, hn => by
    obtain ⟨n, hdef⟩ : ∃ n : Node, n = ⟨kind, place, fields⟩ := ⟨_, rfl⟩
    have hsound : n.Sound := hdef ▸ hn _ (by simp [Node.preorder])
    have hbelow := Value.sweepAll_again (s := Context.sweep.opened n s)
      (t := Context.sweep.opened (n.sweep Context.sweep s).1 t)
      (by rw [Node.sweep_eq]; exact Context.own_opened_dressed hsound.wellFormed h _) fields
      fun m hm => hn m (by simp [Node.preorder, hm])
    rw [show fields = n.fields by rw [hdef]] at hbelow
    rw [← hdef, Node.sweep_sweep hsound.wellFormed.filled
      (Context.commutes_swept Context.passesTokens hsound s (Context.sweep.opened n s))]
    dsimp only
    rw [hbelow, Node.patched_append, Node.sweep_eq, Context.place_place n h,
      Context.patches_dressed hsound.wellFormed h]
    exact Context.patched_dressed hsound s (Context.sweep.opened n s)

theorem Value.sweep_again {s t : Session Context} (h : t.own = s.own) : (v : Value) →
    (∀ m ∈ v.preorder, m.Sound) →
    ((v.sweep Context.sweep s).1.sweep Context.sweep t).1 = (v.sweep Context.sweep s).1
  | .node n, hv => by
    rw [Value.preorder] at hv
    simp only [Value.sweep, Node.sweep_again h n hv]
  | .list vs, hv => by
    rw [Value.preorder] at hv
    by_cases hall : vs.all Value.isNode
    · rw [if_pos hall] at hv
      simp only [Value.sweep, if_pos hall, Value.all_isNode_sweepAll _ s hall, if_true,
        Value.sweepAll_again h vs hv]
    · simp only [Value.sweep, if_neg hall]
  | .atom _, _ | .object, _ => by simp [Value.sweep]

theorem Value.sweepAll_again {s t : Session Context} (h : t.own = s.own) : (vs : List Value) →
    (∀ m ∈ Value.preorderAll vs, m.Sound) →
    (Value.sweepAll Context.sweep t (Value.sweepAll Context.sweep s vs).1).1 =
      (Value.sweepAll Context.sweep s vs).1
  | [], _ => rfl
  | v :: vs, hvs => by
    rw [Value.preorderAll] at hvs
    have hv : ∀ m ∈ v.preorder, m.Sound := fun m hm => hvs m (List.mem_append_left _ hm)
    -- What is in force after a value can be read off its turns, and those stay.
    have hown : ((v.sweep Context.sweep s).1.sweep Context.sweep t).2.own =
        (v.sweep Context.sweep s).2.own := by
      have hagain := (Value.follows_sweep Context.follows t (v.sweep Context.sweep s).1).own
      rw [Value.turns_sweep s v hv] at hagain
      exact hagain.trans (h ▸ (Value.follows_sweep Context.follows s v).own.symm)
    simp only [Value.sweepAll]
    rw [Value.sweep_again h v hv,
      Value.sweepAll_again hown vs fun m hm => hvs m (List.mem_append_right _ hm)]

end

section Units

variable {γ δ : Type} {unit : List Node}

theorem nodes_resolution_again (hu : WellFormed unit) (s : Session γ) (t : Session δ) :
    (resolution (resolution unit s).1 t).1 = (resolution unit s).1 := by
  have h := Value.sweepAll_again (s := (s.withOwn ({} : Context)).settled)
    (t := (t.withOwn ({} : Context)).settled) rfl (unit.map .node)
    (by rw [preorderAll_nodes]; exact hu.sound)
  rw [Value.sweepAll_nodes, Value.sweepAll_nodes] at h
  exact List.map_injective_iff.mpr (fun _ _ => Value.node.inj) h

theorem classes_resolution_again (hu : WellFormed unit) (s : Session γ) {t : Session δ}
    (ht : t.classes = (resolution unit s).2.classes) :
    (resolution (resolution unit s).1 t).2.classes = (resolution unit s).2.classes := by
  rw [classes_resolution, turns_resolution hu, ht, classes_resolution,
    ClassTable.setNames_setNames]

/-- A second walk for the class context, by the same visitor or by a new one, leaves the unit and
the class table as the first has left them; so locality and scopes are the same after both. -/
theorem traverse_visitor_again {limit : Nat} (hu : WellFormed unit) (hd : depth unit ≤ limit)
    {s : Session Context} (hs : s.log.Quiet) :
    let first := traverse limit [Context.visitor] unit s
    first.reply = .ok first.subject ∧ ∀ c : Context,
      let again := traverse limit [Context.visitor] first.subject (first.session.withOwn c)
      again.reply = .ok first.subject ∧ again.subject = first.subject ∧
        again.session.classes = first.session.classes ∧
        (preorder again.subject).map again.session.classes.isLocal =
          (preorder first.subject).map first.session.classes.isLocal ∧
        again.session.classes.scope = first.session.classes.scope := by
  intro first
  have hfirst : first = ⟨(resolution unit s).1, (resolution unit s).2,
      .ok (resolution unit s).1⟩ := traverse_visitor_eq hu hd hs
  have hquiet : (resolution unit s).2.log.Quiet := (resolveUnit_eq hu hs).2.2
  refine ⟨by rw [hfirst], fun c => ?_⟩
  intro again
  have hagain : again = ⟨(resolution unit s).1,
      (resolution (resolution unit s).1 ((resolution unit s).2.withOwn c)).2,
      .ok (resolution unit s).1⟩ := by
    simp only [again, hfirst]
    rw [traverse_visitor_eq (wellFormed_resolution hu s) ((depth_resolution_le hu s).trans hd)
      (s := (resolution unit s).2.withOwn c) hquiet, nodes_resolution_again hu]
  have hclasses : again.session.classes = first.session.classes := by
    rw [hagain, hfirst]
    exact classes_resolution_again hu s rfl
  have hsubject : again.subject = first.subject := by rw [hagain, hfirst]
  refine ⟨by rw [hagain, hfirst], hsubject, hclasses, ?_, by rw [hclasses]⟩
  rw [hsubject, hclasses]

/-- The first walk writes class names out and names a class; the next ones find that done. -/
theorem traverse_visitor_again_sample :
    let s : Session Context := { classes := ⟨[.null, .null]⟩, own := {} }
    let first := traverse 4 [Context.visitor] importingUnit s
    WellFormed importingUnit ∧ depth importingUnit ≤ 4 ∧ s.log.Quiet ∧
      first.session.classes.names = [.str "App\\Point", .null] ∧
      first.reply = .ok first.subject ∧ ∀ c : Context,
        let again := traverse 4 [Context.visitor] first.subject (first.session.withOwn c)
        again.reply = .ok first.subject ∧ again.subject = first.subject ∧
          again.session.classes = first.session.classes ∧
          (preorder again.subject).map again.session.classes.isLocal =
            (preorder first.subject).map first.session.classes.isLocal ∧
          again.session.classes.scope = first.session.classes.scope := by
  have hu : WellFormed importingUnit := by decide
  have hd : depth importingUnit ≤ 4 := by decide
  have hs : Log.Quiet {} := by decide
  refine ⟨hu, hd, hs, ?_, traverse_visitor_again hu hd hs⟩
  decide +kernel

end Units

end PropertyRenaming
