import PropertyRenaming.Proofs.Rewrite

namespace PropertyRenaming

/-- What reaching or leaving a node does. -/
structure Turn where
  step : Context → Context
  naming : Context → Option (ClassId × Value)

def Node.opening (n : Node) : Turn :=
  ⟨fun c => (Context.openScope n c).toOption.getD c, fun c => c.naming? n⟩

def Kind.closing (kind : Kind) : Turn where
  step c :=
    match kind with
    | .classDecl _ => { c with classes := c.classes.tail }
    | .namespaceBlock => c.closeNamespace
    | _ => c
  naming _ := none

mutual

def Node.turns : Node → List Turn
  | ⟨kind, place, fields⟩ =>
    Node.opening ⟨kind, place, fields⟩ :: (Value.turnsAll fields ++ [kind.closing])

def Value.turns : Value → List Turn
  | .node n => n.turns
  | .list vs => if vs.all Value.isNode then Value.turnsAll vs else []
  | _ => []

def Value.turnsAll : List Value → List Turn
  | [] => []
  | v :: vs => v.turns ++ Value.turnsAll vs

end

def turns (unit : List Node) : List Turn := unit.flatMap Node.turns

def contextAfter : List Turn → Context → Context
  | [], c => c
  | t :: ts, c => contextAfter ts (t.step c)

def namings : List Turn → Context → List (ClassId × Value)
  | [], _ => []
  | t :: ts, c => (t.naming c).toList ++ namings ts (t.step c)

def ClassTable.setNames (t : ClassTable) (es : List (ClassId × Value)) : ClassTable :=
  es.foldl (fun t e => t.setName e.1 e.2) t

theorem contextAfter_append (ts us : List Turn) (c : Context) :
    contextAfter (ts ++ us) c = contextAfter us (contextAfter ts c) := by
  induction ts generalizing c with
  | nil => rfl
  | cons t ts ih => exact ih (t.step c)

theorem namings_append (ts us : List Turn) (c : Context) :
    namings (ts ++ us) c = namings ts c ++ namings us (contextAfter ts c) := by
  induction ts generalizing c with
  | nil => rfl
  | cons t ts ih => simp [namings, contextAfter, ih]

theorem ClassTable.setNames_append (t : ClassTable) (es fs : List (ClassId × Value)) :
    t.setNames (es ++ fs) = (t.setNames es).setNames fs := List.foldl_append

theorem Value.turnsAll_eq_flatMap (vs : List Value) :
    Value.turnsAll vs = vs.flatMap Value.turns := by
  induction vs with
  | nil => rfl
  | cons v vs ih => rw [Value.turnsAll, ih, List.flatMap_cons]

theorem Node.turns_eq (n : Node) :
    n.turns = n.opening :: (n.fields.flatMap Value.turns ++ [n.kind.closing]) := by
  obtain ⟨kind, place, fields⟩ := n
  rw [Node.turns, Value.turnsAll_eq_flatMap]

section Sessions

/-- What a sweep leaves of the context and the class table. -/
structure Follows (ts : List Turn) (s t : Session Context) : Prop where
  own : t.own = contextAfter ts s.own
  classes : t.classes = s.classes.setNames (namings ts s.own)

theorem Follows.append {ts us : List Turn} {s t u : Session Context} (h : Follows ts s t)
    (h' : Follows us t u) : Follows (ts ++ us) s u where
  own := by rw [h'.own, h.own, contextAfter_append]
  classes := by rw [h'.classes, h.classes, h.own, namings_append, ClassTable.setNames_append]

theorem follows_opened (n : Node) (s : Session Context) :
    Follows [n.opening] s (Context.sweep.opened n s) where
  own := rfl
  classes := by
    simp only [Context.sweep, Context.named, namings, Node.opening, ClassTable.setNames]
    cases s.own.naming? n <;> rfl

theorem follows_closed (n : Node) (s : Session Context) :
    Follows [n.kind.closing] s (Context.sweep.closed n s) := by
  cases hk : n.kind <;> simp only [Context.sweep, hk] <;> exact ⟨rfl, rfl⟩

section Sweeps

/-- A sweep of which a part works out the class context. -/
structure Sweep.Follows {σ : Type} (w : Sweep σ) (part : Session σ → Session Context) : Prop where
  opened (n : Node) (s : Session σ) :
    PropertyRenaming.Follows [n.opening] (part s) (part (w.opened n s))
  closed (n : Node) (s : Session σ) :
    PropertyRenaming.Follows [n.kind.closing] (part s) (part (w.closed n s))

variable {σ : Type} {w : Sweep σ} {part : Session σ → Session Context}

mutual

theorem Node.follows_sweep (hw : w.Follows part) (s : Session σ) : (n : Node) →
    Follows n.turns (part s) (part (n.sweep w s).2)
  | ⟨kind, place, fields⟩ => by
    rw [Node.sweep, Node.turns]
    exact (hw.opened _ s).append ((Value.follows_sweepAll hw _ fields).append
      (hw.closed ⟨kind, place, fields⟩ _))

theorem Value.follows_sweep (hw : w.Follows part) (s : Session σ) : (v : Value) →
    Follows v.turns (part s) (part (v.sweep w s).2)
  | .node n => by
    rw [Value.sweep, Value.turns]
    exact Node.follows_sweep hw s n
  | .list vs => by
    rw [Value.sweep, Value.turns]
    split
    · exact Value.follows_sweepAll hw s vs
    · exact ⟨rfl, rfl⟩
  | .atom _ | .object => by
    simp only [Value.sweep, Value.turns]
    exact ⟨rfl, rfl⟩

theorem Value.follows_sweepAll (hw : w.Follows part) (s : Session σ) : (vs : List Value) →
    Follows (Value.turnsAll vs) (part s) (part (Value.sweepAll w s vs).2)
  | [] => ⟨rfl, rfl⟩
  | v :: vs => by
    rw [Value.sweepAll, Value.turnsAll]
    exact (Value.follows_sweep hw s v).append (Value.follows_sweepAll hw _ vs)

end

theorem follows_sweepUnit (hw : w.Follows part) (s : Session σ) (unit : List Node) :
    Follows (turns unit) (part s) (part (sweepUnit w s unit).2) := by
  induction unit generalizing s with
  | nil => exact ⟨rfl, rfl⟩
  | cons n unit ih =>
    rw [sweepUnit, turns, List.flatMap_cons]
    exact (Node.follows_sweep hw s n).append (ih _)

end Sweeps

theorem Context.follows : Context.sweep.Follows id where
  opened := follows_opened
  closed := follows_closed

theorem classes_resolution {γ : Type} (unit : List Node) (s : Session γ) :
    (resolution unit s).2.classes = s.classes.setNames (namings (turns unit) {}) :=
  (follows_sweepUnit Context.follows _ unit).classes

end Sessions

section Stable

variable {n m : Node}

/-- What reaching a node does depends on its kind and on the texts that kinds with a scope have. -/
theorem Node.WellFormed.opening_eq (hn : n.WellFormed) (hk : m.kind = n.kind)
    (hname : n.kind ≠ .propertyItem → n.kind.isFetch = false →
      ∀ a, n.get .name = .atom a → m.get .name = .atom a)
    (hshort : ∀ a, n.get .shortName = .atom a → m.get .shortName = .atom a) :
    m.opening = n.opening := by
  have htext : ∀ {f : Field}, (∀ a, n.get f = .atom a → m.get f = .atom a) →
      n.kind.content f = .text ∨ n.kind.content f = .optionalText → m.get f = n.get f := by
    intro f hf hc
    have hadmits := hn.admits f
    rcases hc with hc | hc <;> rw [hc] at hadmits
    · obtain ⟨t, ht⟩ := Content.admits_text_iff.mp hadmits
      rw [ht, hf _ ht]
    · rcases Content.admits_optionalText_iff.mp hadmits with h | ⟨t, h⟩ <;> rw [h, hf _ h]
  unfold Node.opening Context.openScope Context.naming?
  rw [hk]
  cases hkind : n.kind with
  | namespaceBlock | classDecl =>
    rw [hkind] at hname
    rw [htext (hname (by simp) rfl) (by simp [hkind, Kind.content])]
  | useImport =>
    rw [hkind] at hname
    rw [htext (hname (by simp) rfl) (by simp [hkind, Kind.content]),
      htext hshort (by simp [hkind, Kind.content])]
  | _ => rfl

theorem turns_settled (c : Context) {token : Node} (ht : token.WellFormed)
    (hk : token.kind = .className) :
    (Value.node (token.modify .value c.inFull)).turns = (Value.node token).turns := by
  have hk' : (token.modify .value c.inFull).kind = .className := by
    rw [Node.modify, Node.kind_set, hk]
  obtain ⟨text, hf⟩ := Context.fields_token ht hk
  obtain ⟨text', hf'⟩ := Context.fields_token (Context.wellFormed_settled ht hk c) hk'
  rw [Value.turns, Value.turns, Node.turns_eq, Node.turns_eq, hf, hf', hk, hk']
  simp [Node.opening, Context.openScope, Context.naming?, hk, hk', Value.turns]

theorem turns_dressed (hn : n.Sound) (s t : Session Context) :
    (Context.sweep.dressed n s (Value.sweepAll Context.sweep t n.fields).1).fields.flatMap
        Value.turns = (Value.sweepAll Context.sweep t n.fields).1.flatMap Value.turns := by
  refine (List.forall₂_eq_eq_eq ▸ Context.forall₂_dressed (R := Eq) (fun _ => rfl) ?_ ?_ hn t).symm
  · exact fun a => by simp [Value.turns]
  · intro token ht hk
    rw [turns_settled s.own ht hk]
    exact List.forall₂_refl _

theorem opening_dressed (hn : n.WellFormed) (s t : Session Context) :
    (Context.sweep.dressed n s (Value.sweepAll Context.sweep t n.fields).1).opening =
      n.opening := by
  have hget : ∀ {f : Field}, (f ≠ .qualifiedName ∧ f ≠ .parent ∧ f ≠ .type ∧ f ≠ .cls) →
      ∀ a, n.get f = .atom a →
        (Context.sweep.dressed n s (Value.sweepAll Context.sweep t n.fields).1).get f =
          .atom a := by
    intro f hf a ha
    obtain ⟨u, hu⟩ := Context.get_dressed hf n s t
    rw [hu, ha, Value.sweep_atom]
  exact hn.opening_eq (Sweep.kind_dressed ..) (fun _ _ => hget (by decide)) (hget (by decide))

mutual

theorem Node.turns_sweep (s : Session Context) : (n : Node) → (∀ m ∈ n.preorder, m.Sound) →
    (n.sweep Context.sweep s).1.turns = n.turns
  | ⟨kind, place, fields⟩, hn => by
    obtain ⟨n, hdef⟩ : ∃ n : Node, n = ⟨kind, place, fields⟩ := ⟨_, rfl⟩
    have hsound : n.Sound := hdef ▸ hn _ (by simp [Node.preorder])
    have hbelow := Value.turns_sweepAll (Context.sweep.opened n s) fields fun m hm =>
      hn m (by simp [Node.preorder, hm])
    rw [show fields = n.fields by rw [hdef]] at hbelow
    rw [← hdef, Node.sweep_eq, Node.turns_eq, Node.turns_eq n, opening_dressed hsound.wellFormed,
      turns_dressed hsound, hbelow, Sweep.kind_dressed]

theorem Value.turns_sweep (s : Session Context) : (v : Value) → (∀ m ∈ v.preorder, m.Sound) →
    (v.sweep Context.sweep s).1.turns = v.turns
  | .node n, hv => by
    rw [Value.preorder] at hv
    exact Node.turns_sweep s n hv
  | .list vs, hv => by
    rw [Value.preorder] at hv
    rw [Value.sweep]
    by_cases hall : vs.all Value.isNode
    · rw [if_pos hall] at hv ⊢
      rw [Value.turns, Value.turns, if_pos hall, if_pos (Value.all_isNode_sweepAll _ s hall),
        Value.turnsAll_eq_flatMap, Value.turnsAll_eq_flatMap]
      exact Value.turns_sweepAll s vs hv
    · rw [if_neg hall]
  | .atom _, hv | .object, hv => by simp [Value.sweep]

theorem Value.turns_sweepAll (s : Session Context) : (vs : List Value) →
    (∀ m ∈ Value.preorderAll vs, m.Sound) →
    (Value.sweepAll Context.sweep s vs).1.flatMap Value.turns = vs.flatMap Value.turns
  | [], _ => rfl
  | v :: vs, hvs => by
    rw [Value.preorderAll] at hvs
    rw [Value.sweepAll, List.flatMap_cons, List.flatMap_cons,
      Value.turns_sweep s v fun m hm => hvs m (List.mem_append_left _ hm),
      Value.turns_sweepAll _ vs fun m hm => hvs m (List.mem_append_right _ hm)]

end

theorem turns_nodes (unit : List Node) :
    turns unit = (unit.map Value.node).flatMap Value.turns := by
  simp [turns, List.flatMap_map, Value.turns]

theorem turns_resolution {γ : Type} {unit : List Node} (hu : WellFormed unit) (s : Session γ) :
    turns (resolution unit s).1 = turns unit := by
  have h := Value.turns_sweepAll (s.withOwn {}).settled (unit.map .node)
    (by rw [preorderAll_nodes]; exact hu.sound)
  rw [Value.sweepAll_nodes] at h
  rw [turns_nodes, turns_nodes, ← h]
  rfl

section Rewriting

variable {new : Rewriting}

theorem Rewriting.Fits.opening_rewrite (h : new.Fits) (spot : Spot) (hn : n.WellFormed) :
    (n.rewrite new spot).opening = n.opening := by
  refine hn.opening_eq (Node.kind_rewrite ..) ?_ ?_
  · intro hitem hfetch a ha
    have hnone : new ⟨spot, n⟩ = none := by
      rw [Option.eq_none_iff_forall_ne_some]
      intro b hb
      rcases h.kind hb with hk | hk
      · exact hitem hk
      · simp [hfetch] at hk
    rw [Node.get_name_rewrite_of_none hnone, ha, Value.rewrite_atom]
  · intro a ha
    rw [Node.get_rewrite_of_ne (by decide), ha, Value.rewrite_atom]

mutual

theorem Node.turns_rewrite (h : new.Fits) (spot : Spot) : (n : Node) →
    (∀ m ∈ n.preorder, m.WellFormed) → (n.rewrite new spot).turns = n.turns
  | ⟨kind, place, fields⟩, hn => by
    obtain ⟨n, hdef⟩ : ∃ n : Node, n = ⟨kind, place, fields⟩ := ⟨_, rfl⟩
    have hwf : n.WellFormed := hdef ▸ hn _ (by simp [Node.preorder])
    have hbelow := Value.turns_rewriteAll h (spot.under n) fields fun m hm =>
      hn m (by simp [Node.preorder, hm])
    rw [show fields = n.fields by rw [hdef]] at hbelow
    rw [← hdef, Node.turns_eq, Node.turns_eq n, h.opening_rewrite spot hwf,
      Node.flatMap_rewrite (fun a => by simp [Value.turns]) h hwf, hbelow, Node.kind_rewrite]

theorem Value.turns_rewrite (h : new.Fits) (spot : Spot) : (v : Value) →
    (∀ m ∈ v.preorder, m.WellFormed) → (v.rewrite new spot).turns = v.turns
  | .node n, hv => by
    rw [Value.preorder] at hv
    exact Node.turns_rewrite h spot n hv
  | .list vs, hv => by
    rw [Value.preorder] at hv
    by_cases hall : vs.all Value.isNode
    · rw [if_pos hall] at hv
      rw [Value.rewrite, if_pos hall, Value.rewriteAll_eq_map, Value.turns, Value.turns,
        Value.all_isNode_rewriteAll, if_pos hall, if_pos hall, Value.turnsAll_eq_flatMap,
        Value.turnsAll_eq_flatMap]
      exact Value.turns_rewriteAll h spot vs hv
    · rw [Value.rewrite, if_neg hall]
  | .atom _, hv | .object, hv => by simp [Value.rewrite]

theorem Value.turns_rewriteAll (h : new.Fits) (spot : Spot) : (vs : List Value) →
    (∀ m ∈ Value.preorderAll vs, m.WellFormed) →
    (vs.map (Value.rewrite new spot)).flatMap Value.turns = vs.flatMap Value.turns
  | [], _ => rfl
  | v :: vs, hvs => by
    rw [Value.preorderAll] at hvs
    rw [List.map_cons, List.flatMap_cons, List.flatMap_cons,
      Value.turns_rewrite h spot v fun m hm => hvs m (List.mem_append_left _ hm),
      Value.turns_rewriteAll h spot vs fun m hm => hvs m (List.mem_append_right _ hm)]

end

theorem Rewriting.Fits.turns_rewriteUnit (h : new.Fits) {unit : List Node} (hu : WellFormed unit) :
    turns (rewriteUnit new unit) = turns unit := by
  have hturns := Value.turns_rewriteAll h {} (unit.map .node)
    (by rw [preorderAll_nodes]; exact hu)
  rw [turns_nodes, turns_nodes, ← hturns, rewriteUnit]
  simp [Function.comp_def, Value.rewrite]

end Rewriting

end Stable

section Tables

variable {t u : ClassTable}

theorem ClassTable.setNames_congr {es : List (ClassId × Value)}
    (hlen : t.names.length = u.names.length)
    (h : ∀ i, i ∉ es.map Prod.fst → t.names[i]? = u.names[i]?) : t.setNames es = u.setNames es := by
  induction es generalizing t u with
  | nil =>
    obtain ⟨ts⟩ := t
    obtain ⟨us⟩ := u
    exact congrArg ClassTable.mk (List.ext_getElem? fun i => h i (by simp))
  | cons e es ih =>
    refine ih (by simpa [setName] using hlen) fun i hi => ?_
    rcases eq_or_ne e.1 i with rfl | hne
    · simp [setName, List.getElem?_set, hlen]
    · simpa [setName, List.getElem?_set_ne hne] using h i (by simpa [hi] using hne.symm)

theorem ClassTable.length_setNames (t : ClassTable) (es : List (ClassId × Value)) :
    (t.setNames es).names.length = t.names.length := by
  induction es generalizing t with
  | nil => rfl
  | cons e es ih => exact (ih (t.setName e.1 e.2)).trans (by simp [setName])

theorem ClassTable.getElem?_setNames {es : List (ClassId × Value)} {i : Nat}
    (h : i ∉ es.map Prod.fst) (t : ClassTable) : (t.setNames es).names[i]? = t.names[i]? := by
  induction es generalizing t with
  | nil => rfl
  | cons e es ih =>
    simp only [List.map_cons, List.mem_cons, not_or] at h
    refine (ih h.2 (t.setName e.1 e.2)).trans ?_
    simp [setName, List.getElem?_set_ne (Ne.symm h.1)]

theorem ClassTable.setNames_setNames (t : ClassTable) (es : List (ClassId × Value)) :
    (t.setNames es).setNames es = t.setNames es :=
  setNames_congr (length_setNames t es) fun _ hi => getElem?_setNames hi t

end Tables

section Contexts

/-- The place and the changed fields of a node depend on the context alone. -/
theorem Context.dressed_congr {s t : Session Context} (h : s.own = t.own) (n : Node)
    (fields : List Value) : sweep.dressed n s fields = sweep.dressed n t fields := by
  simp only [Sweep.dressed, sweep, h]

mutual

theorem Node.sweep_congr {s t : Session Context} (h : s.own = t.own) : (n : Node) →
    (n.sweep Context.sweep s).1 = (n.sweep Context.sweep t).1
  | ⟨kind, place, fields⟩ => by
    have hopened : (Context.sweep.opened ⟨kind, place, fields⟩ s).own =
        (Context.sweep.opened ⟨kind, place, fields⟩ t).own := by simp only [Context.sweep, h]
    rw [Node.sweep, Node.sweep, Context.dressed_congr h, Value.sweepAll_congr hopened fields]

theorem Value.sweep_congr {s t : Session Context} (h : s.own = t.own) : (v : Value) →
    (v.sweep Context.sweep s).1 = (v.sweep Context.sweep t).1
  | .node n => by
    rw [Value.sweep, Value.sweep, Node.sweep_congr h n]
  | .list vs => by
    rw [Value.sweep, Value.sweep]
    split
    · rw [Value.sweepAll_congr h vs]
    · rfl
  | .atom _ | .object => by simp [Value.sweep]

theorem Value.sweepAll_congr {s t : Session Context} (h : s.own = t.own) : (vs : List Value) →
    (Value.sweepAll Context.sweep s vs).1 = (Value.sweepAll Context.sweep t vs).1
  | [] => rfl
  | v :: vs => by
    have hown : (v.sweep Context.sweep s).2.own = (v.sweep Context.sweep t).2.own := by
      exact (Value.follows_sweep Context.follows s v).own.trans
        (h ▸ (Value.follows_sweep Context.follows t v).own.symm)
    rw [Value.sweepAll, Value.sweepAll, Value.sweep_congr h v, Value.sweepAll_congr hown vs]

end

theorem nodes_resolution {γ δ : Type} (unit : List Node) (s : Session γ) (t : Session δ) :
    (resolution unit s).1 = (resolution unit t).1 := by
  have h := Value.sweepAll_congr (s := (s.withOwn {}).settled) (t := (t.withOwn {}).settled) rfl
    (unit.map .node)
  rw [Value.sweepAll_nodes, Value.sweepAll_nodes] at h
  exact List.map_injective_iff.mpr (fun _ _ => Value.node.inj) h

end Contexts

namespace ClassName

theorem isFullyQualified_append (s : String) : isFullyQualified ("\\" ++ s) = true := by
  simp [isFullyQualified, isSeparator, separator]

theorem resolve_resolve (ns ns' : Option String) (imports imports' : Imports) (s : String) :
    resolve ns' imports' (resolve ns imports s) = resolve ns imports s := by
  have hkept : (isSpecial (resolve ns imports s) ||
      isFullyQualified (resolve ns imports s)) = true := by
    unfold resolve
    split
    · assumption
    · rw [isFullyQualified_append, Bool.or_true]
  generalize resolve ns imports s = full at hkept ⊢
  rw [resolve, if_pos hkept]

end ClassName

end PropertyRenaming
