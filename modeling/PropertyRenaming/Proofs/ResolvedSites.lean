import PropertyRenaming.Proofs.Resolve

namespace PropertyRenaming

open List (Forall₂)

def Value.tokenText? (v : Value) : Option String :=
  v.token?.bind fun token => (token.get .value).str?

/-- How the node at a site is left. -/
structure Resolved (before after : Site) : Prop where
  spot : after.spot = before.spot
  kind : after.node.kind = before.node.kind
  enclosing : after.node.place.enclosing = before.spot.owner
  wellFormed : after.node.WellFormed
  name : (after.node.get .name).str? = (before.node.get .name).str?
  object : (after.node.get .object).isThis = (before.node.get .object).isThis
  cls : ∃ ns imports, (after.node.get .cls).tokenText? =
    (before.node.get .cls).tokenText?.map (ClassName.resolve ns imports)

theorem forall₂_trans_of_mem {α : Type} {R S T : α → α → Prop} {l₁ l₂ l₃ : List α}
    (h : ∀ a ∈ l₁, ∀ b c, R a b → S b c → T a c) (h₁ : Forall₂ R l₁ l₂) (h₂ : Forall₂ S l₂ l₃) :
    Forall₂ T l₁ l₃ := by
  induction h₁ generalizing l₃ with
  | nil =>
    cases h₂
    exact .nil
  | cons hab _ ih =>
    cases h₂ with
    | cons hbc h₂ =>
      exact .cons (h _ List.mem_cons_self _ _ hab hbc)
        (ih (fun a ha => h a (List.mem_cons_of_mem _ ha)) h₂)

theorem forall₂_trans {α : Type} {R S T : α → α → Prop}
    (h : ∀ a b c, R a b → S b c → T a c) {l₁ l₂ l₃ : List α} (h₁ : Forall₂ R l₁ l₂)
    (h₂ : Forall₂ S l₂ l₃) : Forall₂ T l₁ l₃ :=
  forall₂_trans_of_mem (fun a _ => h a) h₁ h₂

theorem exists_getElem?_of_forall₂ {α β : Type} {R : α → β → Prop} {l : List α} {l' : List β}
    (h : Forall₂ R l l') {i : Nat} {x : α} (hx : l[i]? = some x) :
    ∃ y, l'[i]? = some y ∧ R x y := by
  obtain ⟨hi, rfl⟩ := List.getElem?_eq_some_iff.mp hx
  have hi' : i < l'.length := h.length_eq ▸ hi
  exact ⟨l'[i], List.getElem?_eq_getElem hi', h.get hi hi'⟩

theorem mem_of_forall₂_right {α β : Type} {R : α → β → Prop} {l : List α} {l' : List β}
    (h : Forall₂ R l l') {y : β} (hy : y ∈ l') : ∃ x ∈ l, R x y := by
  obtain ⟨i, hi, rfl⟩ := List.mem_iff_getElem.mp hy
  have hi' : i < l.length := h.length_eq ▸ hi
  exact ⟨l[i], List.getElem_mem hi', h.get hi' hi⟩

/-- What stands once in a list of results comes from one place. -/
theorem eq_of_nodup_filterMap {α β : Type} {f : α → Option β} {l : List α}
    (h : (l.filterMap f).Nodup) {x y : α} (hx : x ∈ l) (hy : y ∈ l) {b : β} (hxb : f x = some b)
    (hyb : f y = some b) : x = y := by
  have hpair := List.pairwise_filterMap.mp h
  obtain ⟨i, hi, rfl⟩ := List.mem_iff_getElem.mp hx
  obtain ⟨j, hj, rfl⟩ := List.mem_iff_getElem.mp hy
  rw [List.pairwise_iff_getElem] at hpair
  rcases lt_trichotomy i j with hlt | rfl | hlt
  · exact absurd rfl (hpair i j hi hj hlt b hxb b hyb)
  · rfl
  · exact absurd rfl (hpair j i hj hi hlt b hyb b hxb)

namespace Context

variable {n : Node} {s : Session Context}

theorem get_kept {f : Field} (hq : f ≠ .qualifiedName) (hf : n.kind.reference? ≠ some f)
    (s : Session Context) (fields : List Value) :
    (sweep.dressed n s fields).get f = Node.get ⟨n.kind, sweep.place n s, fields⟩ f := by
  apply Node.get_patched_of_ne
  intro p hp
  rcases List.mem_append.mp hp with hp | hp
  · rw [fst_of_mem_namePatches hp]
    exact Ne.symm hq
  · rintro rfl
    exact hf (reference?_of_mem_referencePatches hp)

theorem get_dressed_of_ne {f : Field} (hq : f ≠ .qualifiedName) (hf : n.kind.reference? ≠ some f)
    (s t : Session Context) :
    ∃ u, (sweep.dressed n s (Value.sweepAll sweep t n.fields).1).get f =
      ((n.get f).sweep sweep u).1 := by
  rw [get_kept hq hf]
  exact Node.get_sweepAll sweep t n _ f

theorem get_dressed {f : Field}
    (hf : f ≠ .qualifiedName ∧ f ≠ .parent ∧ f ≠ .type ∧ f ≠ .cls)
    (n : Node) (s t : Session Context) :
    ∃ u, (sweep.dressed n s (Value.sweepAll sweep t n.fields).1).get f =
      ((n.get f).sweep sweep u).1 := by
  refine get_dressed_of_ne hf.1 (fun href => ?_) s t
  rcases Kind.reference?_cases href with h | h | h <;> tauto

theorem str?_name_sweep (s : Session Context) (n : Node) :
    ((n.sweep sweep s).1.get .name).str? = (n.get .name).str? := by
  obtain ⟨u, hu⟩ := get_dressed (f := .name) (by decide) n s (sweep.opened n s)
  rw [Node.sweep_eq, hu, Value.str?_sweep]

theorem isThis_sweep (s : Session Context) (v : Value) :
    (v.sweep sweep s).1.isThis = v.isThis := by
  cases v with
  | node n => simp [Value.sweep, Value.isThis, str?_name_sweep]
  | list vs =>
    rw [Value.sweep]
    split <;> rfl
  | _ => simp [Value.sweep, Value.isThis]

theorem get_reference {f : Field} (hn : n.Filled) (hf : n.kind.reference? = some f)
    (s : Session Context) {fields : List Value} (hlen : fields.length = n.fields.length) :
    (sweep.dressed n s fields).get f =
      s.own.settle (Node.get ⟨n.kind, sweep.place n s, fields⟩ f) := by
  have hfilled := (hn.refill (sweep.place n s) hlen).patched (s.own.namePatches n)
  have hnamed : (Node.patched ⟨n.kind, sweep.place n s, fields⟩ (s.own.namePatches n)).get f =
      Node.get ⟨n.kind, sweep.place n s, fields⟩ f := by
    apply Node.get_patched_of_ne
    intro p hp
    rw [fst_of_mem_namePatches hp]
    rcases Kind.reference?_cases hf with rfl | rfl | rfl <;> nofun
  change (Node.patched _ (s.own.namePatches n ++ s.own.referencePatches n.kind)).get f = _
  rw [Node.patched_append, referencePatches, hf, ← hnamed]
  exact hfilled.get_set_self (by rw [Node.kind_patched]; exact Kind.mem_fields_of_reference? hf) _

theorem get_reference_dressed {f : Field} (hn : n.Filled) (hf : n.kind.reference? = some f)
    (s t : Session Context) :
    ∃ u, (sweep.dressed n s (Value.sweepAll sweep t n.fields).1).get f =
      s.own.settle ((n.get f).sweep sweep u).1 := by
  obtain ⟨u, hu⟩ := Node.get_sweepAll sweep t n (sweep.place n s) f
  exact ⟨u, by rw [get_reference hn hf s (Value.length_sweepAll sweep t n.fields), hu]⟩

theorem tokenText?_reference {f : Field} (hn : n.Sound) (hf : n.kind.reference? = some f)
    (s t : Session Context) :
    ((sweep.dressed n s (Value.sweepAll sweep t n.fields).1).get f).tokenText? =
      (n.get f).tokenText?.map (ClassName.resolve s.own.ns s.own.imports) := by
  obtain ⟨u, hget⟩ := get_reference_dressed hn.wellFormed.filled hf s t
  rw [hget]
  cases htoken : (n.get f).token? with
  | none =>
    have hnone := Value.token?_sweep sweep u htoken
    simp [settle_of_token?_eq_none _ hnone, Value.tokenText?, hnone, htoken]
  | some token =>
    have ht := hn.token hf htoken
    obtain ⟨hv, hk⟩ := Value.token?_eq_some_iff.mp htoken
    rw [hv, Value.sweep, sweep_token ht hk]
    obtain ⟨place, name, rfl⟩ := exists_token ht hk
    rfl

theorem tokenText?_dressed (hn : n.Sound) (s t : Session Context) :
    ∃ ns imports, ((sweep.dressed n s (Value.sweepAll sweep t n.fields).1).get .cls).tokenText? =
      (n.get .cls).tokenText?.map (ClassName.resolve ns imports) := by
  by_cases hf : n.kind.reference? = some .cls
  · exact ⟨s.own.ns, s.own.imports, tokenText?_reference hn hf s t⟩
  · have hmem : Field.cls ∉ n.kind.fields := by
      cases hk : n.kind <;> simp_all [Kind.reference?, Kind.fields]
    refine ⟨none, [], ?_⟩
    rw [Node.get_of_not_mem hmem, Node.get_of_not_mem (by rwa [Sweep.kind_dressed])]
    rfl

theorem admits_settle (c : Context) {k : Content} {v : Value} (h : k.admits v = true) :
    k.admits (c.settle v) = true := by
  unfold settle
  split
  · rename_i n
    split
    · cases k <;> simp_all [Content.admits, Node.modify]
    · exact h
  · exact h

theorem wellFormed_swept (hn : n.WellFormed) (s t : Session Context) :
    Node.WellFormed ⟨n.kind, sweep.place n s, (Value.sweepAll sweep t n.fields).1⟩ where
  filled := hn.filled.refill _ (Value.length_sweepAll ..)
  unshared := hn.unshared
  admits f := by
    obtain ⟨u, hu⟩ := Node.get_sweepAll sweep t n (sweep.place n s) f
    rw [hu]
    exact Content.admits_sweep sweep u (hn.admits f)

theorem wellFormed_dressed (hn : n.WellFormed) (s t : Session Context) :
    (sweep.dressed n s (Value.sweepAll sweep t n.fields).1).WellFormed := by
  have hnamed : Node.WellFormed (Node.patched ⟨n.kind, sweep.place n s,
      (Value.sweepAll sweep t n.fields).1⟩ (s.own.namePatches n)) := by
    unfold namePatches
    split
    · rename_i id full hnaming
      obtain ⟨hk, text, rfl⟩ := naming?_text hn hnaming
      exact (wellFormed_swept hn s t).set (by rw [hk]; rfl)
    · exact wellFormed_swept hn s t
  change Node.WellFormed (Node.patched _ (s.own.namePatches n ++ s.own.referencePatches n.kind))
  rw [Node.patched_append]
  unfold referencePatches
  split
  · rename_i f hf
    exact hnamed.set (admits_settle _ (hnamed.admits f))
  · exact hnamed

/-- A site whose class name token may have got another text. -/
def Respelled (before after : Site) : Prop :=
  after = before ∨ before.node.kind = .className ∧
    ∃ text, after = ⟨before.spot, before.node.set .value (.str text)⟩

theorem Respelled.resolved (a b c : Site) (hab : Resolved a b) (hbc : Respelled b c) :
    Resolved a c := by
  rcases hbc with rfl | ⟨hk, text, rfl⟩
  · exact hab
  · have hget : ∀ g, Field.value ≠ g → (b.node.set .value (.str text)).get g = b.node.get g :=
      fun g hg => Node.get_set_of_ne hg _ _
    exact {
      spot := hab.spot
      kind := by rw [Node.kind_set, hab.kind]
      enclosing := by rw [Node.place_set, hab.enclosing]
      wellFormed := hab.wellFormed.set (by rw [hk]; rfl)
      name := by rw [hget _ (by decide), hab.name]
      object := by rw [hget _ (by decide), hab.object]
      cls := by
        rw [hget _ (by decide)]
        exact hab.cls }

theorem respelled_settled (c : Context) (spot : Spot) {token : Node} (ht : token.WellFormed)
    (hk : token.kind = .className) :
    Forall₂ Respelled ((Value.node token).sites spot)
      ((Value.node (token.modify .value c.inFull)).sites spot) := by
  obtain ⟨name, hname⟩ := ht.token_text hk
  have hset : token.modify .value c.inFull =
      token.set .value (.str (ClassName.resolve c.ns c.imports name)) := by
    simp [Node.modify, hname, inFull]
  obtain ⟨text, hf⟩ := fields_token (wellFormed_settled ht hk c)
    (by rw [Node.modify, Node.kind_set, hk])
  obtain ⟨text', hf'⟩ := fields_token ht hk
  rw [Value.sites, Value.sites, Node.sites_eq, Node.sites_eq, hf, hf', hset]
  simp only [Value.sitesAll, Value.sites, List.append_nil]
  exact .cons (Or.inr ⟨hk, _, rfl⟩) .nil

theorem under_dressed (spot : Spot) (hn : n.WellFormed) (s t : Session Context) :
    spot.under (sweep.dressed n s (Value.sweepAll sweep t n.fields).1) = spot.under n := by
  unfold Spot.under
  rw [Sweep.kind_dressed]
  by_cases hk : n.kind = .propertyDecl
  · obtain ⟨u, hu⟩ := get_dressed (f := .flags) (by decide) n s t
    have hflags := hn.admits .flags
    rw [hk] at hflags
    have hget : (sweep.dressed n s (Value.sweepAll sweep t n.fields).1).get .flags =
        n.get .flags := by
      rw [hu]
      cases hv : n.get .flags with
      | atom a => simp
      | _ => simp [hv, Kind.content, Content.admits] at hflags
    simp only [Declarations.isPrivate, hget]
  · simp [hk]

theorem sound_swept (hn : n.Sound) (s t : Session Context) :
    Node.Sound ⟨n.kind, sweep.place n s, (Value.sweepAll sweep t n.fields).1⟩ where
  wellFormed := wellFormed_swept hn.wellFormed s t
  token {f token} hf ht := by
    obtain ⟨u, hu⟩ := Node.get_sweepAll sweep t n (sweep.place n s) f
    rw [hu] at ht
    cases hg : (n.get f).token? with
    | none => simp [Value.token?_sweep sweep u hg] at ht
    | some token' =>
      have hwf := hn.token hf hg
      obtain ⟨hv, hk⟩ := Value.token?_eq_some_iff.mp hg
      rw [hv, Value.sweep, sweep_token hwf hk] at ht
      obtain ⟨ht, -⟩ := Value.token?_eq_some_iff.mp ht
      obtain rfl : _ = token := Value.node.inj ht
      exact hwf.at_place hwf.unshared

theorem naming?_swept (hn : n.WellFormed) (c : Context) (place : Place) (t : Session Context) :
    c.naming? ⟨n.kind, place, (Value.sweepAll sweep t n.fields).1⟩ = c.naming? n := by
  unfold naming?
  cases hk : n.kind with
  | classDecl id =>
    obtain ⟨u, hu⟩ := Node.get_sweepAll sweep t n place .name
    have hname := hn.admits .name
    rw [hk] at hname hu
    have hget : ((n.get .name).sweep sweep u).1 = n.get .name := by
      rcases Content.admits_optionalText_iff.mp hname with h | ⟨name, h⟩ <;> simp [h]
    simp only [hu, hget]
  | _ => rfl

/-- The changes that the class context makes to a node commute with a walk below it also if what is
below has been swept. -/
theorem commutes_swept {σ : Type} {w : Sweep σ} (hw : w.PassesTokens) (hn : n.Sound)
    (s t : Session Context) :
    w.Commutes (sweep.patches n s)
      ⟨n.kind, sweep.place n s, (Value.sweepAll sweep t n.fields).1⟩ := by
  have h := commutes_patches hw (sound_swept hn s t) s.own
  rwa [namePatches, naming?_swept hn.wellFormed] at h

section Below

variable {α : Type} {g : Value → List α} {R : α → α → Prop}

theorem flatMap_named (hg : ∀ a, g (.atom a) = []) (hn : n.WellFormed) (c : Context) :
    (n.patched (c.namePatches n)).fields.flatMap g = n.fields.flatMap g := by
  unfold namePatches
  split
  · rename_i id full hnaming
    obtain ⟨hk, text, rfl⟩ := naming?_text hn hnaming
    have hq := hn.admits .qualifiedName
    rw [hk] at hq
    have hold : g (n.get .qualifiedName) = [] := by
      rcases Content.admits_optionalText_iff.mp hq with h | ⟨name, h⟩ <;> rw [h, hg]
    have hset : Forall₂ Eq (n.fields.flatMap g)
        ((n.set .qualifiedName (.str text)).fields.flatMap g) :=
      Node.flatMap_set (fun _ => rfl) hn.filled (by rw [hold, hg]; exact .nil)
    rw [List.forall₂_eq_eq_eq] at hset
    exact hset.symm
  · rfl

theorem forall₂_referring (hR : ∀ x, R x x) {c : Context}
    (htoken : ∀ token : Node, token.WellFormed → token.kind = .className →
      Forall₂ R (g (.node token)) (g (.node (token.modify .value c.inFull)))) (hn : n.Sound) :
    Forall₂ R (n.fields.flatMap g) ((n.patched (c.referencePatches n.kind)).fields.flatMap g) := by
  have hrefl : ∀ l : List α, Forall₂ R l l := fun l => List.forall₂_same.mpr fun x _ => hR x
  unfold referencePatches
  cases hf : n.kind.reference? with
  | none => exact hrefl _
  | some f =>
    refine Node.flatMap_set hR hn.wellFormed.filled ?_
    dsimp only
    cases ht : (n.get f).token? with
    | none =>
      rw [settle_of_token?_eq_none c ht]
      exact hrefl _
    | some token =>
      obtain ⟨hv, hk⟩ := Value.token?_eq_some_iff.mp ht
      rw [settle_token c ht, hv]
      exact htoken token (hn.token hf ht) hk

theorem forall₂_dressed (hR : ∀ x, R x x) (hg : ∀ a, g (.atom a) = []) {s : Session Context}
    (htoken : ∀ token : Node, token.WellFormed → token.kind = .className →
      Forall₂ R (g (.node token)) (g (.node (token.modify .value s.own.inFull))))
    (hn : n.Sound) (t : Session Context) :
    Forall₂ R ((Value.sweepAll sweep t n.fields).1.flatMap g)
      ((sweep.dressed n s (Value.sweepAll sweep t n.fields).1).fields.flatMap g) := by
  obtain ⟨m, hm⟩ : ∃ m : Node, m = ⟨n.kind, sweep.place n s, (Value.sweepAll sweep t n.fields).1⟩ :=
    ⟨_, rfl⟩
  have hsound : m.Sound := hm ▸ sound_swept hn s t
  have hpatches : s.own.namePatches m = s.own.namePatches n := by
    rw [hm, namePatches, namePatches, naming?_swept hn.wellFormed]
  have h := forall₂_referring hR htoken (sound_named hsound s.own)
  rw [flatMap_named hg hsound.wellFormed, Node.kind_patched, hpatches, ← Node.patched_append] at h
  rw [hm] at h
  exact h

end Below

theorem respelled_dressed (hn : n.Sound) (spot : Spot) (s t : Session Context) :
    Forall₂ Respelled (Value.sitesAll spot (Value.sweepAll sweep t n.fields).1)
      (Value.sitesAll spot (sweep.dressed n s (Value.sweepAll sweep t n.fields).1).fields) := by
  rw [Value.sitesAll_eq_flatMap, Value.sitesAll_eq_flatMap]
  apply forall₂_dressed
  · exact fun x => Or.inl rfl
  · exact fun a => by simp [Value.sites]
  · exact fun token ht hk => respelled_settled s.own spot ht hk
  · exact hn

end Context

mutual

theorem Node.resolved_sites (spot : Spot) : (n : Node) → (s : Session Context) →
    (∀ m ∈ n.preorder, m.Sound) → s.own.classes.head? = spot.owner →
    Forall₂ Resolved (n.sites spot) ((n.sweep Context.sweep s).1.sites spot)
  | ⟨kind, place, fields⟩, s, hn, hs => by
    obtain ⟨n, hdef⟩ : ∃ n : Node, n = ⟨kind, place, fields⟩ := ⟨_, rfl⟩
    have hfields : fields = n.fields := by rw [hdef]
    have hsound : n.Sound := hdef ▸ hn _ (by simp [Node.preorder])
    have hopened : (Context.sweep.opened n s).own.classes.head? = (spot.under n).owner := by
      rw [Context.classes_opened]
      cases hk : n.kind <;> simp [Kind.classId?, Spot.under, Declarations.inside, hk, hs]
    have hbelow := Value.resolved_sitesAll (spot.under n) fields (Context.sweep.opened n s)
      (fun m hm => hn m (by simp [Node.preorder, hm])) hopened
    rw [← hdef]
    rw [Node.sites_eq, Node.sites_eq, Node.sweep_eq, Context.under_dressed spot hsound.wellFormed]
    rw [hfields] at hbelow
    refine .cons ?_ (forall₂_trans Context.Respelled.resolved hbelow
      (Context.respelled_dressed hsound _ s _))
    exact {
      spot := rfl
      kind := Sweep.kind_dressed ..
      enclosing := by rw [Sweep.place_dressed]; exact hs
      wellFormed := Context.wellFormed_dressed hsound.wellFormed s _
      name := by
        have h := Context.str?_name_sweep s n
        rwa [Node.sweep_eq] at h
      object := by
        obtain ⟨u, hu⟩ := Context.get_dressed (f := .object) (by decide) n s
          (Context.sweep.opened n s)
        rw [hu, Context.isThis_sweep]
      cls := Context.tokenText?_dressed hsound s _ }

theorem Value.resolved_sites (spot : Spot) : (v : Value) → (s : Session Context) →
    (∀ m ∈ v.preorder, m.Sound) → s.own.classes.head? = spot.owner →
    Forall₂ Resolved (v.sites spot) ((v.sweep Context.sweep s).1.sites spot)
  | .node n, s, hv, hs => by
    rw [Value.preorder] at hv
    exact Node.resolved_sites spot n s hv hs
  | .list vs, s, hv, hs => by
    rw [Value.sweep, Value.sites]
    rw [Value.preorder] at hv
    by_cases hall : vs.all Value.isNode
    · rw [if_pos hall] at hv ⊢
      rw [if_pos hall, Value.sites, if_pos (Value.all_isNode_sweepAll _ s hall)]
      exact Value.resolved_sitesAll spot vs s hv hs
    · simp [hall, Value.sites]
  | .atom _, s, hv, hs | .object, s, hv, hs => by simp [Value.sweep, Value.sites]

theorem Value.resolved_sitesAll (spot : Spot) : (vs : List Value) → (s : Session Context) →
    (∀ m ∈ Value.preorderAll vs, m.Sound) → s.own.classes.head? = spot.owner →
    Forall₂ Resolved (Value.sitesAll spot vs)
      (Value.sitesAll spot (Value.sweepAll Context.sweep s vs).1)
  | [], s, hvs, hs => .nil
  | v :: vs, s, hvs, hs => by
    rw [Value.sitesAll, Value.sweepAll, Value.sitesAll]
    rw [Value.preorderAll] at hvs
    refine List.rel_append ?_ ?_
    · exact Value.resolved_sites spot v s (fun m hm => hvs m (List.mem_append_left _ hm)) hs
    · refine Value.resolved_sitesAll spot vs _ (fun m hm => hvs m (List.mem_append_right _ hm)) ?_
      rw [Context.classes_sweepValue, hs]

end

/-- How working out the class context leaves each node of a unit. -/
theorem resolved_sites {γ : Type} {unit : List Node} (hu : WellFormed unit) (s : Session γ) :
    Forall₂ Resolved (sites unit) (sites (resolution unit s).1) := by
  have h := Value.resolved_sitesAll {} (unit.map .node) (s.withOwn {}).settled
    (by rw [preorderAll_nodes]; exact hu.sound) rfl
  rwa [Value.sweepAll_nodes, ← sites_eq_sitesAll, ← sites_eq_sitesAll] at h

theorem wellFormed_of_sites {unit : List Node} (h : ∀ x ∈ sites unit, x.node.WellFormed) :
    WellFormed unit := by
  intro n hn
  rw [← map_node_sites] at hn
  obtain ⟨x, hx, rfl⟩ := List.mem_map.mp hn
  exact h x hx

theorem wellFormed_resolution {γ : Type} {unit : List Node} (hu : WellFormed unit)
    (s : Session γ) : WellFormed (resolution unit s).1 := by
  refine wellFormed_of_sites fun y hy => ?_
  obtain ⟨x, -, hxy⟩ := mem_of_forall₂_right (resolved_sites hu s) hy
  exact hxy.wellFormed

end PropertyRenaming
