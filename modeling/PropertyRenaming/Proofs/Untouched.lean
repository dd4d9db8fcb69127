import PropertyRenaming.Proofs.ClassContext
import PropertyRenaming.Proofs.Frame
import PropertyRenaming.Proofs.Serving
import PropertyRenaming.Proofs.Substitution
import PropertyRenaming.Proofs.VisitorLevels

namespace PropertyRenaming

open List (Forall₂)

section Values

variable {σ : Type} {T : Touch} {p : Prop} {spot : Spot} {named : Bool}

theorem Value.children_eq_nil_of_nodesOf? {vs : List Value} (h : Value.nodesOf? vs = none) :
    (Value.list vs).children = [] := by
  simp [Value.children, h]

theorem forall₂_sweepUnit {R : Node → Node → Prop} {w : Sweep σ} {ns : List Node}
    (h : ∀ n ∈ ns, ∀ s, R n (n.sweep w s).1) (s : Session σ) :
    Forall₂ R ns (sweepUnit w s ns).1 := by
  induction ns generalizing s with
  | nil => exact .nil
  | cons n ns ih =>
    rw [sweepUnit]
    exact .cons (h n List.mem_cons_self s) (ih (fun m hm => h m (List.mem_cons_of_mem _ hm)) _)

theorem Value.framed_sweep {w : Sweep σ} {v : Value}
    (h : ∀ n ∈ v.children, ∀ named s, Node.Framed T spot named n (n.sweep w s).1)
    (s : Session σ) : Value.Framed T p spot named v (v.sweep w s).1 := by
  cases v with
  | atom a =>
    rw [Value.sweep_atom]
    exact .same rfl
  | object =>
    rw [Value.sweep]
    · exact .same rfl
    all_goals simp
  | node n =>
    rw [Value.sweep]
    exact .node (h n (by simp [Value.children]) named s)
  | list vs =>
    rw [Value.sweep, Value.all_isNode_eq]
    cases hns : Value.nodesOf? vs with
    | none => exact .same (Value.children_eq_nil_of_nodesOf? hns)
    | some ns =>
      obtain rfl := Value.nodesOf?_eq_some_iff.mp hns
      rw [Value.children_nodes] at h
      rw [Option.isSome_some, if_pos rfl, Value.sweepAll_nodes]
      refine .nodes (Value.framedAll_iff.mpr ⟨ns, _, rfl, rfl, ?_⟩)
      exact forall₂_sweepUnit (fun n hn => h n hn false) s

theorem Value.framed_rewrite {new : Rewriting} {v : Value} (at' : Spot)
    (h : ∀ n ∈ v.children, ∀ named, Node.Framed T spot named n (n.rewrite new at')) :
    Value.Framed T p spot named v (v.rewrite new at') := by
  cases v with
  | atom a =>
    rw [Value.rewrite_atom]
    exact .same rfl
  | object =>
    rw [Value.rewrite]
    · exact .same rfl
    all_goals simp
  | node n =>
    rw [Value.rewrite]
    exact .node (h n (by simp [Value.children]) named)
  | list vs =>
    rw [Value.rewrite, Value.all_isNode_eq]
    cases hns : Value.nodesOf? vs with
    | none => exact .same (Value.children_eq_nil_of_nodesOf? hns)
    | some ns =>
      obtain rfl := Value.nodesOf?_eq_some_iff.mp hns
      rw [Value.children_nodes] at h
      rw [Option.isSome_some, if_pos rfl, Value.rewriteAll_eq_map, List.map_map]
      refine .nodes (Value.framedAll_iff.mpr
        ⟨ns, ns.map (Node.rewrite new at'), rfl, by simp [Function.comp_def, Value.rewrite], ?_⟩)
      rw [List.forall₂_map_right_iff, List.forall₂_same]
      exact fun n hn => h n hn false

end Values

namespace Context

/-- Where the class context is written down: in the class name tokens that stand where a class is
named, and in the qualified names of the classes that have a name. -/
inductive Touched (spot : Spot) (named : Bool) (n m : Node) : Field → Prop
  | reference : named = true → n.kind = .className → Touched spot named n m .value
  | qualifiedName {id : ClassId} : n.kind = .classDecl id → n.get .name ≠ .null →
    Touched spot named n m .qualifiedName

variable {n : Node}

theorem framed_settled {token : Node} (ht : token.WellFormed) (hk : token.kind = .className)
    (c : Context) (s : Session Context) (spot : Spot) :
    Node.Framed Touched spot true token
      (Node.modify ⟨token.kind, sweep.place token s, token.fields⟩ .value c.inFull) := by
  obtain ⟨place, name, rfl⟩ := exists_token ht hk
  refine .mk rfl rfl rfl fun f => ?_
  by_cases hf : f = .value
  · subst hf
    exact .touched (.reference rfl rfl)
  · have hmem : f ∉ Kind.className.fields := by simpa [Kind.fields] using hf
    rw [Node.get_of_not_mem hmem, Node.get_of_not_mem (by rwa [Node.modify, Node.kind_set])]
    exact .same rfl

theorem framed_sweep (hn : ∀ m ∈ n.preorder, m.Sound) (spot : Spot) (named : Bool)
    (s : Session Context) :
    Node.Framed Touched spot named n (n.sweep sweep s).1 := by
  induction n using Node.induction_children generalizing spot named s with
  | _ n ih =>
    have hsound := hn n (by simp [n.preorder_eq])
    have hbelow : ∀ f, ∀ m ∈ (n.get f).children, ∀ named s,
        Node.Framed Touched (spot.under n) named m
          (m.sweep sweep s).1 := by
      intro f m hm named s
      have hsub := Node.preorder_subset n (Node.mem_preorder_of_mem_children hm)
      exact ih f m hm (fun k hk => hn k (hsub hk)) _ named s
    rw [Node.sweep_eq]
    refine .mk (Sweep.kind_dressed ..) (by rw [Sweep.place_dressed]; rfl) ?_ fun f => ?_
    · have hfilled := (hsound.wellFormed.filled.refill (sweep.place n s)
        (Value.length_sweepAll sweep (sweep.opened n s) n.fields)).patched (sweep.patches n s)
      rw [hsound.wellFormed.filled]
      exact hfilled.trans (by rw [Node.kind_patched])
    by_cases hq : f = .qualifiedName
    · subst hq
      obtain ⟨a, ha⟩ := hsound.wellFormed.qualifiedName_atom
      rw [qualifiedName_dressed hsound.wellFormed, ha]
      cases hnaming : s.own.naming? n with
      | none => exact .same rfl
      | some e =>
        obtain ⟨hk, full, hfull⟩ := naming?_text hsound.wellFormed hnaming
        rw [Option.map_some, Option.getD_some, hfull]
        refine .touched (.qualifiedName hk fun hnull => ?_)
        simp [naming?, hk, hnull, Value.isNull] at hnaming
    · by_cases hf : n.kind.reference? = some f
      · obtain ⟨u, hu⟩ := get_reference_dressed hsound.wellFormed.filled hf s (sweep.opened n s)
        rw [hu]
        cases htoken : (n.get f).token? with
        | none =>
          rw [settle_of_token?_eq_none _ (Value.token?_sweep sweep u htoken)]
          exact Value.framed_sweep (hbelow f) u
        | some token =>
          have ht := hsound.token hf htoken
          obtain ⟨hv, hk⟩ := Value.token?_eq_some_iff.mp htoken
          have hnamed : (n.kind.reference? == some f) = true := by simp [hf]
          rw [hv, hnamed, Value.sweep, sweep_token ht hk, settle]
          simp only [hk, if_true]
          rw [← hk]
          exact .node (framed_settled ht hk s.own u _)
      · obtain ⟨u, hu⟩ := get_dressed_of_ne hq hf s (sweep.opened n s)
        rw [hu]
        exact Value.framed_sweep (hbelow f) u

end Context

namespace Renamer

/-- Where fetches are renamed: in names that are written out, if the fetch is local. -/
inductive Touched (table : ClassTable) (spot : Spot) (named : Bool) (n m : Node) : Field → Prop
  | fetch {name : String} : n.kind.isFetch = true → n.get .name = .str name →
    table.isLocal m = .ok true → Touched table spot named n m .name

theorem framed_rewrite {map : RenameMap} {table : ClassTable} {n : Node}
    (hn : ∀ m ∈ n.preorder, m.Legible) (spot at' : Spot) (named : Bool) :
    Node.Framed (Touched table) spot named n
      (n.rewrite (fetchRewriting map table) at') := by
  induction n using Node.induction_children generalizing spot at' named with
  | _ n ih =>
    have hlegible := hn n (by simp [n.preorder_eq])
    have hfilled := hlegible.filled
    have hbelow : ∀ f, ∀ m ∈ (n.get f).children, ∀ named,
        Node.Framed (Touched table) (spot.under n) named m
          (m.rewrite (fetchRewriting map table) (at'.under n)) := by
      intro f m hm named
      have hsub := Node.preorder_subset n (Node.mem_preorder_of_mem_children hm)
      exact ih f m hm (fun k hk => hn k (hsub hk)) _ _ named
    refine .mk (Node.kind_rewrite ..) (by rw [Node.place_rewrite]) ?_ fun f => ?_
    · rw [Node.rewrite_eq, Node.length_fields_named, List.length_map]
    by_cases hf : f = .name
    · subst hf
      cases hx : fetchRewriting map table ⟨at', n⟩ with
      | none =>
        rw [Node.get_name_rewrite_of_none hx]
        exact Value.framed_rewrite _ (hbelow .name)
      | some a =>
        obtain ⟨⟨id, name⟩, hlocal, -⟩ := Option.bind_eq_some_iff.mp hx
        obtain ⟨hname, -, hk, hfinds⟩ := Node.localFetch?_eq_some_iff.mp hlocal
        have hmem : .name ∈ n.kind.fields := by
          cases hkind : n.kind <;> simp_all [Kind.isFetch, Kind.fields]
        rw [Node.get_name_rewrite_of_some hfilled hmem hx, hname]
        refine .touched (.fetch hk hname (ClassTable.isLocal_of_finds ?_))
        rw [← hfinds]
        exact table.finds_rewrite (fun h => Or.inr (fetchRewriting_literal h).1) ⟨at', n⟩
    · rw [Node.get_rewrite_of_ne (Ne.symm hf)]
      exact Value.framed_rewrite _ (hbelow f)

end Renamer

def Request.isIgnored (ignore : List Atom) : Request → Bool
  | .item _ name _ => name.isIn ignore
  | .bad _ => false

namespace Declarations

/-- Where items are renamed: in the names of declared items that are not ignored. The new names are
of the given sort. -/
inductive Touched (ignore : List Atom) (given : Atom → Prop) (spot : Spot) (named : Bool)
    (n m : Node) : Field → Prop
  | item {owner : ClassId} {name new : Atom} :
    (⟨spot, n⟩ : Site).declared? = some (owner, name) → name.isIn ignore = false →
    m.get .name = .atom new → given new → Touched ignore given spot named n m .name

/-- Only items that are not ignored get names, and those are of the given sort. -/
def Spares (ignore : List Atom) (given : Atom → Prop) (qs : List Request)
    (names : List (Option Atom)) : Prop :=
  ∀ e ∈ qs.zip names, ∀ new, e.2 = some new → e.1.isIgnored ignore = false ∧ given new

section Spares

variable {ignore : List Atom} {given : Atom → Prop} {q : Request} {qs rs : List Request}
  {name : Option Atom} {names : List (Option Atom)}

theorem spares_cons : Spares ignore given (q :: qs) (name :: names) ↔
    (∀ new, name = some new → q.isIgnored ignore = false ∧ given new) ∧
      Spares ignore given qs names := by
  rw [Spares, List.zip_cons_cons, List.forall_mem_cons]
  rfl

theorem Spares.append (h : Spares ignore given (qs ++ rs) names) :
    Spares ignore given qs names ∧ Spares ignore given rs (names.drop qs.length) := by
  induction qs generalizing names with
  | nil => exact ⟨by simp [Spares], h⟩
  | cons q qs ih =>
    cases names with
    | nil => simp [Spares]
    | cons name names =>
      rw [List.cons_append, spares_cons] at h
      obtain ⟨hqs, hrs⟩ := ih h.2
      exact ⟨spares_cons.mpr ⟨h.1, hqs⟩, hrs⟩

theorem Spares.take (h : Spares ignore given qs names) :
    Spares ignore given qs (names.take qs.length) := by
  intro e he
  have htake : qs.zip (names.take qs.length) = (qs.zip names).take qs.length := by
    rw [List.zip_eq_zipWith, List.zip_eq_zipWith, List.take_zipWith, List.take_length]
  rw [htake] at he
  exact h e (List.mem_of_mem_take he)

variable {γ : Type} {t : Terms γ} {d : Drawing γ} {Kept : γ → Prop}

theorem Terms.draw_yields (ht : Names.Yields t.supply Kept given) (hd : Kept d.memory)
    (name : Atom) (scope : Option Scope) :
    Kept (t.draw name scope d).1.memory ∧
      ∀ new, (t.draw name scope d).2.1 = some new → given new := by
  have hyields := fun taken => ht name (t.reserved ++ taken) d.memory hd
  have hdraws := t.draws name scope d
  generalize t.draw name scope d = o at hdraws ⊢
  cases hdraws with
  | keyless _ => exact ⟨hd, nofun⟩
  | @refused taken => exact ⟨(hyields taken).1, nofun⟩
  | @unnoted taken _ new _ _ hname | @noted taken _ _ new _ _ hname =>
    exact ⟨(hyields taken).1, fun _ h => Option.some.inj h ▸ (hyields taken).2 new hname⟩

theorem Terms.serve_spares (ht : Names.Yields t.supply Kept given) (hd : Kept d.memory)
    (hslot : q.slot = none) :
    Kept (t.serve q d).1.memory ∧
      ∀ new, (t.serve q d).2.1 = some new → q.isIgnored t.ignore = false ∧ given new := by
  cases q with
  | bad e => simp [Terms.serve, hd]
  | item owner name slot =>
    obtain rfl : slot = none := hslot
    cases hname : name.isIn t.ignore with
    | true =>
      rw [t.serve_ignored owner hname]
      split <;> simp [hd]
    | false =>
      obtain ⟨hkept, hgiven⟩ := Terms.draw_yields ht hd name
        (if d.map.perClass then some (t.scope owner) else none)
      rw [t.serve_item owner hname]
      exact ⟨hkept, fun new h => ⟨hname, hgiven new h⟩⟩

theorem Terms.serveAll_spares (ht : Names.Yields t.supply Kept given) (hd : Kept d.memory)
    (hslots : ∀ q ∈ qs, q.slot = none) :
    Spares t.ignore given qs (t.serveAll qs d).2.1 := by
  induction qs generalizing d with
  | nil => simp [Spares]
  | cons q qs ih =>
    obtain ⟨hkept, hfirst⟩ := Terms.serve_spares ht hd (hslots q List.mem_cons_self)
    rw [Terms.serveAll]
    split
    · rename_i d' name e heq
      rw [heq] at hfirst
      exact spares_cons.mpr ⟨hfirst, by simp [Spares]⟩
    · rename_i d' name heq
      rw [heq] at hfirst hkept
      exact spares_cons.mpr
        ⟨hfirst, ih hkept fun q hq => hslots q (List.mem_cons_of_mem _ hq)⟩

theorem Drawing.finalNames_spares (hslots : ∀ q ∈ qs, q.slot = none)
    (h : Spares ignore given qs names) : Spares ignore given qs (d.finalNames qs names) := by
  induction qs generalizing names with
  | nil => simp [Spares]
  | cons q qs ih =>
    have hslots' : ∀ q ∈ qs, q.slot = none := fun q hq => hslots q (List.mem_cons_of_mem _ hq)
    simp only [Drawing.finalNames, hslots q List.mem_cons_self]
    cases names with
    | nil => exact spares_cons.mpr ⟨by simp, ih hslots' (by simp [Spares])⟩
    | cons name names =>
      obtain ⟨hq, hqs⟩ := spares_cons.mp h
      exact spares_cons.mpr ⟨hq, ih hslots' hqs⟩

end Spares

section Framed

variable {ignore : List Atom} {given : Atom → Prop} {spot : Spot} {named : Bool}

theorem framed_set_name {n m : Node} (hn : n.Filled)
    (h : Node.Framed (Touched ignore given) spot named n m)
    {owner : ClassId} {name : Atom} (hitem : (⟨spot, n⟩ : Site).declared? = some (owner, name))
    (hname : name.isIn ignore = false) {a : Atom} (ha : given a) :
    Node.Framed (Touched ignore given) spot named n
      (m.set .name (.atom a)) := by
  obtain ⟨hk, -, -, hget⟩ := Site.declared?_eq_some_iff.mp hitem
  refine .mk (by rw [Node.kind_set, h.kind_eq]) (by rw [Node.place_set, h.share_eq])
    (by rw [Node.length_fields_set, h.length_eq]) fun f => ?_
  by_cases hf : f = .name
  · subst hf
    have hmem : .name ∈ m.kind.fields := by
      rw [h.kind_eq, hk]
      simp [Kind.fields]
    have hset := (h.filled hn).get_set_self hmem (.atom a)
    rw [hset, hget]
    exact .touched (.item hitem hname hset ha)
  · rw [Node.get_set_of_ne (Ne.symm hf)]
    refine (h.field f).imp fun ht => ?_
    cases ht
    exact absurd rfl hf

theorem framed_renameItems {o : ClassId} {items items' : List Value}
    (hitems : items.all Content.isItem = true)
    (hwf : ∀ m ∈ Value.preorderAll items, m.WellFormed)
    (h : Forall₂ (Value.Framed (Touched ignore given) False
      ⟨some o, some true⟩ false) items items')
    {names : List (Option Atom)}
    (hnames : Spares ignore given ((items.map itemName).map (Request.ofName o)) names) :
    Forall₂ (Value.Framed (Touched ignore given) False
      ⟨some o, some true⟩ false) items (renameItems names items') := by
  induction h generalizing names with
  | nil =>
    cases names with
    | nil => exact .nil
    | cons name names => cases name <;> exact .nil
  | @cons v u items items' hv hrest ih =>
    simp only [List.all_cons, Bool.and_eq_true] at hitems
    have hbelow : ∀ m ∈ Value.preorderAll items, m.WellFormed := fun m hm =>
      hwf m (by simp [Value.preorderAll, hm])
    cases names with
    | nil =>
      rw [renameItems]
      · exact .cons hv hrest
      all_goals simp
    | cons name names =>
      obtain ⟨hfirst, hnames⟩ := spares_cons.mp hnames
      have htail := ih hitems.2 hbelow hnames
      cases name with
      | none => exact .cons hv htail
      | some a =>
        cases hv with
        | touched hp => exact hp.elim
        | same hnone =>
          cases v with
          | node n => simp [Value.children] at hnone
          | _ => simp [Content.isItem] at hitems
        | nodes hall => simp [Content.isItem] at hitems
        | @node _ _ _ n m hn =>
          have hk : n.kind = .propertyItem := by simpa [Content.isItem] using hitems.1
          have hwfn := hwf n (by simp [Value.preorderAll, Value.preorder, Node.preorder_eq])
          obtain ⟨text, hname⟩ := hwfn.item_name hk
          have hdeclared : (⟨⟨some o, some true⟩, n⟩ : Site).declared? = some (o, .text text) := by
            simp [Site.declared?, hk, hname]
          obtain ⟨hfree, ha⟩ := hfirst a rfl
          have hfree : (Atom.text text).isIn ignore = false := by
            simpa [itemName, Node.has, hk, Kind.fields, hname, Value.asName, Request.ofName,
              Request.isIgnored] using hfree
          exact .cons (.node (framed_set_name hwfn.filled hn hdeclared hfree ha)) htail

/-- A declaration takes the names of its items after what is below it has been renamed. -/
theorem framed_renameOwn {n : Node} (hn : n.WellFormed)
    (hwf : ∀ m ∈ Value.preorderAll n.fields, m.WellFormed) {owner : Option ClassId}
    (hspot : spot.owner = owner) {fields : List Value}
    (hfields : Forall₂ (fun v u => ∀ p named, Value.Framed
      (Touched ignore given) p (spot.under n) named v u) n.fields fields)
    {names : List (Option Atom)} (hnames : Spares ignore given (ownRequests owner n) names) :
    Node.Framed (Touched ignore given) spot named n
      (renameOwn (names.take (ownRequests owner n).length) ⟨n.kind, n.place, fields⟩) := by
  rcases ownRequests_cases hn owner with
    ⟨hown, -⟩ | ⟨o, flags, items, rfl, hk, hf, hitems, hown, hunder⟩
  · rw [hown, List.length_nil, List.take_zero,
      renameOwn_nil (hn.filled.refill n.place hfields.length_eq.symm)]
    exact Node.framed_of_fields rfl rfl hfields
  · have hspot' : spot.under n = ⟨some o, some true⟩ := by
      rw [← hunder]
      simp only [Spot.under, hspot]
    have hall := all_isNode_of_isItem hitems
    rw [hf, hspot'] at hfields
    obtain ⟨u, w, hu, hw, rfl⟩ : ∃ u w,
        (∀ p named, Value.Framed (Touched ignore given) p ⟨some o, some true⟩ named
          (.int flags) u) ∧
        (∀ p named, Value.Framed (Touched ignore given) p ⟨some o, some true⟩ named
          (.list items) w) ∧ fields = [u, w] := by
      cases hfields with
      | cons hu hrest =>
        cases hrest with
        | cons hw hnil =>
          cases hnil
          exact ⟨_, _, hu, hw, rfl⟩
    obtain ⟨items', rfl, hitems'⟩ := (hw False false).exists_list hall
    rw [hown] at hnames ⊢
    have hrenamed := framed_renameItems hitems (fun m hm => hwf m (by
      simp only [hf, Value.preorderAll, Value.preorder, if_pos hall]
      simpa using hm)) hitems' hnames.take
    have hset : renameOwn (names.take ((items.map itemName).map (Request.ofName o)).length)
        ⟨n.kind, n.place, [u, .list items']⟩ = ⟨n.kind, n.place, [u, .list (renameItems
          (names.take ((items.map itemName).map (Request.ofName o)).length) items')]⟩ := by
      rw [hk]
      rfl
    rw [hset]
    refine Node.framed_of_fields rfl rfl ?_
    rw [hf, hspot']
    exact .cons hu (.cons (fun _ _ => .nodes (Value.framedAll_of_forall₂ hall hrenamed)) .nil)

mutual

theorem framed_nodeRename (owner : Option ClassId) (names : List (Option Atom)) :
    (n : Node) → (∀ m ∈ n.preorder, m.WellFormed) → (spot : Spot) → spot.owner = owner →
    (named : Bool) → Spares ignore given (nodeRequests owner n) names →
    Node.Framed (Touched ignore given) spot named n
      (nodeRename owner names n).1
  | ⟨kind, place, fields⟩, hn, spot, hspot, named, hnames => by
    have hwf := hn ⟨kind, place, fields⟩ (by simp [Node.preorder])
    have hfields : ∀ m ∈ Value.preorderAll fields, m.WellFormed := fun m hm =>
      hn m (by simp [Node.preorder, hm])
    have hshare : place.share = none := hwf.unshared
    rw [nodeRequests, hshare, sharedRequests] at hnames
    obtain ⟨hown, hrest⟩ := hnames.append
    have hbelow := framed_fieldRename (inside owner kind) _ fields hfields
      (spot.under ⟨kind, place, fields⟩) (by rw [Spot.under, hspot]) hrest
    rw [nodeRename]
    exact framed_renameOwn hwf hfields hspot hbelow hown

theorem framed_valueRename (owner : Option ClassId) (names : List (Option Atom)) :
    (v : Value) → (∀ m ∈ v.preorder, m.WellFormed) → (spot : Spot) → spot.owner = owner →
    Spares ignore given (valueRequests owner v) names → (p : Prop) → (named : Bool) →
    Value.Framed (Touched ignore given) p spot named v
      (valueRename owner names v).1
  | .node n, hv, spot, hspot, hnames, p, named => by
    rw [Value.preorder] at hv
    rw [valueRequests] at hnames
    rw [valueRename]
    exact .node (framed_nodeRename owner names n hv spot hspot named hnames)
  | .list vs, hv, spot, hspot, hnames, p, named => by
    rw [Value.preorder] at hv
    rw [valueRequests] at hnames
    rw [valueRename]
    by_cases hall : vs.all Value.isNode
    · rw [if_pos hall] at hv hnames ⊢
      have h := framed_fieldRename owner names vs hv spot hspot hnames
      exact .nodes (Value.framedAll_of_forall₂ hall (h.imp fun _ _ h => h False false))
    · rw [if_neg hall]
      rw [Value.all_isNode_eq] at hall
      exact .same (Value.children_eq_nil_of_nodesOf? (by simpa using hall))
  | .atom _, _, _, _, _, _, _ | .object, _, _, _, _, _, _ => by
    rw [valueRename]
    · exact .same rfl
    all_goals simp

theorem framed_fieldRename (owner : Option ClassId) (names : List (Option Atom)) :
    (vs : List Value) → (∀ m ∈ Value.preorderAll vs, m.WellFormed) → (spot : Spot) →
    spot.owner = owner → Spares ignore given (fieldRequests owner vs) names →
    Forall₂ (fun v u => ∀ p named, Value.Framed (Touched ignore given) p spot
      named v u) vs (fieldRename owner names vs).1
  | [], _, _, _, _ => by
    rw [fieldRename]
    exact .nil
  | v :: vs, hvs, spot, hspot, hnames => by
    rw [Value.preorderAll] at hvs
    rw [fieldRequests] at hnames
    obtain ⟨hfirst, hrest⟩ := hnames.append
    rw [← snd_valueRename] at hrest
    rw [fieldRename]
    exact .cons (framed_valueRename owner names v (fun m hm => hvs m (List.mem_append_left _ hm))
        spot hspot hfirst)
      (framed_fieldRename owner _ vs (fun m hm => hvs m (List.mem_append_right _ hm)) spot hspot
        hrest)

end

theorem framed_rename {unit : List Node} (hu : WellFormed unit) {names : List (Option Atom)}
    (hnames : Spares ignore given (requests unit) names) :
    Forall₂ (Node.Framed (Touched ignore given) {} false) unit (rename names unit) := by
  induction unit generalizing names with
  | nil => exact .nil
  | cons n unit ih =>
    rw [WellFormed, preorder, List.flatMap_cons, List.forall_mem_append] at hu
    rw [requests, List.flatMap_cons] at hnames
    obtain ⟨hfirst, hrest⟩ := hnames.append
    rw [← snd_nodeRename] at hrest
    rw [rename]
    exact .cons (framed_nodeRename none names n hu.1 {} rfl false hfirst) (ih hu.2 hrest)

theorem depth_rename_le {unit : List Node} (hu : WellFormed unit) {names : List (Option Atom)}
    (hnames : Spares ignore given (requests unit) names) :
    depth (rename names unit) ≤ depth unit :=
  depth_le_of_framed (framed_rename hu hnames) fun n hn => (hu n hn).filled

theorem slot_of_mem_requests {unit : List Node} (hu : WellFormed unit) {q : Request}
    (hq : q ∈ requests unit) : q.slot = none ∧ ∀ e, q ≠ .bad e := by
  obtain ⟨_, _, e, -, rfl⟩ := (mem_requests_iff hu).mp hq
  exact ⟨rfl, nofun⟩

theorem legible_of_framed {n m : Node} (hn : n.Sound)
    (h : Node.Framed (Touched ignore given) spot named n m) : m.Legible where
  filled := h.filled hn.wellFormed.filled
  unshared := h.share_eq.trans hn.wellFormed.unshared
  token {token} hk ht := by
    obtain ⟨hv, htoken⟩ := Value.token?_eq_some_iff.mp ht
    have hcls := h.field .cls
    have hkn : n.kind = .staticFetch := h.kind_eq ▸ hk
    rw [hv] at hcls
    generalize hget : n.get .cls = v at hcls
    cases hcls with
    | same hnone => simp [Value.children] at hnone
    | @node _ _ _ n' _ hn' =>
      have hk' : n'.kind = .className := hn'.kind_eq ▸ htoken
      have hwf := hn.token (f := .cls) (by rw [hkn]; rfl)
        (Value.token?_eq_some_iff.mpr ⟨hget, hk'⟩)
      obtain ⟨name, hname⟩ := hwf.token_text hk'
      have hvalue := hn'.field .value
      rw [hname] at hvalue
      exact ⟨name, hvalue.eq_of_atom nofun⟩

theorem legible_rename {unit : List Node} (hu : WellFormed unit) {names : List (Option Atom)}
    (hnames : Spares ignore given (requests unit) names) :
    ∀ m ∈ preorder (rename names unit), m.Legible := by
  intro m hm
  obtain ⟨n, hn, _, _, hframed⟩ :=
    exists_mem_of_framed (framed_rename hu hnames) (fun n hn => (hu n hn).filled) hm
  exact legible_of_framed (hu.sound n hn) hframed

end Framed

end Declarations

namespace Renamer

open Context (Calm)

variable {γ : Type} {supply : Names.Supply γ}

def scanTerms (supply : Names.Supply γ) (unit : List Node) (s : Session (Renamer γ)) :
    Declarations.Terms γ :=
  { supply, reserved := (propertyNames unit).map .text, ignore := s.own.ignore
    scope := s.classes.scope }

def scanStart (s : Session (Renamer γ)) : Declarations.Drawing γ :=
  { memory := s.own.memory, map := s.own.map.clear, log := s.log }

theorem before_eq_drawn {unit : List Node} (hu : WellFormed unit) (s : Session (Renamer γ)) :
    before supply unit s = drawn unit s
      ((scanTerms supply unit s).serveAll (Declarations.requests unit) (scanStart s)) :=
  before_ok (reservedNames_eq hu) s

/-- A scan that comes to its end puts back names that spare ignored items. -/
theorem before_done {Kept : γ → Prop} {given : Atom → Prop}
    (hsupply : Names.Yields supply Kept given) {unit : List Node} (hu : WellFormed unit)
    {s : Session (Renamer γ)} (hs : Kept s.own.memory) {reply : Reply}
    (h : (before supply unit s).reply = .ok reply) :
    ∃ names, ∃ t : Session (Renamer γ),
      before supply unit s = t.done (Declarations.rename names unit) .keep ∧
      Declarations.Spares s.own.ignore given (Declarations.requests unit) names ∧
      t.classes = s.classes ∧ t.log.threshold = s.log.threshold := by
  have hslots : ∀ q ∈ Declarations.requests unit, q.slot = none := fun q hq =>
    (Declarations.slot_of_mem_requests hu hq).1
  have hgrows := (scanTerms supply unit s).serveAll_grows (Declarations.requests unit) (scanStart s)
  have hspares := Declarations.Terms.serveAll_spares (t := scanTerms supply unit s)
    (d := scanStart s) hsupply hs hslots
  rw [before_eq_drawn hu] at h ⊢
  unfold drawn at h ⊢
  cases hfault : ((scanTerms supply unit s).serveAll (Declarations.requests unit)
      (scanStart s)).2.2 with
  | some e => simp [hfault, Session.fail] at h
  | none =>
    exact ⟨_, _, rfl, Declarations.Drawing.finalNames_spares hslots hspares, rfl, hgrows.threshold⟩

/-- A walk that renames properties and comes to its end: what it does to the items, and what it then
does to the fetches. -/
theorem exists_framed {limit : Nat} {unit : List Node} (hu : WellFormed unit)
    (hd : depth unit ≤ limit) {s : Session (Renamer γ)} (hs : s.log.Quiet) {nodes : List Node}
    (h : (traverse limit [visitor supply] unit s).reply = .ok nodes) :
    ∃ items, Forall₂ (Node.Framed (Declarations.Touched s.own.ignore fun _ => True) {} false) unit
        items ∧
      Forall₂ (Node.Framed (Touched s.classes) {} false) items nodes ∧
      (traverse limit [visitor supply] unit s).session.classes = s.classes := by
  cases hreply : (before supply unit s).reply with
  | error e =>
    rw [traverse_of_before_error (v := visitor supply) hreply] at h
    cases h
  | ok reply =>
    have hsupply : Names.Yields supply (fun _ => True) fun _ => True :=
      fun _ _ _ _ => ⟨trivial, fun _ _ => trivial⟩
    obtain ⟨names, t, hbefore, hspares, hclasses, hthreshold⟩ :=
      before_done hsupply hu trivial hreply
    have hlegible := Declarations.legible_rename hu hspares
    obtain ⟨hswept, hkeeps⟩ := sweepUnit_eq t.settled (Declarations.rename names unit)
    have htraverse := traverse_eq hbefore ((Declarations.depth_rename_le hu hspares).trans hd)
      hlegible (hs.of_threshold hthreshold)
    rw [htraverse] at h ⊢
    obtain rfl := Except.ok.inj h
    refine ⟨_, Declarations.framed_rename hu hspares, ?_, hkeeps.classes.trans hclasses⟩
    rw [hswept, rewriteUnit, List.forall₂_map_right_iff, List.forall₂_same]
    intro n hn
    rw [show t.settled.classes = s.classes from hclasses]
    exact framed_rewrite (fun m hm => hlegible m (List.mem_flatMap.mpr ⟨n, hn, hm⟩)) {} {} false

end Renamer

/-- The fields that a run may change. -/
inductive Touched (ignore : List Atom) (table : ClassTable) (spot : Spot) (named : Bool)
    (n m : Node) : Field → Prop
  /-- The name of an item that a private declaration inside a class lists, unless it is ignored. -/
  | item {owner : ClassId} {name : Atom} : (⟨spot, n⟩ : Site).declared? = some (owner, name) →
    name.isIn ignore = false → Touched ignore table spot named n m .name
  /-- The name of a local fetch, if it was written out. -/
  | fetch {name : String} : n.kind.isFetch = true → n.get .name = .str name →
    table.isLocal m = .ok true → Touched ignore table spot named n m .name
  /-- The text of a class name token that stands where a class is named. -/
  | reference : named = true → n.kind = .className → Touched ignore table spot named n m .value
  /-- The qualified name of a class that has a name. -/
  | qualifiedName {id : ClassId} : n.kind = .classDecl id → n.get .name ≠ .null →
    Touched ignore table spot named n m .qualifiedName

section Composition

variable {ignore : List Atom} {given : Atom → Prop} {table : ClassTable} {spot : Spot}
  {named : Bool} {n m k : Node}

theorem framed_items_fetches (h : Node.Framed (Declarations.Touched ignore given) spot named n m)
    (h' : Node.Framed (Renamer.Touched table) spot named m k) :
    Node.Framed (Touched ignore table) spot named n k := by
  refine h.trans nofun (fun {spot named n m k} hnm hmk f hf => ?_) h'
  rcases hf with ⟨hitem, hname, -, -⟩ | ⟨hk, hname, hlocal⟩
  · exact .item hitem hname
  · have hfetch : n.kind.isFetch = true := hnm.kind_eq ▸ hk
    have hfield := hnm.field .name
    rw [hname] at hfield
    refine .fetch hfetch (hfield.eq_atom ?_) hlocal
    rintro ⟨hitem, -, -, -⟩
    obtain ⟨hitem, -⟩ := Site.declared?_eq_some_iff.mp hitem
    simp [show n.kind = .propertyItem from hitem, Kind.isFetch] at hfetch

theorem framed_context_properties (h : Node.Framed Context.Touched spot named n m)
    (h' : Node.Framed (Touched ignore table) spot named m k) :
    Node.Framed (Touched ignore table) spot named n k := by
  refine h.trans nofun (fun {spot named n m k} hnm hmk f hf => ?_) h'
  have hkept := hnm.field .name
  have hstays : ¬ Context.Touched spot named n m .name := nofun
  rcases hf with (⟨hnamed, hk⟩ | ⟨hk, hname⟩) |
    (⟨hitem, hname⟩ | ⟨hk, hname, hlocal⟩ | ⟨hnamed, hk⟩ | ⟨hk, hname⟩)
  · exact .reference hnamed hk
  · exact .qualifiedName hk hname
  · obtain ⟨hk, hlisted, howner, hget⟩ := Site.declared?_eq_some_iff.mp hitem
    rw [show m.get .name = _ from hget] at hkept
    exact .item (Site.declared?_eq_some_iff.mpr
      ⟨hnm.kind_eq ▸ hk, hlisted, howner, hkept.eq_atom hstays⟩) hname
  · rw [hname] at hkept
    exact .fetch (hnm.kind_eq ▸ hk) (hkept.eq_atom hstays) hlocal
  · exact .reference hnamed (hnm.kind_eq ▸ hk)
  · refine .qualifiedName (hnm.kind_eq ▸ hk) fun hnull => hname ?_
    rw [hnull] at hkept
    exact hkept.eq_of_atom hstays

end Composition

section Run

variable {γ : Type} {supply : Names.Supply γ} {settings : Settings} {report : Report}

theorem framed_renameResolved {nodes : List Node} (hu : WellFormed nodes) {s : Session γ}
    (hs : s.log.Quiet) (h : (renameResolved supply settings nodes s).reply = .ok report) :
    Forall₂ (Node.Framed (Touched settings.ignore s.classes) {} false) nodes report.nodes ∧
      (renameResolved supply settings nodes s).session.classes = s.classes := by
  rw [renameResolved_def] at h ⊢
  obtain ⟨t, ht⟩ : ∃ t, t = s.withOwn (Renamer.start settings s.own) := ⟨_, rfl⟩
  have hquiet : t.log.Quiet := ht ▸ hs
  dsimp only at h ⊢
  rw [← ht] at h ⊢
  cases hreply : (traverse (depth nodes) [Renamer.visitor supply] nodes t).reply with
  | error e => simp [hreply, Except.map] at h
  | ok walked =>
    rw [hreply] at h
    obtain rfl := Except.ok.inj h
    obtain ⟨items, hitems, hfetches, hclasses⟩ := Renamer.exists_framed hu le_rfl hquiet hreply
    rw [ht] at hitems hfetches hclasses
    constructor
    · refine forall₂_trans ?_ hitems hfetches
      intro n m k hnm hmk
      exact framed_items_fetches hnm hmk
    · rw [ht]
      exact hclasses

theorem framed_resolution {unit : List Node} (hu : WellFormed unit) (s : Session γ) :
    Forall₂ (Node.Framed Context.Touched {} false) unit (resolution unit s).1 :=
  forall₂_sweepUnit (fun n hn t => Context.framed_sweep (fun m hm =>
    hu.sound m (List.mem_flatMap.mpr ⟨n, hn, hm⟩)) {} false t) _

theorem depth_resolution_le {unit : List Node} (hu : WellFormed unit) (s : Session γ) :
    depth (resolution unit s).1 ≤ depth unit :=
  depth_le_of_framed (framed_resolution hu s) fun n hn => (hu n hn).filled

theorem framed_renameWith {unit : List Node} (hu : WellFormed unit) {s : Session γ}
    (hs : s.log.Quiet) (h : (renameWith supply settings unit s).reply = .ok report) :
    Forall₂ (Node.Framed (Touched settings.ignore
      (renameWith supply settings unit s).session.classes) {} false) unit report.nodes := by
  cases hcheck : settings.check with
  | error e => simp [renameWith, hcheck, Session.fail] at h
  | ok strategy =>
    obtain ⟨s', hs'⟩ : ∃ s' : Session γ,
        s' = { s with log := s.log.add (unitStart unit settings) } := ⟨_, rfl⟩
    have hquiet : s'.log.Quiet := hs' ▸ hs.add _
    obtain ⟨-, hcalm⟩ := resolveUnit_eq hu hquiet
    rw [renameWith_eq hcheck hu hs hs'] at h ⊢
    have hquiet' : ((resolution unit s').2.withOwn s'.own).log.Quiet := hcalm.2
    obtain ⟨hproperties, hclasses⟩ :=
      framed_renameResolved (wellFormed_resolution hu s') hquiet' h
    rw [hclasses]
    refine forall₂_trans ?_ (framed_resolution hu s') hproperties
    intro n m k hnm hmk
    exact framed_context_properties hnm hmk

end Run

/-- A run that comes to its end leaves the same nodes in the same places, and of their fields it
changes only the names of private items that are not ignored, the names of local fetches, the class
names written out in full, and the qualified names of classes. -/
theorem renameUnit_touches_nothing_else (settings : Settings) {unit : List Node}
    (hu : WellFormed unit) :
    (∀ {γ : Type} (supply : Names.Supply γ) (s : Session γ) (report : Report), s.log.Quiet →
      (renameWith supply settings unit s).reply = .ok report →
      Forall₂ (Node.Framed (Touched settings.ignore
        (renameWith supply settings unit s).session.classes) {} false) unit report.nodes) ∧
    ∀ (s : Session Unit) (report : Report), s.log.Quiet →
      (renameUnit settings unit s).reply = .ok report →
      Forall₂ (Node.Framed (Touched settings.ignore
        (renameUnit settings unit s).session.classes) {} false) unit report.nodes := by
  constructor
  · intro γ supply s report hs h
    exact framed_renameWith hu hs h
  · intro s report hs h
    unfold renameUnit at h ⊢
    split at h
    · cases h
    · cases h
    · rename_i source hcheck hsource
      exact framed_renameWith hu (s := s.withOwn source) hs h

section Sample

def numberedNames : Names.Supply Nat := fun _ _ k =>
  { memory := k + 1, name := .ok (.number k) }

theorem renameUnit_touches_nothing_else_sample :
    let settings : Settings := { ignore := [.text "y"] }
    WellFormed sampleUnit ∧ Log.Quiet {} ∧
    (∃ report, (renameWith numberedNames settings sampleUnit (sampleSession.withOwn 0)).reply =
        .ok report ∧ report.mapping = [(.plain (.text "x"), .number 1)] ∧
      Forall₂ (Node.Framed (Touched settings.ignore (renameWith numberedNames settings sampleUnit
        (sampleSession.withOwn 0)).session.classes) {} false) sampleUnit report.nodes) ∧
    ∃ report, (renameUnit settings sampleUnit sampleSession).reply = .ok report ∧
      Forall₂ (Node.Framed (Touched settings.ignore
        (renameUnit settings sampleUnit sampleSession).session.classes) {} false) sampleUnit
          report.nodes := by
  intro settings
  have hquiet : Log.Quiet {} := by decide
  obtain ⟨hwith, hunit⟩ := renameUnit_touches_nothing_else settings wellFormed_sampleUnit
  have hmapping : (renameWith numberedNames settings sampleUnit
      (sampleSession.withOwn 0)).reply.map Report.mapping =
        .ok [(.plain (.text "x"), .number 1)] := by
    decide +kernel
  have hproper : Names.Proper settings := ⟨⟨.alphabetic, by decide⟩, "", rfl⟩
  refine ⟨wellFormed_sampleUnit, hquiet, ?_, ?_⟩
  · cases hreply : (renameWith numberedNames settings sampleUnit
        (sampleSession.withOwn 0)).reply with
    | error e => simp [hreply, Except.map] at hmapping
    | ok report =>
      rw [hreply] at hmapping
      exact ⟨report, rfl, Except.ok.inj hmapping, hwith _ _ _ hquiet hreply⟩
  · rcases exists_completed hproper wellFormed_sampleUnit (s := sampleSession) hquiet nofun with
      ⟨report, s', p, d, h⟩ | ⟨hhashed, -⟩
    · exact ⟨report, h.reply, hunit _ _ hquiet h.reply⟩
    · exact absurd hhashed (by decide)

end Sample

end PropertyRenaming
