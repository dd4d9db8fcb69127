import PropertyRenaming.Proofs.Fetches
import PropertyRenaming.Proofs.LogLevels
import PropertyRenaming.Proofs.Serving

namespace PropertyRenaming

namespace Declarations

def isPrivateDecl (n : Node) : Bool :=
  n.kind == .propertyDecl && (isPrivate n).toOption == some true

/-- A private declaration inside a class, with that class. -/
def ownDeclaration? (enclosing : Option ClassId) (n : Node) : Option (Node × ClassId) :=
  if isPrivateDecl n then enclosing.map (n, ·) else none

mutual

def nodeDeclarations (enclosing : Option ClassId) : Node → List (Node × ClassId)
  | ⟨kind, place, fields⟩ =>
    (ownDeclaration? enclosing ⟨kind, place, fields⟩).toList ++
      fieldDeclarations (inside enclosing kind) fields

def valueDeclarations (enclosing : Option ClassId) : Value → List (Node × ClassId)
  | .node n => nodeDeclarations enclosing n
  | .list vs => if vs.all Value.isNode then fieldDeclarations enclosing vs else []
  | _ => []

def fieldDeclarations (enclosing : Option ClassId) : List Value → List (Node × ClassId)
  | [] => []
  | v :: vs => valueDeclarations enclosing v ++ fieldDeclarations enclosing vs

end

/-- All private declarations inside classes, each with the class that the scan has for it. -/
def privateDeclarations (unit : List Node) : List (Node × ClassId) :=
  unit.flatMap (nodeDeclarations none)

def requestsOf (d : Node × ClassId) : List Request :=
  (itemNames (d.1.get .props)).map (Request.ofName d.2)

/-- What the scan relies on: nodes that stand in one place each, and declarations with flags. -/
structure Scannable (n : Node) : Prop where
  unshared : n.place.share = none
  flags : n.kind = .propertyDecl → ∃ b, isPrivate n = .ok b

theorem scannable_of_wellFormed {n : Node} (hn : n.WellFormed) : Scannable n where
  unshared := hn.unshared
  flags hk := by
    obtain ⟨flags, items, hf, -⟩ := fields_decl hn hk
    exact ⟨_, isPrivate_decl hk hf⟩

theorem ownRequests_eq {n : Node} (hn : Scannable n) (enclosing : Option ClassId) :
    ownRequests enclosing n = (ownDeclaration? enclosing n).toList.flatMap requestsOf := by
  unfold ownRequests ownDeclaration? isPrivateDecl
  by_cases hk : n.kind = .propertyDecl
  · obtain ⟨b, hb⟩ := hn.flags hk
    rw [hb]
    cases b <;> cases enclosing <;> simp [hk, Except.toOption, requestsOf]
  · simp [hk]

mutual

theorem nodeRequests_eq (enclosing : Option ClassId) : (n : Node) →
    (∀ m ∈ n.preorder, Scannable m) →
    nodeRequests enclosing n = (nodeDeclarations enclosing n).flatMap requestsOf
  | ⟨kind, place, fields⟩, hn => by
    have hself : Scannable ⟨kind, place, fields⟩ := hn _ (by simp [Node.preorder])
    have hshare : place.share = none := hself.unshared
    rw [nodeRequests, nodeDeclarations, List.flatMap_append, hshare, sharedRequests,
      ← ownRequests_eq hself, fieldRequests_eq (inside enclosing kind) fields fun m hm =>
        hn m (by simp [Node.preorder, hm])]

theorem valueRequests_eq (enclosing : Option ClassId) : (v : Value) →
    (∀ m ∈ v.preorder, Scannable m) →
    valueRequests enclosing v = (valueDeclarations enclosing v).flatMap requestsOf
  | .node n, hv => by
    rw [Value.preorder] at hv
    rw [valueRequests, valueDeclarations, nodeRequests_eq enclosing n hv]
  | .list vs, hv => by
    rw [Value.preorder] at hv
    rw [valueRequests, valueDeclarations]
    split
    · rename_i hall
      rw [if_pos hall] at hv
      exact fieldRequests_eq enclosing vs hv
    · rfl
  | .atom _, _ | .object, _ => by simp [valueRequests, valueDeclarations]

theorem fieldRequests_eq (enclosing : Option ClassId) : (vs : List Value) →
    (∀ m ∈ Value.preorderAll vs, Scannable m) →
    fieldRequests enclosing vs = (fieldDeclarations enclosing vs).flatMap requestsOf
  | [], _ => rfl
  | v :: vs, hvs => by
    rw [Value.preorderAll] at hvs
    rw [fieldRequests, fieldDeclarations, List.flatMap_append,
      valueRequests_eq enclosing v fun m hm => hvs m (List.mem_append_left _ hm),
      fieldRequests_eq enclosing vs fun m hm => hvs m (List.mem_append_right _ hm)]

end

/-- The scan asks for the items of the private declarations, one declaration after another. -/
theorem requests_of_scannable {unit : List Node} (hu : ∀ n ∈ preorder unit, Scannable n) :
    requests unit = (privateDeclarations unit).flatMap requestsOf := by
  rw [requests, privateDeclarations, List.flatMap_assoc]
  refine List.flatMap_congr fun n hn => ?_
  exact nodeRequests_eq none n fun m hm => hu m (List.mem_flatMap.mpr ⟨n, hn, hm⟩)

theorem requests_eq {unit : List Node} (hu : WellFormed unit) :
    requests unit = (privateDeclarations unit).flatMap requestsOf :=
  requests_of_scannable fun n hn => scannable_of_wellFormed (hu n hn)

def declarationAt? (x : Site) : Option (Node × ClassId) := ownDeclaration? x.spot.owner x.node

mutual

theorem nodeDeclarations_eq (spot : Spot) : (n : Node) →
    nodeDeclarations spot.owner n = (n.sites spot).filterMap declarationAt?
  | ⟨kind, place, fields⟩ => by
    have hbelow := fieldDeclarations_eq (spot.under ⟨kind, place, fields⟩) fields
    have howner : (spot.under ⟨kind, place, fields⟩).owner = inside spot.owner kind := rfl
    rw [howner] at hbelow
    rw [nodeDeclarations, Node.sites, List.filterMap_cons, hbelow, declarationAt?]
    cases ownDeclaration? spot.owner ⟨kind, place, fields⟩ <;> rfl

theorem valueDeclarations_eq (spot : Spot) : (v : Value) →
    valueDeclarations spot.owner v = (v.sites spot).filterMap declarationAt?
  | .node n => by rw [valueDeclarations, Value.sites, nodeDeclarations_eq spot n]
  | .list vs => by
    rw [valueDeclarations, Value.sites]
    split
    · exact fieldDeclarations_eq spot vs
    · rfl
  | .atom _ | .object => by simp [valueDeclarations, Value.sites]

theorem fieldDeclarations_eq (spot : Spot) : (vs : List Value) →
    fieldDeclarations spot.owner vs = (Value.sitesAll spot vs).filterMap declarationAt?
  | [] => rfl
  | v :: vs => by
    rw [fieldDeclarations, Value.sitesAll, List.filterMap_append, valueDeclarations_eq spot v,
      fieldDeclarations_eq spot vs]

end

/-- The class that the scan passes down is the innermost one around a declaration. -/
theorem privateDeclarations_eq_sites (unit : List Node) :
    privateDeclarations unit = (sites unit).filterMap declarationAt? := by
  rw [privateDeclarations, sites, List.filterMap_flatMap]
  exact List.flatMap_congr fun n _ => nodeDeclarations_eq {} n

/-- A private declaration with the class that its place says it is in. -/
def placedDeclaration? (n : Node) : Option (Node × ClassId) := ownDeclaration? n.place.enclosing n

/-- Where all places are right, the scan and the places agree. -/
theorem privateDeclarations_eq_preorder {unit : List Node}
    (h : ∀ x ∈ sites unit, x.node.place.enclosing = x.spot.owner) :
    privateDeclarations unit = (preorder unit).filterMap placedDeclaration? := by
  rw [privateDeclarations_eq_sites, ← map_node_sites, List.filterMap_map]
  refine List.filterMap_congr fun x hx => ?_
  rw [declarationAt?, Function.comp_apply, placedDeclaration?, h x hx]

end Declarations

theorem enclosing_resolution {γ : Type} {unit : List Node} (hu : WellFormed unit) (s : Session γ) :
    ∀ x ∈ sites (resolution unit s).1, x.node.place.enclosing = x.spot.owner := by
  intro y hy
  obtain ⟨x, -, hxy⟩ := mem_of_forall₂_right (resolved_sites hu s) hy
  rw [hxy.enclosing, hxy.spot]

namespace Renamer

variable {γ : Type} {supply : Names.Supply γ} {unit : List Node}

/-- The sessions in which the nodes of a unit are visited. -/
inductive Walking (t : Session (Renamer γ)) : Session (Renamer γ) → Prop
  | start : Walking t t
  | shares {u : Session (Renamer γ)} (shares : Shares) : Walking t u → Walking t { u with shares }
  | enter {u : Session (Renamer γ)} (n : Node) : Walking t u → Walking t (enter n u).session

theorem Walking.stays {t u : Session (Renamer γ)} (h : Walking t u) :
    u.own.map = t.own.map ∧ u.classes = t.classes := by
  induction h with
  | start => exact ⟨rfl, rfl⟩
  | shares _ _ ih => exact ih
  | @enter u n _ ih =>
    have hkeeps := keeps_enter n u
    exact ⟨hkeeps.map.trans ih.1, hkeeps.classes.trans ih.2⟩

/-- What the scan leaves: all items asked for that are not ignored have their entries. -/
theorem before_known {t : Session (Renamer γ)} {reply : Reply}
    (h : (before supply unit t).reply = .ok reply) :
    (before supply unit t).session.classes = t.classes ∧
      (before supply unit t).session.own.map.perClass = t.own.map.perClass ∧
      ∀ owner name, Request.item owner name none ∈ Declarations.requests unit →
        name.isIn t.own.ignore = false →
        ((before supply unit t).session.own.map.get?
          (propertyKey t.own.map.perClass t.classes.scope owner name)).isSome = true := by
  cases hreserved : reservedNames unit with
  | error e => simp [before, hreserved, Session.fail] at h
  | ok reserved =>
    rw [before_ok hreserved] at h ⊢
    obtain ⟨terms, hterms⟩ : ∃ terms : Declarations.Terms γ, terms =
        { supply, reserved, ignore := t.own.ignore, scope := t.classes.scope } := ⟨_, rfl⟩
    obtain ⟨d, hd⟩ : ∃ d : Declarations.Drawing γ, d =
        { memory := t.own.memory, map := t.own.map.clear, log := t.log } := ⟨_, rfl⟩
    rw [← hterms, ← hd] at h ⊢
    have hgrows := terms.serveAll_grows (Declarations.requests unit) d
    unfold drawn at h ⊢
    cases hfault : (terms.serveAll (Declarations.requests unit) d).2.2 with
    | some e => simp [hfault, Session.fail] at h
    | none =>
      refine ⟨rfl, hgrows.perClass.trans (by rw [hd]; rfl), fun owner name hq hignore => ?_⟩
      have hentry := terms.serveAll_known hfault hq (by rw [hterms]; exact hignore)
      have hper : d.map.perClass = t.own.map.perClass := by rw [hd]; rfl
      have hscope : terms.scope = t.classes.scope := by rw [hterms]
      rwa [hper, hscope] at hentry

theorem key_of_walking {nodes : List Node} (hu : WellFormed nodes) {t u : Session (Renamer γ)}
    {reply : Reply} (hper : t.own.map.perClass = true)
    (h : (before supply nodes t).reply = .ok reply)
    (hwalk : Walking (before supply nodes t).session u) {d : Node × ClassId}
    (hd : d ∈ Declarations.privateDeclarations nodes) {name : Atom}
    (hname : .ok name ∈ Declarations.itemNames (d.1.get .props))
    (hignore : name.isIn t.own.ignore = false) {n : Node} (hn : n.place.enclosing = some d.2) :
    u.own.map.key name (scopeOf n u) = .ok (.joined (t.classes.scope d.2) name) ∧
      (u.own.map.get? (.joined (t.classes.scope d.2) name)).isSome = true := by
  obtain ⟨hclasses, hper', hknown⟩ := before_known h
  obtain ⟨hmap, hclasses'⟩ := hwalk.stays
  have hasked : Request.item d.2 name none ∈ Declarations.requests nodes := by
    rw [Declarations.requests_eq hu]
    exact List.mem_flatMap.mpr ⟨d, hd, List.mem_map.mpr ⟨.ok name, hname, rfl⟩⟩
  have hentry := hknown d.2 name hasked hignore
  constructor
  · rw [key_eq hn, hmap, hper', hper, hclasses', hclasses]
    rfl
  · rw [hmap]
    rwa [hper] at hentry

end Renamer

theorem eq_resolution_of_reply {limit : Nat} {unit : List Node} (hu : WellFormed unit)
    (hd : depth unit ≤ limit) {s : Session Context} {nodes : List Node}
    (h : (traverse limit [Context.visitor] unit s).reply = .ok nodes) :
    ∃ t : Session Context, nodes = (resolution unit t).1 := by
  have hheeds : ∀ v ∈ [Context.visitor], v.Heeds := by simpa using Context.heeds_visitor
  have hlevel : (traverse limit [Context.visitor] unit (s.atLevel s.log.threshold)).reply =
      .ok nodes := h
  have hsilent := (stoppable_traverse hheeds limit unit s).reply_silent hlevel
  have hquiet : (s.atLevel silentLevel).log.Quiet := show Level.info.rank < silentLevel by decide
  rw [traverse_visitor_eq hu hd hquiet] at hsilent
  exact ⟨s.atLevel silentLevel, (Except.ok.inj hsilent).symm⟩

/-- Names of private declarations are looked up under the scope under which they were noted, by all
fetches that have the same innermost class. -/
def ScopesAgree (nodes : List Node) : Prop :=
  ∀ (γ : Type) (supply : Names.Supply γ) (t u : Session (Renamer γ)) (reply : Reply),
    t.own.map.perClass = true → (Renamer.before supply nodes t).reply = .ok reply →
    Renamer.Walking (Renamer.before supply nodes t).session u →
    ∀ d ∈ Declarations.privateDeclarations nodes, ∀ name,
      .ok name ∈ Declarations.itemNames (d.1.get .props) → name.isIn t.own.ignore = false →
      ∀ n : Node, n.place.enclosing = some d.2 →
        u.own.map.key name (Renamer.scopeOf n u) = .ok (.joined (t.classes.scope d.2) name) ∧
          (u.own.map.get? (.joined (t.classes.scope d.2) name)).isSome = true

/-- The scan and the class context agree on the class of every private declaration. -/
theorem scan_agrees_with_context {unit : List Node} (hu : WellFormed unit) {limit : Nat}
    (hd : depth unit ≤ limit) (s : Session Context) :
    let o := traverse limit [Context.visitor] unit s
    (s.log.Quiet → ∃ nodes, o.reply = .ok nodes) ∧
      ∀ nodes, o.reply = .ok nodes →
        Declarations.privateDeclarations nodes =
            (preorder nodes).filterMap Declarations.placedDeclaration? ∧
          Declarations.requests nodes =
            (Declarations.privateDeclarations nodes).flatMap Declarations.requestsOf ∧
          ScopesAgree nodes := by
  intro o
  constructor
  · intro hs
    exact ⟨_, congrArg Outcome.reply (traverse_visitor_eq hu hd hs)⟩
  · intro nodes hnodes
    obtain ⟨t, rfl⟩ := eq_resolution_of_reply hu hd hnodes
    have hwf := wellFormed_resolution hu t
    refine ⟨Declarations.privateDeclarations_eq_preorder (enclosing_resolution hu t),
      Declarations.requests_eq hwf, ?_⟩
    intro γ supply t u reply hper hbefore hwalk d hd name hname hignore n hn
    exact Renamer.key_of_walking hwf hper hbefore hwalk hd hname hignore hn

def nestedUnit : List Node :=
  [⟨.classDecl 0, {}, [.str "Outer",
    .list [.node ⟨.propertyDecl, {}, [.int 4, .list [.node ⟨.propertyItem, {}, [.str "x",
        .node ⟨.instantiate, {}, [.node ⟨.classDecl 1, {}, [.null,
          .list [.node ⟨.propertyDecl, {}, [.int 4, .list [sampleItem "x"]]⟩,
            sampleFetch "this" "x"], .null, .null]⟩, .list []]⟩]⟩]]⟩,
      sampleFetch "this" "x"], .null, .null]⟩]

theorem scan_agrees_with_context_nested :
    WellFormed nestedUnit ∧ depth nestedUnit ≤ 9 ∧
      ∃ nodes, (traverse 9 [Context.visitor] nestedUnit (sampleSession.withOwn {})).reply =
          .ok nodes ∧
        (Declarations.privateDeclarations nodes).map Prod.snd = [0, 1] ∧
        Declarations.privateDeclarations nodes =
          (preorder nodes).filterMap Declarations.placedDeclaration? ∧ ScopesAgree nodes := by
  have hu : WellFormed nestedUnit := by decide
  have hd : depth nestedUnit ≤ 9 := by decide
  obtain ⟨hok, hagrees⟩ := scan_agrees_with_context hu hd (sampleSession.withOwn {})
  obtain ⟨nodes, hnodes⟩ := hok (by decide)
  obtain ⟨hplaced, -, hscopes⟩ := hagrees nodes hnodes
  have howners : ((traverse 9 [Context.visitor] nestedUnit (sampleSession.withOwn {})).reply.map
      fun nodes => (Declarations.privateDeclarations nodes).map Prod.snd) = .ok [0, 1] := by
    decide +kernel
  rw [hnodes] at howners
  exact ⟨hu, hd, nodes, hnodes, Except.ok.inj howners, hplaced, hscopes⟩

end PropertyRenaming
