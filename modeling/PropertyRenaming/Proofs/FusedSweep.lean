import PropertyRenaming.Proofs.ClassNames
import PropertyRenaming.Proofs.Rescan

namespace PropertyRenaming

open List (Forall₂)
open Context (Calm)

section Views

theorem fetchRewriting_eq_none {m : RenameMap} {t : ClassTable} {x : Site}
    (h : x.node.kind.isFetch = false) : fetchRewriting m t x = none := by
  rw [fetchRewriting, Node.localFetch?_eq_none fun _ _ => by simp [h]]
  rfl

/-- Nodes that are the same to a visitor of fetches. -/
structure SameFetch (n m : Node) : Prop where
  kind : m.kind = n.kind
  enclosing : m.place.enclosing = n.place.enclosing
  name : (m.get .name).str? = (n.get .name).str?
  object : (m.get .object).isThis = (n.get .object).isThis
  cls : (m.get .cls).tokenText? = (n.get .cls).tokenText?

namespace SameFetch

variable {n m : Node} {t u : ClassTable}
  (ht : ∀ id, n.place.enclosing = some id → u.name id = t.name id)

include ht

theorem finds (h : SameFetch n m) : u.finds m = t.finds n := by
  unfold ClassTable.finds
  rw [h.enclosing, h.kind, h.object, h.cls]
  cases he : n.place.enclosing with
  | none => rfl
  | some id =>
    cases n.kind with
    | staticFetch => simp only [ht id he]
    | _ => rfl

theorem localFetch? (h : SameFetch n m) : m.localFetch? u = n.localFetch? t := by
  unfold Node.localFetch?
  rw [h.name, h.enclosing, h.kind, h.finds ht]

theorem fetchRewriting (h : SameFetch n m) (map : RenameMap) (spot : Spot) :
    fetchRewriting map u ⟨spot, m⟩ = fetchRewriting map t ⟨spot, n⟩ := by
  unfold PropertyRenaming.fetchRewriting
  rw [h.localFetch? ht]
  cases hlocal : n.localFetch? t with
  | none => rfl
  | some e =>
    obtain ⟨id, name⟩ := e
    obtain ⟨-, he, -, -⟩ := Node.localFetch?_eq_some_iff.mp hlocal
    simp only [Option.bind_some, propertyKey, ClassTable.scope, ht id he]

end SameFetch

namespace Renamer

variable {γ : Type} {n : Node} {s : Session (Renamer γ)}

/-- The counts after a node has been reached: a fetch is renamed, or skipped, or it is local but
means no property that has been renamed. -/
def tallied (r : Renamer γ) (n : Node) (t : ClassTable) : Renamer γ :=
  if n.kind.isFetch then
    match n.localFetch? t, fetchRewriting r.map t ⟨{}, n⟩ with
    | none, _ => { r with skipped := r.skipped + 1 }
    | some _, none => r
    | some _, some _ => { r with fetches := r.fetches + 1 }
  else r

theorem own_skip (s : Session (Renamer γ)) (n : Node) (r : Record) :
    ((skip s).note r n fun s => s.done n Reply.keep).session.own =
      { s.own with skipped := s.own.skipped + 1 } := by
  unfold Session.note
  split <;> rfl

theorem own_enter (hn : n.Legible) : (enter n s).session.own = s.own.tallied n s.classes := by
  have hentered := entered (s := s) hn
  unfold tallied
  generalize enter n s = o at hentered ⊢
  cases hentered with
  | passed hk => simp [hk, Session.done]
  | dynamic hk hname =>
    have hnone : n.localFetch? s.classes = none :=
      Node.localFetch?_eq_none fun name h => by simp [h, Value.str?] at hname
    rw [if_pos hk, hnone]
    exact own_skip s n dynamicFetch
  | @foreign name hk hname hfinds =>
    have hnone : n.localFetch? s.classes = none :=
      Node.localFetch?_eq_none fun _ _ => by simp [hfinds]
    rw [if_pos hk, hnone]
    exact own_skip s n (foreignFetch name)
  | unlisted hlocal hnew =>
    obtain ⟨-, -, hk, -⟩ := Node.localFetch?_eq_some_iff.mp hlocal
    rw [if_pos hk, hlocal, hnew]
    rfl
  | renamed hlocal hnew =>
    obtain ⟨-, -, hk, -⟩ := Node.localFetch?_eq_some_iff.mp hlocal
    rw [if_pos hk, hlocal, hnew]
    rfl

theorem tallied_of_sameFetch {m : Node} {t u : ClassTable} (h : SameFetch n m)
    (ht : ∀ id, n.place.enclosing = some id → u.name id = t.name id) (r : Renamer γ) :
    r.tallied m u = r.tallied n t := by
  unfold tallied
  rw [h.kind, h.localFetch? ht, h.fetchRewriting ht]

theorem patches_of_sameFetch {m : Node} {t : Session (Renamer γ)} (h : SameFetch n m)
    (ht : ∀ id, n.place.enclosing = some id → t.classes.name id = s.classes.name id)
    (hmap : t.own.map = s.own.map) : sweep.patches m t = sweep.patches n s := by
  simp only [sweep, hmap, h.fetchRewriting ht]

theorem passesTokens : (sweep : Sweep (Renamer γ)).PassesTokens := by
  refine ⟨fun place _ => place, fun token ht hk s => ?_⟩
  obtain ⟨name, hf⟩ := Context.fields_token ht hk
  have hnone : fetchRewriting s.own.map s.classes ⟨{}, token⟩ = none :=
    fetchRewriting_eq_none (by simp [hk, Kind.isFetch])
  have hopened : sweep.opened token s = s := by
    simp [sweep, enter, hk, Kind.isFetch, Session.done]
  rw [Node.sweep_eq, hopened, hf, dressed_eq, hnone]
  simp [Value.sweepAll, sweep, Node.named]

end Renamer

end Views

namespace Context

variable {n : Node}

theorem tokenText?_settle (c : Context) {v : Value}
    (hv : ∀ token, v.token? = some token → token.WellFormed) :
    (c.settle v).tokenText? = v.tokenText?.map (ClassName.resolve c.ns c.imports) := by
  cases htoken : v.token? with
  | none => rw [settle_of_token?_eq_none c htoken, Value.tokenText?, htoken]; rfl
  | some token =>
    have ht := hv token htoken
    obtain ⟨rfl, hk⟩ := Value.token?_eq_some_iff.mp htoken
    obtain ⟨place, name, rfl⟩ := exists_token ht hk
    rfl

/-- To a visitor of fetches a node is the same whether or not what is below it has been swept. -/
theorem sameFetch_dressed (hn : n.Sound) (s t : Session Context) :
    SameFetch (sweep.dressed n s n.fields)
      (sweep.dressed n s (Value.sweepAll sweep t n.fields).1) := by
  have hkept : ∀ {f : Field}, (f ≠ .qualifiedName ∧ f ≠ .parent ∧ f ≠ .type ∧ f ≠ .cls) →
      (sweep.dressed n s n.fields).get f = n.get f := by
    intro f hf
    refine get_kept hf.1 (fun href => ?_) s n.fields
    rcases Kind.reference?_cases href with h | h | h <;> tauto
  refine ⟨by rw [Sweep.kind_dressed, Sweep.kind_dressed],
    by rw [Sweep.place_dressed, Sweep.place_dressed], ?_, ?_, ?_⟩
  · obtain ⟨u, hu⟩ := get_dressed (f := .name) (by decide) n s t
    rw [hu, hkept (by decide), Value.str?_sweep]
  · obtain ⟨u, hu⟩ := get_dressed (f := .object) (by decide) n s t
    rw [hu, hkept (by decide), isThis_sweep]
  · by_cases hf : n.kind.reference? = some .cls
    · rw [tokenText?_reference hn hf, get_reference hn.wellFormed.filled hf s rfl]
      exact (tokenText?_settle s.own (v := n.get .cls) fun token ht => hn.token hf ht).symm
    · have hmem : Field.cls ∉ n.kind.fields := by
        cases hk : n.kind <;> simp_all [Kind.reference?, Kind.fields]
      rw [Node.get_of_not_mem (by rwa [Sweep.kind_dressed]),
        Node.get_of_not_mem (by rwa [Sweep.kind_dressed])]

theorem legible_dressed (hn : n.Sound) (s : Session Context) :
    (sweep.dressed n s n.fields).Legible where
  filled := (hn.wellFormed.filled.refill _ rfl).patched _
  unshared := by
    rw [Sweep.place_dressed]
    exact hn.wellFormed.unshared
  token {token} hk ht := by
    rw [Sweep.kind_dressed] at hk
    have hf : n.kind.reference? = some .cls := by rw [hk]; rfl
    rw [get_reference hn.wellFormed.filled hf s rfl] at ht
    change (s.own.settle (n.get .cls)).token? = some token at ht
    cases htoken : (n.get .cls).token? with
    | none => simp [settle_of_token?_eq_none s.own htoken, htoken] at ht
    | some token' =>
      have hk' := (Value.token?_eq_some_iff.mp htoken).2
      rw [settle_token s.own htoken] at ht
      obtain ⟨heq, hkt⟩ := Value.token?_eq_some_iff.mp ht
      obtain rfl := Value.node.inj heq
      exact (wellFormed_settled (hn.token hf htoken) hk' s.own).token_text hkt

theorem legible_swept (hn : n.Sound) (s t : Session Context) :
    (sweep.dressed n s (Value.sweepAll sweep t n.fields).1).Legible := by
  have h := legible_dressed (sound_swept hn s t) s
  have hpatches : sweep.patches ⟨n.kind, sweep.place n s, (Value.sweepAll sweep t n.fields).1⟩ s =
      sweep.patches n s := by
    change s.own.namePatches _ ++ _ = s.own.namePatches n ++ _
    rw [namePatches, naming?_swept hn.wellFormed, namePatches]
  rwa [Sweep.dressed, hpatches] at h

theorem getElem?_named_of_ne (hn : n.WellFormed) {id : ClassId} (hk : n.kind ≠ .classDecl id)
    (c : Context) (table : ClassTable) :
    (c.named n table).names[id]? = table.names[id]? := by
  unfold named
  cases hnaming : c.naming? n with
  | none => rfl
  | some e =>
    obtain ⟨id', full⟩ := e
    obtain ⟨hk', -⟩ := naming?_text hn hnaming
    have hne : id' ≠ id := by
      rintro rfl
      exact hk hk'
    simp [ClassTable.setName, List.getElem?_set_ne hne]

theorem knows_below {table : ClassTable} (hn : n.Sound) (s t : Session Context)
    (h : table.Knows (Value.preorderAll
      (sweep.dressed n s (Value.sweepAll sweep t n.fields).1).fields)) :
    table.Knows (Value.preorderAll (Value.sweepAll sweep t n.fields).1) := by
  have hsame : Forall₂ (fun m m' : Node => ∀ id, m.kind = .classDecl id → m' = m)
      (Value.preorderAll (Value.sweepAll sweep t n.fields).1)
      (Value.preorderAll (sweep.dressed n s (Value.sweepAll sweep t n.fields).1).fields) := by
    rw [Value.preorderAll_eq_flatMap, Value.preorderAll_eq_flatMap]
    refine forall₂_dressed (fun _ _ _ => rfl) (fun _ => by simp [Value.preorder]) ?_ hn t
    intro token ht hk
    have hk' : (token.modify .value s.own.inFull).kind = .className := by
      rw [Node.modify, Node.kind_set, hk]
    rw [Value.preorder, Value.preorder, preorder_token ht hk,
      preorder_token (wellFormed_settled ht hk s.own) hk']
    exact .cons (fun id hid => by simp [hk] at hid) .nil
  intro m hm id hk
  obtain ⟨m', hm', heq⟩ := mem_of_forall₂_right hsame.flip hm
  obtain rfl := heq id hk
  exact h m' hm' id hk

end Context

section Both

variable {γ : Type}

def Session.left {α β : Type} (u : Session (α × β)) : Session α := u.withOwn u.own.1

def Session.right {α β : Type} (u : Session (α × β)) : Session β := u.withOwn u.own.2

/-- The visitor for the class context, with a renamer at its side. -/
def contextVisitor : Visitor (Context × Renamer γ) :=
  Context.visitor.focus Prod.fst fun c p => (c, p.2)

/-- The renamer, with a visitor for the class context at its side. -/
def renamerVisitor (supply : Names.Supply γ) : Visitor (Context × Renamer γ) :=
  (Renamer.visitor supply).focus Prod.snd fun r p => (p.1, r)

/-- The session in which the renamer reaches a node: the context is worked out already. -/
def contextFirst (n : Node) (u : Session (Context × Renamer γ)) : Session (Renamer γ) :=
  (Context.sweep.opened n u.left).withOwn u.own.2

/-- What the two visitors do to a node, one after the other. -/
def bothSweep : Sweep (Context × Renamer γ) where
  opened n u :=
    let s := Context.sweep.opened n u.left
    let t := (Renamer.enter (Context.sweep.dressed n u.left n.fields) (contextFirst n u)).session
    t.withOwn (s.own, t.own)
  place n u := Context.sweep.place n u.left
  patches n u := Context.sweep.patches n u.left ++
    Renamer.sweep.patches (Context.sweep.dressed n u.left n.fields) (contextFirst n u)
  closed n u :=
    let s := Context.sweep.closed n u.left
    s.withOwn (s.own, u.own.2)

namespace Both

variable {n : Node} {u : Session (Context × Renamer γ)}

theorem keeps_opened (n : Node) (u : Session (Context × Renamer γ)) :
    Renamer.Keeps (contextFirst n u) (bothSweep.opened n u).right :=
  Renamer.keeps_enter _ _

theorem classes_closed (n : Node) (u : Session (Context × Renamer γ)) :
    (bothSweep.closed n u).classes = u.classes := by
  simp only [bothSweep, Context.sweep]
  cases n.kind <;> rfl

theorem follows : (bothSweep : Sweep (Context × Renamer γ)).Follows Session.left where
  opened n u := by
    obtain ⟨hown, hclasses⟩ := follows_opened n u.left
    exact ⟨hown, (keeps_opened n u).classes.trans hclasses⟩
  closed n u := follows_closed n u.left

theorem dressed_eq (n : Node) (u : Session (Context × Renamer γ)) (fields : List Value) :
    bothSweep.dressed n u fields = (Context.sweep.dressed n u.left fields).named
      (fetchRewriting u.own.2.map (Context.sweep.opened n u.left).classes
        ⟨{}, Context.sweep.dressed n u.left n.fields⟩) := by
  rw [Sweep.dressed, bothSweep, Node.patched_append]
  simp only [Renamer.sweep, contextFirst, Session.withOwn]
  cases fetchRewriting u.own.2.map (Context.sweep.opened n u.left).classes
    ⟨{}, Context.sweep.dressed n u.left n.fields⟩ <;> rfl

theorem passesTokens : (bothSweep : Sweep (Context × Renamer γ)).PassesTokens := by
  refine ⟨fun place u => { place with enclosing := u.own.1.classes.head?, ns := u.own.1.ns },
    fun token ht hk u => ?_⟩
  obtain ⟨name, hf⟩ := Context.fields_token ht hk
  have hnone : ∀ map t fields,
      fetchRewriting map t ⟨{}, Context.sweep.dressed token u.left fields⟩ = none :=
    fun map t fields => fetchRewriting_eq_none (by simp [hk, Kind.isFetch])
  have hopened : bothSweep.opened token u = u := by
    simp [bothSweep, contextFirst, Renamer.enter, hk, Kind.isFetch, Context.sweep, Context.noted,
      Context.named, Context.naming?, Context.openScope, Kind.reference?, Except.toOption,
      Session.left, Session.withOwn, Session.done]
  rw [Node.sweep_eq, hopened, hf, dressed_eq, hnone, Context.dressed_plain (by rw [hk]; rfl)]
  simp [Value.sweepAll, Node.named, bothSweep, Context.sweep, hk, Session.left, Session.withOwn]

theorem contextVisitor_enter (hn : n.Sound) (hu : Calm u) :
    contextVisitor.enter n u = ⟨Context.sweep.dressed n u.left n.fields,
      (contextFirst n u).withOwn ((Context.sweep.opened n u.left).own, u.own.2), .ok .keep⟩ := by
  change (⟨(Context.enter n u.left).subject, (Context.enter n u.left).session.withOwn
    ((Context.enter n u.left).session.own, u.own.2), (Context.enter n u.left).reply⟩ :
      Outcome _ _ _) = _
  rw [Context.enter_eq (s := u.left) hu.2 hn]
  rfl

theorem renamerVisitor_enter (supply : Names.Supply γ) (hn : n.Sound) (hu : Calm u) :
    ∃ r, (r = .keep ∨ r = .same) ∧
      (renamerVisitor supply).enter (Context.sweep.dressed n u.left n.fields)
        ((contextFirst n u).withOwn ((Context.sweep.opened n u.left).own, u.own.2)) =
          ⟨bothSweep.dressed n u n.fields, bothSweep.opened n u, .ok r⟩ := by
  have hquiet : (contextFirst n u).log.Quiet :=
    (Context.describes.ok_opened (s := u.left) hn hu).2
  obtain ⟨r, hr, he⟩ := Renamer.enter_eq (s := contextFirst n u) hquiet
    (Context.legible_dressed hn u.left)
  refine ⟨r, hr, ?_⟩
  change (⟨(Renamer.enter _ (contextFirst n u)).subject, bothSweep.opened n u,
    (Renamer.enter _ (contextFirst n u)).reply⟩ : Outcome _ _ _) = _
  rw [dressed_eq, he]
  rfl

theorem contextVisitor_leave {t : Session (Context × Renamer γ)} {fields : List Value}
    (h : Value.sweepAll bothSweep (bothSweep.opened n u) n.fields = (fields, t)) :
    contextVisitor.leave (bothSweep.dressed n u fields) t =
      ⟨bothSweep.dressed n u fields, bothSweep.closed n t, .ok .keep⟩ := by
  have hown : t.left.own =
      (Value.sweepAll Context.sweep (Context.sweep.opened n u.left) n.fields).2.own := by
    have hboth := (Value.follows_sweepAll follows (bothSweep.opened n u) n.fields).own
    rw [h] at hboth
    exact hboth.trans
      (Value.follows_sweepAll Context.follows (Context.sweep.opened n u.left) n.fields).own.symm
  have hclasses : t.left.own.classes = n.kind.classId?.toList ++ u.left.own.classes := by
    rw [hown, Context.classes_sweepAll, Context.classes_opened]
  have hleave := Context.leave_of_classes (n := n) (m := bothSweep.dressed n u fields)
    (Sweep.kind_dressed ..) hclasses
  change (⟨(Context.leave _ t.left).subject, (Context.leave _ t.left).session.withOwn
    ((Context.leave _ t.left).session.own, t.own.2), (Context.leave _ t.left).reply⟩ :
      Outcome _ _ _) = _
  rw [hleave]
  rfl

theorem describes (supply : Names.Supply γ) :
    (bothSweep : Sweep (Context × Renamer γ)).Describes [contextVisitor, renamerVisitor supply]
      Node.Sound Calm where
  settled hs := hs.1
  filled hn := hn.wellFormed.filled
  unshared hn := hn.wellFormed.unshared
  commutes {n u} hn :=
    (Context.commutes_patches passesTokens (Context.sound_at_place hn u.left) u.left.own).append
      (Renamer.commutes_patches bothSweep (Context.sweep.dressed n u.left n.fields)
        (contextFirst n u))
  good {n u} hn h := by
    rw [dressed_eq]
    exact fun m hm =>
      Context.describes.good (s := u.left) hn h m (Node.preorderAll_named hm)
  depth {n u} hn := by
    rw [dressed_eq]
    exact (Node.depthAll_named_le ..).trans (Context.describes.depth (s := u.left) hn)
  ok_opened {n u} hn hu :=
    Renamer.quiet_of_keeps (keeps_opened n u) (Context.describes.ok_opened (s := u.left) hn hu)
  ok_closed {n u} hn hu := Context.describes.ok_closed (s := u.left) hn hu
  enter {n u} hn hu := by
    have hcontext := contextVisitor_enter hn hu
    obtain ⟨r, hr, hrenamer⟩ := renamerVisitor_enter supply hn hu
    have hfirst := Context.sweep.keep_dressed (s := u.left) hn.wellFormed.unshared n.fields
      ((contextFirst n u).withOwn ((Context.sweep.opened n u.left).own, u.own.2))
    have hkeep := bothSweep.keep_dressed (s := u) hn.wellFormed.unshared n.fields
      (bothSweep.opened n u)
    rcases hr with rfl | rfl <;>
      simp only [callHooks, hcontext, hrenamer, Stand.accept, Session.done, hfirst, hkeep]
  leave {n u t fields} hn ht h := by
    have hcontext := contextVisitor_leave h
    have hrenamer : (renamerVisitor supply).leave (bothSweep.dressed n u fields)
        (bothSweep.closed n t) =
          ⟨bothSweep.dressed n u fields, bothSweep.closed n t, .ok .keep⟩ := rfl
    have hkeep := bothSweep.keep_dressed (s := u) hn.wellFormed.unshared fields
      (bothSweep.closed n t)
    simp only [callHooks, hcontext, hrenamer, Stand.accept, Session.done, hkeep]

end Both

/-- A fused sweep beside the two sweeps that it stands for. The table of the fused sweep has each
class as it was at first or as it is in the end, and as it is in the end if the class is open. -/
structure Abreast (early late : ClassTable) (u : Session (Context × Renamer γ))
    (s : Session Context) (t : Session (Renamer γ)) : Prop where
  context : u.own.1 = s.own
  renamer : u.own.2 = t.own
  table : t.classes = late
  between (id : ClassId) :
    u.classes.names[id]? = early.names[id]? ∨ u.classes.names[id]? = late.names[id]?
  settled {id : ClassId} : id ∈ s.own.classes → u.classes.names[id]? = late.names[id]?

namespace Abreast

variable {early late : ClassTable} {u : Session (Context × Renamer γ)} {s : Session Context}
  {t : Session (Renamer γ)} {n : Node}

theorem names_opened (h : Abreast early late u s t) (hn : n.Sound)
    (hearly : early.Knows [n]) (hlate : late.Knows [(n.sweep Context.sweep s).1])
    {id : ClassId} (hk : n.kind = .classDecl id) :
    (s.own.named n u.classes).names[id]? = late.names[id]? := by
  have hold := hearly n List.mem_cons_self id hk
  have hnew := hlate _ List.mem_cons_self id (by rw [Node.kind_sweep, hk])
  rw [Node.sweep_eq, Context.qualifiedName_dressed hn.wellFormed] at hnew
  unfold Context.named
  cases hnaming : s.own.naming? n with
  | none =>
    -- A class without a name keeps the qualified name that it had at first.
    rw [hnaming] at hnew
    rcases h.between id with hb | hb
    · rw [hb, hold, hnew]
      rfl
    · exact hb
  | some e =>
    obtain ⟨id', full⟩ := e
    obtain ⟨hk', -⟩ := Context.naming?_text hn.wellFormed hnaming
    obtain rfl := Kind.classDecl.inj (hk.symm.trans hk')
    have hlt : id < u.classes.names.length := by
      rcases h.between id with hb | hb
      · exact (List.getElem?_eq_some_iff.mp (hb.trans hold)).1
      · exact (List.getElem?_eq_some_iff.mp (hb.trans hnew)).1
    rw [hnew, hnaming]
    simp [ClassTable.setName, hlt]

theorem sameFetch (hn : n.Sound) (u : Session (Context × Renamer γ)) (hown : u.own.1 = s.own) :
    SameFetch (Context.sweep.dressed n u.left n.fields) (n.sweep Context.sweep s).1 := by
  rw [Context.dressed_congr (t := s) hown, Node.sweep_eq]
  exact Context.sameFetch_dressed hn s (Context.sweep.opened n s)

variable (h : Abreast early late u s t) (hn : n.Sound) (hearly : early.Knows [n])
  (hlate : late.Knows [(n.sweep Context.sweep s).1])

include h hn hearly hlate

theorem classes_opened (id : ClassId) :
    ((s.own.named n u.classes).names[id]? = early.names[id]? ∨
        (s.own.named n u.classes).names[id]? = late.names[id]?) ∧
      (id ∈ n.kind.classId?.toList ++ s.own.classes →
        (s.own.named n u.classes).names[id]? = late.names[id]?) := by
  by_cases hk : n.kind = .classDecl id
  · have hsame := h.names_opened hn hearly hlate hk
    exact ⟨Or.inr hsame, fun _ => hsame⟩
  · rw [Context.getElem?_named_of_ne hn.wellFormed hk]
    refine ⟨h.between id, fun hid => ?_⟩
    rcases List.mem_append.mp hid with hid | hid
    · exact absurd (Kind.classId?_eq_some_iff.mp (Option.mem_toList.mp hid)) hk
    · exact h.settled hid

theorem name_opened {id : ClassId}
    (he : (Context.sweep.dressed n u.left n.fields).place.enclosing = some id) :
    t.classes.name id = (Context.sweep.opened n u.left).classes.name id := by
  have hid : id ∈ s.own.classes := by
    rw [Sweep.place_dressed] at he
    rw [← h.context]
    exact List.mem_of_head? he
  have hsame := (h.classes_opened hn hearly hlate id).2 (List.mem_append_right _ hid)
  change t.classes.name id = (u.own.1.named n u.classes).name id
  simp only [ClassTable.name, List.getD_eq_getElem?_getD, h.context, hsame, h.table]

omit hn hearly hlate in
theorem classes_eq (n : Node) : (bothSweep.opened n u).classes = s.own.named n u.classes := by
  rw [← h.context]
  exact (Both.keeps_opened n u).classes

/-- The three sweeps stay abreast when they reach a node. -/
theorem opened : Abreast early late (bothSweep.opened n u) (Context.sweep.opened n s)
    (Renamer.sweep.opened (n.sweep Context.sweep s).1 t) where
  context := by
    change (Context.openScope n u.own.1).toOption.getD u.own.1 = _
    rw [h.context]
    rfl
  renamer := by
    have hlegible : (n.sweep Context.sweep s).1.Legible := by
      rw [Node.sweep_eq]
      exact Context.legible_swept hn s (Context.sweep.opened n s)
    change (Renamer.enter _ (contextFirst n u)).session.own = (Renamer.enter _ t).session.own
    -- What is below the node differs at this point, but no tally depends on that.
    rw [Renamer.own_enter (Context.legible_dressed hn u.left), Renamer.own_enter hlegible,
      ← h.renamer]
    exact (Renamer.tallied_of_sameFetch (sameFetch hn u h.context)
      (fun id => h.name_opened hn hearly hlate) u.own.2).symm
  table := (Renamer.keeps_enter _ t).classes.trans h.table
  between id := by
    rw [h.classes_eq]
    exact (h.classes_opened hn hearly hlate id).1
  settled {id} hid := by
    rw [Context.classes_opened] at hid
    rw [h.classes_eq]
    exact (h.classes_opened hn hearly hlate id).2 hid

omit hn hearly hlate in
theorem closed (n n' : Node) : Abreast early late (bothSweep.closed n u) (Context.sweep.closed n s)
    (Renamer.sweep.closed n' t) where
  context := by
    simp only [bothSweep, Context.sweep, Session.left, Session.withOwn, h.context]
    cases n.kind <;> rfl
  renamer := h.renamer
  table := h.table
  between id := by
    rw [Both.classes_closed]
    exact h.between id
  settled {id} hid := by
    rw [Context.classes_closed] at hid
    rw [Both.classes_closed]
    exact h.settled (List.mem_of_mem_drop hid)

theorem dressed (fields : List Value) :
    bothSweep.dressed n u fields = Node.patched
      ⟨n.kind, Renamer.sweep.place (n.sweep Context.sweep s).1 t, fields⟩
      (Context.sweep.patches n s ++ Renamer.sweep.patches (n.sweep Context.sweep s).1 t) := by
  have hplace : Renamer.sweep.place (n.sweep Context.sweep s).1 t =
      Context.sweep.place n u.left := by
    change (n.sweep Context.sweep s).1.place = _
    rw [Node.place_sweep]
    simp only [Context.sweep, Session.left, Session.withOwn, h.context]
  have hcontext : Context.sweep.patches n s = Context.sweep.patches n u.left := by
    simp only [Context.sweep, Session.left, Session.withOwn, h.context]
  have hrenamer : Renamer.sweep.patches (n.sweep Context.sweep s).1 t =
      Renamer.sweep.patches (Context.sweep.dressed n u.left n.fields) (contextFirst n u) :=
    Renamer.patches_of_sameFetch (sameFetch hn u h.context)
      (fun id => h.name_opened hn hearly hlate) (congrArg Renamer.map h.renamer.symm)
  rw [hplace, hcontext, hrenamer]
  rfl

end Abreast

section Lockstep

variable {early late : ClassTable}

mutual

theorem Node.abreast_sweep : (n : Node) → (∀ m ∈ n.preorder, m.Sound) →
    {u : Session (Context × Renamer γ)} → {s : Session Context} → {t : Session (Renamer γ)} →
    Abreast early late u s t → early.Knows n.preorder →
    late.Knows (n.sweep Context.sweep s).1.preorder →
    (n.sweep bothSweep u).1 = ((n.sweep Context.sweep s).1.sweep Renamer.sweep t).1 ∧
      Abreast early late (n.sweep bothSweep u).2 (n.sweep Context.sweep s).2
        ((n.sweep Context.sweep s).1.sweep Renamer.sweep t).2
  | ⟨kind, place, fields⟩, hn, u, s, t, h, hearly, hlate => by
    obtain ⟨n, hdef⟩ : ∃ n : Node, n = ⟨kind, place, fields⟩ := ⟨_, rfl⟩
    have hfields : fields = n.fields := by rw [hdef]
    rw [← hdef, Node.preorder_eq, List.forall_mem_cons] at hn
    rw [← hdef, Node.preorder_eq] at hearly hlate
    obtain ⟨hsound, hbelow⟩ := hn
    have hearlyNode : early.Knows [n] := hearly.mono (by simp)
    have hlateNode : late.Knows [(n.sweep Context.sweep s).1] := hlate.mono (by simp)
    have hlateBelow := hlate.mono (List.subset_cons_self _ _)
    rw [Node.sweep_eq] at hlateBelow
    -- All three sweeps reach the node, then what is below it, and the changes come last.
    obtain ⟨hsame, habreast⟩ := Value.abreast_sweepAll fields (hfields ▸ hbelow)
      (h.opened hsound hearlyNode hlateNode)
      (hfields ▸ hearly.mono (List.subset_cons_self _ _))
      (hfields ▸ Context.knows_below hsound s _ hlateBelow)
    rw [hfields] at hsame habreast
    have hsecond := Node.sweep_sweep hsound.wellFormed.filled
      (Context.commutes_swept Renamer.passesTokens hsound s (Context.sweep.opened n s)) t
    dsimp only at hsecond
    rw [← hdef, hsecond, Node.sweep_eq bothSweep u n,
      h.dressed hsound hearlyNode hlateNode, hsame]
    refine ⟨rfl, ?_⟩
    have hclosed := habreast.closed n (n.sweep Context.sweep s).1
    rwa [show Context.sweep.closed n (Value.sweepAll Context.sweep (Context.sweep.opened n s)
      n.fields).2 = (n.sweep Context.sweep s).2 by rw [Node.sweep_eq]] at hclosed

theorem Value.abreast_sweep : (v : Value) → (∀ m ∈ v.preorder, m.Sound) →
    {u : Session (Context × Renamer γ)} → {s : Session Context} → {t : Session (Renamer γ)} →
    Abreast early late u s t → early.Knows v.preorder →
    late.Knows (v.sweep Context.sweep s).1.preorder →
    (v.sweep bothSweep u).1 = ((v.sweep Context.sweep s).1.sweep Renamer.sweep t).1 ∧
      Abreast early late (v.sweep bothSweep u).2 (v.sweep Context.sweep s).2
        ((v.sweep Context.sweep s).1.sweep Renamer.sweep t).2
  | .node n, hv, u, s, t, h, hearly, hlate => by
    rw [Value.preorder] at hv hearly
    rw [Value.sweep, Value.preorder] at hlate
    obtain ⟨hsame, habreast⟩ := Node.abreast_sweep n hv h hearly hlate
    simp only [Value.sweep, hsame, true_and]
    exact habreast
  | .list vs, hv, u, s, t, h, hearly, hlate => by
    by_cases hall : vs.all Value.isNode
    · have hall' := Value.all_isNode_sweepAll Context.sweep s hall
      rw [Value.preorder, if_pos hall] at hv hearly
      rw [Value.sweep, if_pos hall, Value.preorder, if_pos hall'] at hlate
      obtain ⟨hsame, habreast⟩ := Value.abreast_sweepAll vs hv h hearly hlate
      simp only [Value.sweep, if_pos hall, if_pos hall', hsame, true_and]
      exact habreast
    · simp only [Value.sweep, if_neg hall, true_and]
      exact h
  | .atom _, hv, u, s, t, h, hearly, hlate | .object, hv, u, s, t, h, hearly, hlate => by
    simp only [Value.sweep, true_and]
    exact h

theorem Value.abreast_sweepAll : (vs : List Value) → (∀ m ∈ Value.preorderAll vs, m.Sound) →
    {u : Session (Context × Renamer γ)} → {s : Session Context} → {t : Session (Renamer γ)} →
    Abreast early late u s t → early.Knows (Value.preorderAll vs) →
    late.Knows (Value.preorderAll (Value.sweepAll Context.sweep s vs).1) →
    (Value.sweepAll bothSweep u vs).1 =
        (Value.sweepAll Renamer.sweep t (Value.sweepAll Context.sweep s vs).1).1 ∧
      Abreast early late (Value.sweepAll bothSweep u vs).2 (Value.sweepAll Context.sweep s vs).2
        (Value.sweepAll Renamer.sweep t (Value.sweepAll Context.sweep s vs).1).2
  | [], _, u, s, t, h, _, _ => ⟨rfl, h⟩
  | v :: vs, hvs, u, s, t, h, hearly, hlate => by
    rw [Value.preorderAll] at hvs hearly
    rw [Value.sweepAll, Value.preorderAll] at hlate
    rw [List.forall_mem_append] at hvs
    obtain ⟨hv, habreast⟩ := Value.abreast_sweep v hvs.1 h
      (hearly.mono (List.subset_append_left _ _)) (hlate.mono (List.subset_append_left _ _))
    obtain ⟨hrest, habreast'⟩ := Value.abreast_sweepAll vs hvs.2 habreast
      (hearly.mono (List.subset_append_right _ _)) (hlate.mono (List.subset_append_right _ _))
    simp only [Value.sweepAll, hv, hrest, true_and]
    exact habreast'

end

/-- The fused sweep of a unit comes to the same as the two sweeps, one after the other. -/
theorem sweepUnit_both {unit : List Node} (hu : ∀ n ∈ preorder unit, n.Sound)
    {u : Session (Context × Renamer γ)} {s : Session Context} {t : Session (Renamer γ)}
    (hown : u.own = (s.own, t.own)) (hclasses : u.classes = s.classes)
    (htable : t.classes = (sweepUnit Context.sweep s unit).2.classes) (hopen : s.own.classes = [])
    (hearly : s.classes.Knows (preorder unit))
    (hlate : t.classes.Knows (preorder (sweepUnit Context.sweep s unit).1)) :
    let one := sweepUnit bothSweep u unit
    let two := sweepUnit Renamer.sweep t (sweepUnit Context.sweep s unit).1
    one.1 = two.1 ∧ one.2.own = ((sweepUnit Context.sweep s unit).2.own, two.2.own) ∧
      one.2.classes = two.2.classes := by
  intro one two
  have hstart : Abreast s.classes t.classes u s t :=
    { context := congrArg Prod.fst hown
      renamer := congrArg Prod.snd hown
      table := rfl
      between := fun _ => Or.inl (by rw [hclasses])
      settled := fun hid => by simp [hopen] at hid }
  have hlate' : t.classes.Knows (Value.preorderAll
      (Value.sweepAll Context.sweep s (unit.map .node)).1) := by
    rwa [Value.sweepAll_nodes, preorderAll_nodes]
  obtain ⟨hsame, habreast⟩ := Value.abreast_sweepAll (unit.map .node)
    (by rwa [preorderAll_nodes]) hstart (by rwa [preorderAll_nodes]) hlate'
  simp only [Value.sweepAll_nodes] at hsame habreast
  refine ⟨List.map_injective_iff.mpr (fun _ _ => Value.node.inj) hsame,
    Prod.ext habreast.context habreast.renamer, ?_⟩
  calc one.2.classes = u.classes.setNames (namings (turns unit) u.own.1) :=
        (follows_sweepUnit Both.follows u unit).classes
    _ = (sweepUnit Context.sweep s unit).2.classes := by
        rw [hclasses, hown]
        exact (follows_sweepUnit Context.follows s unit).classes.symm
    _ = two.2.classes := by rw [habreast.table, htable]

end Lockstep

end Both

end PropertyRenaming
