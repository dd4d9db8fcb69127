import PropertyRenaming.Proofs.Sweep
import PropertyRenaming.RenameUnit

namespace PropertyRenaming

/-- Nothing below a warning is shown. -/
def Log.Quiet (log : Log) : Prop := Level.info.rank < log.threshold

instance (log : Log) : Decidable log.Quiet :=
  inferInstanceAs (Decidable (Level.info.rank < log.threshold))

theorem Log.Quiet.write {log : Log} (h : log.Quiet) {r : Record} (hr : r.level ≠ .warning) :
    log.write r = .ok (log.add r) := by
  apply write_of_lt
  have hlt : Level.info.rank < log.threshold := h
  cases hl : r.level with
  | debug => simp only [Level.rank] at hlt ⊢; omega
  | info => exact hlt
  | warning => exact absurd hl hr

theorem Log.Quiet.add {log : Log} (h : log.Quiet) (r : Record) : (log.add r).Quiet := h

theorem Log.Quiet.of_threshold {log log' : Log} (h : log.Quiet)
    (ht : log'.threshold = log.threshold) : log'.Quiet := by
  rw [Quiet, ht]
  exact h

/-- The field in which a node of a kind names a class. -/
def Kind.reference? : Kind → Option Field
  | .classDecl _ => some .parent
  | .param => some .type
  | .staticFetch | .instantiate => some .cls
  | _ => none

theorem Kind.reference?_cases {kind : Kind} {f : Field} (h : kind.reference? = some f) :
    f = .parent ∨ f = .type ∨ f = .cls := by
  unfold Kind.reference? at h
  split at h <;> simp_all

theorem Kind.mem_fields_of_reference? {kind : Kind} {f : Field} (h : kind.reference? = some f) :
    f ∈ kind.fields := by
  cases kind <;> simp_all [Kind.reference?, Kind.fields]

namespace Context

def inFull (c : Context) : Value → Value
  | .str name => .str (ClassName.resolve c.ns c.imports name)
  | v => v

def settle (c : Context) : Value → Value
  | .node n => if n.kind = .className then .node (n.modify .value c.inFull) else .node n
  | v => v

def naming? (c : Context) (n : Node) : Option (ClassId × Value) :=
  match n.kind with
  | .classDecl id =>
    if (n.get .name).isNull then none else some (id, qualified c.ns (n.get .name))
  | _ => none

/-- The class name that is rewritten in a field, and what it becomes. -/
def rewriting? (c : Context) (v : Value) : Option (String × String) := do
  let name ← ((← v.token?).get .value).str?
  let full := ClassName.resolve c.ns c.imports name
  if full = name then none else some (name, full)

def logged (c : Context) (v : Value) (log : Log) : Log :=
  match c.rewriting? v with
  | some (name, full) => log.add (resolved name full)
  | none => log

def named (c : Context) (n : Node) (t : ClassTable) : ClassTable :=
  match c.naming? n with
  | some (id, full) => t.setName id full
  | none => t

def namePatches (c : Context) (n : Node) : List Patch :=
  match c.naming? n with
  | some (_, full) => [(.qualifiedName, fun _ => full)]
  | none => []

def noted (c : Context) (n : Node) (log : Log) : Log :=
  match n.kind.reference? with
  | some f => c.logged (n.get f) log
  | none => log

def referencePatches (c : Context) (kind : Kind) : List Patch :=
  match kind.reference? with
  | some f => [(f, c.settle)]
  | none => []

def sweep : Sweep Context where
  opened n s :=
    { log := s.own.noted n s.log
      classes := s.own.named n s.classes
      shares := s.shares
      own := (openScope n s.own).toOption.getD s.own }
  place n s := { n.place with enclosing := s.own.classes.head?, ns := s.own.ns }
  patches n s := s.own.namePatches n ++ s.own.referencePatches n.kind
  closed n s :=
    match n.kind with
    | .classDecl _ => s.withOwn { s.own with classes := s.own.classes.tail }
    | .namespaceBlock => s.withOwn s.own.closeNamespace
    | _ => s

end Context

/-- A well-formed node whose class name token is well-formed too. -/
structure Node.Sound (n : Node) : Prop where
  wellFormed : n.WellFormed
  token {f : Field} {token : Node} :
    n.kind.reference? = some f → (n.get f).token? = some token → token.WellFormed

theorem Value.token?_eq_some_iff {v : Value} {token : Node} :
    v.token? = some token ↔ v = .node token ∧ token.kind = .className := by
  unfold Value.token?
  split
  · rename_i n
    by_cases hk : n.kind = .className
    · simp only [hk, if_true, Option.some.injEq, Value.node.injEq]
      exact ⟨fun h => ⟨h, h ▸ hk⟩, And.left⟩
    · simp only [hk, if_false, Value.node.injEq, reduceCtorEq, false_iff]
      rintro ⟨rfl, h⟩
      exact hk h
  · rename_i h
    simp only [reduceCtorEq, false_iff]
    rintro ⟨rfl, -⟩
    exact h _ rfl

theorem WellFormed.sound {unit : List Node} (h : WellFormed unit) :
    ∀ n ∈ preorder unit, n.Sound := by
  refine fun n hn => ⟨h n hn, fun {f token} _ ht => h token (preorder_subset hn ?_)⟩
  obtain ⟨hv, -⟩ := Value.token?_eq_some_iff.mp ht
  have hmem : token ∈ (n.get f).preorder := by simp [hv, Value.preorder, Node.preorder_eq]
  simp [n.preorder_eq, Node.mem_preorderAll_of_get hmem]

theorem Value.token?_sweep {σ : Type} (w : Sweep σ) (s : Session σ)
    {v : Value} (h : v.token? = none) : (v.sweep w s).1.token? = none := by
  cases v with
  | node n =>
    have hk : n.kind ≠ .className := by
      intro hk
      simp [Value.token?, hk] at h
    simp [Value.sweep, Value.token?, Node.sweep_eq, hk]
  | list vs =>
    rw [Value.sweep]
    split <;> rfl
  | _ => simp [Value.sweep, Value.token?]

theorem Content.admits_text_iff {v : Value} :
    Content.text.admits v = true ↔ ∃ s, v = .str s := by
  constructor
  · intro h
    unfold Content.admits at h
    split at h <;> simp_all
  · rintro ⟨s, rfl⟩
    rfl

theorem Content.admits_optionalText_iff {v : Value} :
    Content.optionalText.admits v = true ↔ v = .null ∨ ∃ s, v = .str s := by
  constructor
  · intro h
    unfold Content.admits at h
    split at h <;> simp_all
  · rintro (rfl | ⟨s, rfl⟩) <;> rfl

theorem Content.admits_optionalToken_iff {v : Value} :
    Content.optionalToken.admits v = true ↔ v = .null ∨ ∃ token, v.token? = some token := by
  constructor
  · intro h
    unfold Content.admits at h
    split at h <;> simp_all [Value.token?]
  · rintro (rfl | ⟨token, h⟩)
    · rfl
    · obtain ⟨rfl, hk⟩ := Value.token?_eq_some_iff.mp h
      simp [Content.admits, hk]

theorem Node.WellFormed.token_text {token : Node} (h : token.WellFormed)
    (hk : token.kind = .className) : ∃ name, token.get .value = .str name := by
  have hv := h.admits .value
  rw [hk] at hv
  exact Content.admits_text_iff.mp hv

/-- A sweep that only gives class name tokens a place, whatever their texts are. -/
def Sweep.PassesTokens {σ : Type} (w : Sweep σ) : Prop :=
  ∃ place : Place → Session σ → Place, ∀ token : Node, token.WellFormed →
    token.kind = .className → ∀ s,
      token.sweep w s = (⟨token.kind, place token.place s, token.fields⟩, s)

namespace Context

variable {n : Node} {s : Session Context}

@[simp] theorem threshold_logged (c : Context) (v : Value) (log : Log) :
    (c.logged v log).threshold = log.threshold := by
  unfold logged
  split <;> rfl

theorem resolveToken_eq (hs : s.log.Quiet) (hn : n.Filled) {f : Field} {token : Node}
    (hf : (n.get f).token? = some token) (ht : token.WellFormed) :
    resolveToken f token n s =
      ⟨n.modify f s.own.settle, { s with log := s.own.logged (n.get f) s.log }, .ok ()⟩ := by
  obtain ⟨hv, hk⟩ := Value.token?_eq_some_iff.mp hf
  obtain ⟨name, hname⟩ := ht.token_text hk
  have hset : n.modify f s.own.settle = n.set f (.node (token.set .value
      (.str (ClassName.resolve s.own.ns s.own.imports name)))) := by
    simp [Node.modify, hv, settle, hk, hname, inFull]
  unfold resolveToken
  simp only [Node.tokenText, hname]
  split
  · rename_i hfull
    have hsame : n.modify f s.own.settle = n := by
      rw [hset, hfull, ← hname, ht.filled.set_get_self, ← hv, hn.set_get_self]
    simp [logged, rewriting?, hf, hname, hfull, hsame, Session.done, Value.str?]
  · rename_i hfull
    have hw := hs.write (r := resolved name (ClassName.resolve s.own.ns s.own.imports name))
      (by simp [resolved])
    simp [logged, rewriting?, hf, hname, hfull, hset, Session.done, Session.note, hw, Value.str?]

theorem rewriting?_of_token?_eq_none (c : Context) {v : Value} (h : v.token? = none) :
    c.rewriting? v = none := by
  simp [rewriting?, h]

theorem settle_of_token?_eq_none (c : Context) {v : Value} (h : v.token? = none) :
    c.settle v = v := by
  unfold settle
  split
  · rename_i n
    split
    · rename_i hk
      simp [Value.token?, hk] at h
    · rfl
  · rfl

theorem modify_settle_of_token?_eq_none (hn : n.Filled) (c : Context) {f : Field}
    (h : (n.get f).token? = none) : n.modify f c.settle = n := by
  rw [Node.modify, settle_of_token?_eq_none c h, hn.set_get_self]

theorem done_eq_of_token?_eq_none (hn : n.Filled) {f : Field} (h : (n.get f).token? = none) :
    (s.done n () : Outcome Context Node Unit) =
      ⟨n.modify f s.own.settle, { s with log := s.own.logged (n.get f) s.log }, .ok ()⟩ := by
  simp [Session.done, logged, rewriting?_of_token?_eq_none _ h,
    modify_settle_of_token?_eq_none hn _ h]

theorem resolveCls_eq (hs : s.log.Quiet) (hn : n.Sound) (hf : n.kind.reference? = some .cls) :
    (match (n.get .cls).token? with
      | some token => resolveToken .cls token n s
      | none => s.done n ()) =
      ⟨n.modify .cls s.own.settle, { s with log := s.own.logged (n.get .cls) s.log }, .ok ()⟩ := by
  have hfilled := hn.wellFormed.filled
  cases htoken : (n.get .cls).token? with
  | none => exact done_eq_of_token?_eq_none hfilled htoken
  | some token => exact resolveToken_eq hs hfilled htoken (hn.token hf htoken)

theorem resolveReference_eq (hs : s.log.Quiet) (hn : n.Sound) :
    resolveReference n s = ⟨n.patched (s.own.referencePatches n.kind),
      { s with log := s.own.noted n s.log }, .ok ()⟩ := by
  have hfilled := hn.wellFormed.filled
  have hfield : ∀ {f}, n.kind.reference? = some f → n.kind.content f = .optionalToken →
      resolveField f n s =
        ⟨n.modify f s.own.settle, { s with log := s.own.logged (n.get f) s.log }, .ok ()⟩ := by
    intro f hf hc
    have hadmits := hn.wellFormed.admits f
    rw [hc, Content.admits_optionalToken_iff] at hadmits
    unfold resolveField
    rcases hadmits with hnull | ⟨token, htoken⟩
    · have h : (n.get f).token? = none := by simp [hnull, Value.token?]
      rw [← done_eq_of_token?_eq_none hfilled h]
      simp [hnull, Value.token?, Value.isNull]
    · simp only [htoken]
      exact resolveToken_eq hs hfilled htoken (hn.token hf htoken)
  unfold resolveReference
  split
  · rename_i hk
    simpa [referencePatches, noted, hk, Kind.reference?, Node.patched] using
      hfield (by simp [hk, Kind.reference?]) (by simp [hk, Kind.content])
  · rename_i hk
    simpa [referencePatches, noted, hk, Kind.reference?, Node.patched] using
      hfield (by simp [hk, Kind.reference?]) (by simp [hk, Kind.content])
  · rename_i hk
    refine (resolveCls_eq hs hn (by simp [hk, Kind.reference?])).trans ?_
    simp [referencePatches, noted, hk, Kind.reference?, Node.patched]
  · rename_i hk
    refine (resolveCls_eq hs hn (by simp [hk, Kind.reference?])).trans ?_
    simp [referencePatches, noted, hk, Kind.reference?, Node.patched]
  · rename_i h₁ h₂ h₃ h₄
    have href : n.kind.reference? = none := by
      unfold Kind.reference?
      split <;> simp_all
    simp [referencePatches, noted, href, Node.patched, Session.done]

theorem qualified_text (ns : Option String) (name : String) :
    ∃ full, qualified ns (.str name) = .str full := by
  unfold qualified
  split
  · exact ⟨name, rfl⟩
  · exact ⟨name, rfl⟩
  · exact ⟨_, rfl⟩

theorem naming?_text (hn : n.WellFormed) {c : Context} {id : ClassId} {v : Value}
    (h : c.naming? n = some (id, v)) : n.kind = .classDecl id ∧ ∃ full, v = .str full := by
  unfold naming? at h
  split at h
  · rename_i id' hk
    have hname := hn.admits .name
    rw [hk] at hname
    rcases Content.admits_optionalText_iff.mp hname with hnull | ⟨name, hstr⟩
    · simp [hnull, Value.isNull] at h
    · simp only [hstr, Value.isNull, Bool.false_eq_true, if_false, Option.some.injEq,
        Prod.mk.injEq] at h
      obtain ⟨rfl, rfl⟩ := h
      exact ⟨hk, qualified_text c.ns name⟩
  · cases h

theorem nameNode_eq (hn : n.WellFormed) (s : Session Context) :
    nameNode n s = (n.patched (s.own.namePatches n),
      { s with classes := s.own.named n s.classes }) := by
  unfold nameNode
  split
  · rename_i id hk
    have hname := hn.admits .name
    rw [hk] at hname
    unfold nameClass
    rcases Content.admits_optionalText_iff.mp hname with hnull | ⟨name, hstr⟩
    · simp [namePatches, named, naming?, hk, hnull, Value.isNull, Node.patched]
    · have hset : n.set .name (.str name) = n := by rw [← hstr, hn.filled.set_get_self]
      simp [namePatches, named, naming?, hk, hstr, Value.isNull, Node.patched, Node.modify, hset]
  · rename_i hk
    have hnone : s.own.naming? n = none := by
      unfold naming?
      split
      · rename_i id hid
        exact absurd hid (hk id)
      · rfl
    simp [namePatches, named, hnone, Node.patched]

theorem exists_openScope (hn : n.WellFormed) (c : Context) :
    openScope n c = .ok ((openScope n c).toOption.getD c) := by
  have hname := hn.admits .name
  have hshort := hn.admits .shortName
  unfold openScope
  split
  · rename_i hk
    rw [hk] at hname
    rcases Content.admits_optionalText_iff.mp hname with h | ⟨name, h⟩
    · simp [h, nsOf, Value.holds, Atom.holds, Except.map, Except.toOption]
    · by_cases he : (Value.str name).holds
      · simp [h, nsOf, he, Value.strippedName, Except.map, Except.toOption]
      · simp [h, nsOf, he, Except.map, Except.toOption]
  · rename_i hk
    rw [hk] at hname hshort
    obtain ⟨name, h⟩ := Content.admits_text_iff.mp hname
    rcases Content.admits_optionalText_iff.mp hshort with h' | ⟨short, h'⟩
    · simp [h, h', addImport, Value.strippedName, exposedName, Value.isNull, Except.toOption, bind,
        Except.bind, Except.map, pure, Except.pure]
    · simp [h, h', addImport, Value.strippedName, exposedName, Value.isNull, Except.toOption, bind,
        Except.bind, pure, Except.pure]
  · rfl
  · rfl

theorem fst_of_mem_namePatches {c : Context} {p : Patch} (h : p ∈ c.namePatches n) :
    p.1 = .qualifiedName := by
  unfold namePatches at h
  split at h <;> simp_all

theorem reference?_of_mem_referencePatches {c : Context} {kind : Kind} {p : Patch}
    (h : p ∈ c.referencePatches kind) : kind.reference? = some p.1 := by
  unfold referencePatches at h
  cases hr : kind.reference? with
  | none => simp [hr] at h
  | some f =>
    obtain rfl : p = (f, c.settle) := by simpa [hr] using h
    rfl

theorem fst_of_mem_referencePatches {c : Context} {kind : Kind} {p : Patch}
    (h : p ∈ c.referencePatches kind) : p.1 = .parent ∨ p.1 = .type ∨ p.1 = .cls :=
  Kind.reference?_cases (reference?_of_mem_referencePatches h)

theorem wellFormed_named (hn : n.WellFormed) (c : Context) :
    (n.patched (c.namePatches n)).WellFormed := by
  unfold namePatches
  split
  · rename_i id full h
    obtain ⟨hk, full, rfl⟩ := naming?_text hn h
    exact hn.set (by rw [hk]; rfl)
  · exact hn

theorem get_reference_named (c : Context) {f : Field} (hf : n.kind.reference? = some f) :
    (n.patched (c.namePatches n)).get f = n.get f := by
  apply Node.get_patched_of_ne
  intro p hp
  rw [fst_of_mem_namePatches hp]
  rcases Kind.reference?_cases hf with rfl | rfl | rfl <;> nofun

theorem sound_named (hn : n.Sound) (c : Context) : (n.patched (c.namePatches n)).Sound where
  wellFormed := wellFormed_named hn.wellFormed c
  token hf ht := by
    rw [Node.kind_patched] at hf
    rw [get_reference_named c hf] at ht
    exact hn.token hf ht

theorem openScope_patched (ps : List Patch) (h : ∀ p ∈ ps, p.1 ≠ .name ∧ p.1 ≠ .shortName)
    (c : Context) : openScope (n.patched ps) c = openScope n c := by
  unfold openScope
  rw [Node.kind_patched, Node.get_patched_of_ne fun p hp => (h p hp).1,
    Node.get_patched_of_ne fun p hp => (h p hp).2]

/-- What reaching a node does, with all its parts at once. -/
theorem enter_eq (hs : s.log.Quiet) (hn : n.Sound) :
    enter n s = ⟨sweep.dressed n s n.fields, sweep.opened n s, .ok .keep⟩ := by
  -- The node in its new place has the kind and the fields of the old one.
  obtain ⟨m, hm⟩ : ∃ m, m = s.own.stand n := ⟨_, rfl⟩
  have hmk : m.kind = n.kind := by rw [hm]; rfl
  have hmg : ∀ f, m.get f = n.get f := by rw [hm]; exact fun f => rfl
  have hwf : m.WellFormed := by rw [hm]; exact hn.wellFormed.at_place hn.wellFormed.unshared
  have hsound : m.Sound := ⟨hwf, fun hf ht => hn.token (hmk ▸ hf) (hmg _ ▸ ht)⟩
  have hnaming : s.own.naming? m = s.own.naming? n := by rw [hm]; rfl
  have hdressed : sweep.dressed n s n.fields =
      (m.patched (s.own.namePatches m)).patched (s.own.referencePatches m.kind) := by
    rw [← Node.patched_append, hmk, hm]
    rfl
  have hscope : openScope (sweep.dressed n s n.fields) s.own = openScope n s.own := by
    rw [hdressed, ← Node.patched_append, openScope_patched]
    · rw [hm]
      rfl
    · intro p hp
      rcases List.mem_append.mp hp with hp | hp
      · rw [fst_of_mem_namePatches hp]
        exact ⟨nofun, nofun⟩
      · rcases fst_of_mem_referencePatches hp with h | h | h <;> rw [h] <;> exact ⟨nofun, nofun⟩
  have hnoted : s.own.noted (m.patched (s.own.namePatches m)) s.log = s.own.noted n s.log := by
    unfold noted
    rw [Node.kind_patched, hmk]
    cases hr : n.kind.reference? with
    | none => rfl
    | some f => simp only [get_reference_named s.own (n := m) (hmk ▸ hr), hmg]
  rw [enter, ← hm, nameNode_eq hwf]
  dsimp only
  rw [resolveReference_eq (s := { s with classes := s.own.named m s.classes }) hs
    (sound_named hsound s.own)]
  simp only [Outcome.andThen, openNode, Node.kind_patched, ← hdressed, hscope, hnoted]
  rw [exists_openScope hn.wellFormed]
  simp only [Session.done, Session.withOwn, sweep, named, hnaming]

theorem classes_opened (n : Node) (s : Session Context) :
    (sweep.opened n s).own.classes = n.kind.classId?.toList ++ s.own.classes := by
  simp only [sweep]
  unfold openScope
  split
  · rename_i hk
    cases hns : nsOf (n.get .name) <;> simp [hk, Kind.classId?, Except.map, Except.toOption]
  · rename_i hk
    unfold addImport
    cases hname : (n.get .name).strippedName with
    | error e => simp [hk, Kind.classId?, bind, Except.bind, Except.toOption]
    | ok full =>
      cases hexp : exposedName (n.get .name) (n.get .shortName) with
      | error e => simp [hk, Kind.classId?, bind, Except.bind, Except.toOption]
      | ok v =>
        simp only [hk, Kind.classId?, bind, Except.bind]
        split <;> simp [Except.toOption, pure, Except.pure, throw, throwThe, MonadExceptOf.throw]
  · rename_i id hk
    simp [hk, Kind.classId?, Except.toOption]
  · rename_i h₁ h₂ h₃
    cases hk : n.kind with
    | classDecl id => exact absurd hk (h₃ id)
    | _ => simp [Kind.classId?, Except.toOption]

theorem classes_closed (n : Node) (s : Session Context) :
    (sweep.closed n s).own.classes = s.own.classes.drop n.kind.classId?.toList.length := by
  simp only [sweep]
  cases hk : n.kind <;>
    simp [Kind.classId?, Session.withOwn, closeNamespace, List.drop_one]

mutual

theorem classes_sweep (s : Session Context) : (n : Node) →
    (n.sweep sweep s).2.own.classes = s.own.classes
  | ⟨kind, place, fields⟩ => by
    rw [Node.sweep, classes_closed, classes_sweepAll, classes_opened]
    simp

theorem classes_sweepValue (s : Session Context) : (v : Value) →
    (v.sweep sweep s).2.own.classes = s.own.classes
  | .node n => by rw [Value.sweep, classes_sweep]
  | .list vs => by
    rw [Value.sweep]
    split
    · exact classes_sweepAll s vs
    · rfl
  | .atom _ | .object => by simp [Value.sweep]

theorem classes_sweepAll (s : Session Context) : (vs : List Value) →
    (Value.sweepAll sweep s vs).2.own.classes = s.own.classes
  | [] => rfl
  | v :: vs => by rw [Value.sweepAll, classes_sweepAll, classes_sweepValue]

end

section Tokens

variable {token : Node} (ht : token.WellFormed) (hk : token.kind = .className)

include ht hk

theorem fields_token : ∃ name, token.fields = [.str name] := by
  obtain ⟨name, hname⟩ := ht.token_text hk
  have hlen : token.fields.length = 1 := by rw [ht.filled, hk]; rfl
  obtain ⟨v, hv⟩ := List.length_eq_one_iff.mp hlen
  have hget : token.get .value = v := by
    simp only [Node.get, hk, hv]
    rfl
  exact ⟨name, by rw [hv, ← hget, hname]⟩

theorem exists_token : ∃ place name, token = ⟨.className, place, [.str name]⟩ := by
  obtain ⟨name, hf⟩ := fields_token ht hk
  obtain ⟨kind, place, fields⟩ := token
  exact ⟨place, name, by rw [Node.mk.injEq]; exact ⟨hk, rfl, hf⟩⟩

theorem sweep_token (s : Session Context) :
    token.sweep sweep s = (⟨token.kind, sweep.place token s, token.fields⟩, s) := by
  obtain ⟨name, hf⟩ := fields_token ht hk
  have hopened : sweep.opened token s = s := by
    simp [sweep, noted, named, naming?, openScope, hk, Kind.reference?, Except.toOption]
  rw [Node.sweep_eq, hopened, hf]
  simp [Value.sweepAll, Sweep.dressed, sweep, namePatches, naming?, referencePatches, hk,
    Kind.reference?, Node.patched]

theorem wellFormed_settled (c : Context) : (token.modify .value c.inFull).WellFormed := by
  obtain ⟨name, hname⟩ := ht.token_text hk
  apply ht.set
  rw [hk, hname]
  rfl

theorem preorder_token : token.preorder = [token] := by
  obtain ⟨name, hf⟩ := fields_token ht hk
  simp [Node.preorder_eq, hf, Value.preorderAll, Value.preorder]

theorem depth_token : token.depth = 1 := by
  obtain ⟨place, name, rfl⟩ := exists_token ht hk
  simp [Node.depth, Value.depthAll, Value.depth]

end Tokens

theorem settle_token (c : Context) {v : Value} {token : Node} (hv : v.token? = some token) :
    c.settle v = .node (token.modify .value c.inFull) := by
  obtain ⟨rfl, hk⟩ := Value.token?_eq_some_iff.mp hv
  simp [settle, hk]

theorem passesTokens : sweep.PassesTokens :=
  ⟨fun place s => { place with enclosing := s.own.classes.head?, ns := s.own.ns },
    fun _ ht hk s => sweep_token ht hk s⟩

section Commutes

variable {σ : Type} {w : Sweep σ}

/-- Writing a class name out and walking the field commute. -/
theorem commutesAt_settle (hw : w.PassesTokens) (c : Context) {v : Value}
    (hv : ∀ token, v.token? = some token → token.WellFormed) : w.CommutesAt c.settle v := by
  intro s
  cases htoken : v.token? with
  | none =>
    rw [settle_of_token?_eq_none c htoken,
      settle_of_token?_eq_none c (Value.token?_sweep w s htoken)]
  | some token =>
    obtain ⟨place, hpasses⟩ := hw
    have ht := hv token htoken
    obtain ⟨rfl, hk⟩ := Value.token?_eq_some_iff.mp htoken
    have hk' : (token.modify .value c.inFull).kind = .className := by
      rw [Node.modify, Node.kind_set, hk]
    rw [settle_token c htoken, Value.sweep, Value.sweep,
      hpasses _ (wellFormed_settled ht hk c) hk', hpasses _ ht hk]
    obtain ⟨place, name, rfl⟩ := exists_token ht hk
    rfl

theorem commutes_referencePatches (hw : w.PassesTokens) (hn : n.Sound) (c : Context) :
    w.Commutes (c.referencePatches n.kind) n := by
  unfold referencePatches
  cases hf : n.kind.reference? with
  | none => trivial
  | some f => exact ⟨commutesAt_settle hw c fun token ht => hn.token hf ht, trivial⟩

theorem commutes_namePatches (hn : n.WellFormed) (c : Context) :
    w.Commutes (c.namePatches n) n := by
  unfold namePatches
  split
  · rename_i id full hnaming
    obtain ⟨hk, text, rfl⟩ := naming?_text hn hnaming
    have hq := hn.admits .qualifiedName
    rw [hk] at hq
    refine ⟨fun s => ?_, trivial⟩
    rcases Content.admits_optionalText_iff.mp hq with h | ⟨name, h⟩ <;> simp [h]
  · trivial

theorem sound_at_place (hn : n.Sound) (s : Session Context) :
    Node.Sound ⟨n.kind, sweep.place n s, n.fields⟩ :=
  ⟨hn.wellFormed.at_place hn.wellFormed.unshared, hn.token⟩

theorem commutes_patches (hw : w.PassesTokens) (hn : n.Sound) (c : Context) :
    w.Commutes (c.namePatches n ++ c.referencePatches n.kind) n := by
  have href := commutes_referencePatches hw (sound_named hn c) c
  rw [Node.kind_patched] at href
  exact (commutes_namePatches hn.wellFormed c).append href

end Commutes

theorem sound_settled {token : Node} (ht : token.WellFormed) (hk : token.kind = .className)
    (c : Context) : (token.modify .value c.inFull).Sound where
  wellFormed := wellFormed_settled ht hk c
  token hf := by simp [Node.modify, hk, Kind.reference?] at hf

theorem sound_below_named (hn : n.WellFormed) (c : Context)
    (h : ∀ m ∈ Value.preorderAll n.fields, m.Sound) :
    ∀ m ∈ Value.preorderAll (n.patched (c.namePatches n)).fields, m.Sound := by
  unfold namePatches
  split
  · rename_i id full hnaming
    obtain ⟨-, text, rfl⟩ := naming?_text hn hnaming
    intro m hm
    rcases Node.mem_preorderAll_set hm with hm | hm
    · exact h m hm
    · simp [Value.preorder] at hm
  · exact h

/-- Below a node whose class name is written out there are old nodes and the new token. -/
theorem sound_below_referring (hn : n.Sound) (c : Context)
    (h : ∀ m ∈ Value.preorderAll n.fields, m.Sound) :
    ∀ m ∈ Value.preorderAll (n.patched (c.referencePatches n.kind)).fields, m.Sound := by
  unfold referencePatches
  cases hf : n.kind.reference? with
  | none => exact h
  | some f =>
    intro m hm
    rcases Node.mem_preorderAll_set hm with hm | hm
    · exact h m hm
    · dsimp only at hm
      cases htoken : (n.get f).token? with
      | none =>
        rw [settle_of_token?_eq_none c htoken] at hm
        exact h m (Node.mem_preorderAll_of_get hm)
      | some token =>
        have hk := (Value.token?_eq_some_iff.mp htoken).2
        have hs := sound_settled (hn.token hf htoken) hk c
        rw [settle_token c htoken, Value.preorder,
          preorder_token hs.wellFormed (by rw [Node.modify, Node.kind_set, hk])] at hm
        obtain rfl := List.mem_singleton.mp hm
        exact hs

theorem depth_named_le (hn : n.WellFormed) (c : Context) :
    Value.depthAll (n.patched (c.namePatches n)).fields ≤ Value.depthAll n.fields := by
  unfold namePatches
  split
  · rename_i id full hnaming
    obtain ⟨-, text, rfl⟩ := naming?_text hn hnaming
    exact Node.depthAll_set_le (by simp [Value.depth])
  · exact le_rfl

theorem depth_referring_le (hn : n.Sound) (c : Context) :
    Value.depthAll (n.patched (c.referencePatches n.kind)).fields ≤ Value.depthAll n.fields := by
  unfold referencePatches
  cases hf : n.kind.reference? with
  | none => exact le_rfl
  | some f =>
    apply Node.depthAll_set_le
    dsimp only
    have hd := n.get_depth_le f
    cases htoken : (n.get f).token? with
    | none => rwa [settle_of_token?_eq_none c htoken]
    | some token =>
      obtain ⟨hv, hk⟩ := Value.token?_eq_some_iff.mp htoken
      have ht := hn.token hf htoken
      rw [hv, Value.depth, depth_token ht hk] at hd
      rw [settle_token c htoken, Value.depth,
        depth_token (wellFormed_settled ht hk c) (by rw [Node.modify, Node.kind_set, hk])]
      exact hd

/-- The sessions in which the walk goes smoothly. -/
def Calm {σ : Type} (s : Session σ) : Prop := s.shares.latest = [] ∧ s.log.Quiet

theorem threshold_noted (c : Context) (n : Node) (log : Log) :
    (c.noted n log).threshold = log.threshold := by
  unfold noted
  split
  · exact threshold_logged c _ log
  · rfl

/-- A node is left smoothly as long as the classes are open that were open when it was reached. -/
theorem leave_of_classes {n m : Node} (hk : m.kind = n.kind) {t : Session Context}
    {outer : List ClassId} (h : t.own.classes = n.kind.classId?.toList ++ outer) :
    leave m t = (sweep.closed n t).done m .keep := by
  unfold leave
  rw [hk]
  cases hkind : n.kind <;> simp_all [Kind.classId?, sweep, Session.withOwn]

theorem leave_eq (n : Node) (fields : List Value) {s t : Session Context}
    (h : Value.sweepAll sweep (sweep.opened n s) n.fields = (fields, t)) :
    leave (sweep.dressed n s fields) t =
      (sweep.closed n t).done (sweep.dressed n s fields) .keep := by
  have hclasses : t.own.classes = n.kind.classId?.toList ++ s.own.classes := by
    rw [← classes_opened, ← classes_sweepAll (sweep.opened n s) n.fields, h]
  exact leave_of_classes (Sweep.kind_dressed ..) hclasses

/-- Working out the class context sweeps the unit. -/
theorem describes : sweep.Describes [Context.visitor] Node.Sound Calm where
  settled hs := hs.1
  filled hn := hn.wellFormed.filled
  unshared hn := hn.wellFormed.unshared
  commutes {n s} hn := commutes_patches passesTokens (sound_at_place hn s) s.own
  good {n s} hn h := by
    have hm := sound_at_place hn s
    have hbelow := sound_below_referring (sound_named hm s.own) s.own
      (sound_below_named hm.wellFormed s.own h)
    rwa [Node.kind_patched, ← Node.patched_append] at hbelow
  depth {n s} hn := by
    have hm := sound_at_place hn s
    have hle := (depth_referring_le (sound_named hm s.own) s.own).trans
      (depth_named_le hm.wellFormed s.own)
    rwa [Node.kind_patched, ← Node.patched_append] at hle
  ok_opened {n s} hn hs := by
    exact ⟨hs.1, hs.2.of_threshold (threshold_noted s.own n s.log)⟩
  ok_closed {n s} hn hs := by
    simp only [sweep]
    split <;> exact hs
  enter {n s} hn hs := by
    have hkeep := sweep.keep_dressed (s := s) hn.wellFormed.unshared n.fields (sweep.opened n s)
    simp [callHooks, Context.visitor, enter_eq hs.2 hn, Stand.accept, Session.done, hkeep]
  leave {n s t fields} hn ht h := by
    have hkeep := sweep.keep_dressed (s := s) hn.wellFormed.unshared fields (sweep.closed n t)
    simp [callHooks, Context.visitor, leave_eq n fields h, Stand.accept, Session.done, hkeep]

end Context

/-- The unit and the session after the class context has been worked out. -/
def resolution {γ : Type} (unit : List Node) (s : Session γ) : List Node × Session Context :=
  sweepUnit Context.sweep (s.withOwn {}).settled unit

/-- A walk for the class context of a well-formed unit is its sweep, from whatever state. -/
theorem traverse_visitor_eq {limit : Nat} {unit : List Node} (hu : WellFormed unit)
    (hd : depth unit ≤ limit) {s : Session Context} (hs : s.log.Quiet) :
    traverse limit [Context.visitor] unit s =
      ⟨(resolution unit s).1, (resolution unit s).2, .ok (resolution unit s).1⟩ := by
  have hbefore : Context.visitor.before unit s =
      (s.withOwn ({} : Context)).done unit .keep := rfl
  exact Context.describes.traverse hbefore hd hu.sound ⟨rfl, hs⟩ rfl

/-- Working out the class context of a well-formed unit never fails. -/
theorem resolveUnit_eq {γ : Type} {unit : List Node} (hu : WellFormed unit) {s : Session γ}
    (hs : s.log.Quiet) :
    resolveUnit unit s = ⟨(resolution unit s).1, (resolution unit s).2.withOwn s.own,
      .ok (resolution unit s).1⟩ ∧ Context.Calm (resolution unit s).2 := by
  have hcalm : Context.Calm (s.withOwn ({} : Context)).settled := ⟨rfl, hs⟩
  refine ⟨?_, (Context.describes.walkUnit le_rfl hu.sound hcalm).2⟩
  rw [resolveUnit, traverse_visitor_eq hu le_rfl (s := s.withOwn {}) hs]
  rfl

end PropertyRenaming
