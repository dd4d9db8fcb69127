import PropertyRenaming.Proofs.DeclaredItems
import PropertyRenaming.Proofs.Keys

namespace PropertyRenaming

open Context (Calm)

/-- Whether a node is a local fetch, by the text of the class name it has. -/
def ClassTable.finds (t : ClassTable) (n : Node) : Bool :=
  match n.place.enclosing, n.kind with
  | some _, .fetch => (n.get .object).isThis
  | some id, .staticFetch => (n.get .cls).tokenText?.any (meansClass (t.name id))
  | _, _ => false

/-- What visiting fetches relies on; any value may stand for a property name. -/
structure Node.Legible (n : Node) : Prop where
  filled : n.Filled
  unshared : n.place.share = none
  token {token : Node} : n.kind = .staticFetch → (n.get .cls).token? = some token →
    ∃ name, token.get .value = .str name

theorem Node.Sound.legible {n : Node} (hn : n.Sound) : n.Legible where
  filled := hn.wellFormed.filled
  unshared := hn.wellFormed.unshared
  token hk ht := (hn.token (by rw [hk]; rfl) ht).token_text (Value.token?_eq_some_iff.mp ht).2

theorem WellFormed.legible {unit : List Node} (hu : WellFormed unit) :
    ∀ n ∈ preorder unit, n.Legible :=
  fun n hn => (hu.sound n hn).legible

theorem ClassTable.isLocal_of_legible (t : ClassTable) {n : Node} (hn : n.Legible) :
    t.isLocal n = .ok (t.finds n) := by
  unfold isLocal finds
  cases n.place.enclosing with
  | none => rfl
  | some id =>
    cases hk : n.kind with
    | staticFetch =>
      cases htoken : (n.get .cls).token? with
      | none => simp [Value.tokenText?, htoken]
      | some token =>
        obtain ⟨name, hname⟩ := hn.token hk htoken
        simp [Value.tokenText?, htoken, Node.tokenText, hname, Value.str?, Except.map]
    | _ => rfl

theorem ClassTable.isLocal_eq (t : ClassTable) {n : Node} (hn : n.Sound) :
    t.isLocal n = .ok (t.finds n) := t.isLocal_of_legible hn.legible

theorem ClassTable.isLocal_of_finds {t : ClassTable} {n : Node} (h : t.finds n = true) :
    t.isLocal n = .ok true := by
  revert h
  unfold finds isLocal
  cases n.place.enclosing with
  | none => simp
  | some id =>
    cases n.kind with
    | staticFetch =>
      intro h
      obtain ⟨name, htext, hmeans⟩ := (Option.any_eq_true ..).mp h
      obtain ⟨token, htoken, hname⟩ := Option.bind_eq_some_iff.mp htext
      simp [htoken, Node.tokenText, Value.str?_eq_some_iff.mp hname, Except.map, hmeans]
    | _ => simp

def Node.localFetch? (t : ClassTable) (n : Node) : Option (ClassId × String) :=
  match (n.get .name).str?, n.place.enclosing with
  | some name, some id => if n.kind.isFetch && t.finds n then some (id, name) else none
  | _, _ => none

theorem Node.localFetch?_eq_some_iff {t : ClassTable} {n : Node} {id : ClassId} {name : String} :
    n.localFetch? t = some (id, name) ↔ n.get .name = .str name ∧ n.place.enclosing = some id ∧
      n.kind.isFetch = true ∧ t.finds n = true := by
  rw [← Value.str?_eq_some_iff]
  unfold Node.localFetch?
  cases (n.get .name).str? with
  | none => simp
  | some name' =>
    cases n.place.enclosing with
    | none => simp
    | some id' =>
      cases n.kind.isFetch <;> cases t.finds n <;> simp [and_comm]

theorem Node.localFetch?_eq_none {t : ClassTable} {n : Node}
    (h : ∀ name, n.get .name = .str name → (n.kind.isFetch && t.finds n) = false) :
    n.localFetch? t = none := by
  rw [Option.eq_none_iff_forall_ne_some]
  rintro ⟨id, name⟩ hf
  obtain ⟨hname, -, hk, hfinds⟩ := localFetch?_eq_some_iff.mp hf
  exact absurd (h name hname) (by simp [hk, hfinds])

/-- Renames local fetches that have an entry in the map. -/
def fetchRewriting (m : RenameMap) (t : ClassTable) : Rewriting := fun x =>
  (x.node.localFetch? t).bind fun e => m.get? (propertyKey m.perClass t.scope e.1 (.text e.2))

theorem ClassTable.exists_enclosing {t : ClassTable} {n : Node} (h : t.finds n = true) :
    ∃ id, n.place.enclosing = some id := by
  unfold finds at h
  split at h
  · rename_i id he _
    exact ⟨id, he⟩
  · rename_i id he _
    exact ⟨id, he⟩
  · cases h

theorem ClassTable.exists_enclosing_of_isLocal {t : ClassTable} {n : Node}
    (h : t.isLocal n = .ok true) : ∃ id, n.place.enclosing = some id := by
  unfold isLocal at h
  split at h
  · rename_i id he _
    exact ⟨id, he⟩
  · rename_i id he _
    exact ⟨id, he⟩
  · cases h

namespace Renamer

variable {γ : Type} {n : Node} {s : Session (Renamer γ)}

/-- What visiting fetches leaves alone. -/
structure Keeps (s t : Session (Renamer γ)) : Prop where
  memory : t.own.memory = s.own.memory
  map : t.own.map = s.own.map
  ignore : t.own.ignore = s.own.ignore
  declarations : t.own.declarations = s.own.declarations
  classes : t.classes = s.classes
  shares : t.shares = s.shares
  threshold : t.log.threshold = s.log.threshold

theorem Keeps.refl (s : Session (Renamer γ)) : Keeps s s := ⟨rfl, rfl, rfl, rfl, rfl, rfl, rfl⟩

theorem Keeps.trans {s t u : Session (Renamer γ)} (h : Keeps s t) (h' : Keeps t u) : Keeps s u :=
  ⟨h'.memory.trans h.memory, h'.map.trans h.map, h'.ignore.trans h.ignore,
    h'.declarations.trans h.declarations, h'.classes.trans h.classes, h'.shares.trans h.shares,
    h'.threshold.trans h.threshold⟩

theorem keeps_enter (n : Node) (s : Session (Renamer γ)) : Keeps s (enter n s).session := by
  have hnote : ∀ (r : Record) (m : Node),
      Keeps s ((skip s).note r m fun s => s.done m Reply.keep).session := by
    intro r m
    unfold Session.note
    cases hw : (skip s).log.write r with
    | error e => exact ⟨rfl, rfl, rfl, rfl, rfl, rfl, rfl⟩
    | ok log => exact ⟨rfl, rfl, rfl, rfl, rfl, rfl, Log.threshold_of_write hw⟩
  unfold enter
  split
  · split
    · unfold enterFetch
      split
      · exact Keeps.refl s
      · unfold renameFetch
        split
        · exact Keeps.refl s
        · split
          · exact Keeps.refl s
          · exact ⟨rfl, rfl, rfl, rfl, rfl, rfl, rfl⟩
      · exact hnote _ n
    · exact hnote _ n
  · exact Keeps.refl s

theorem key_eq {id : ClassId} (he : n.place.enclosing = some id) (name : Atom) :
    s.own.map.key name (scopeOf n s) =
      .ok (propertyKey s.own.map.perClass s.classes.scope id name) := by
  cases hp : s.own.map.perClass <;>
    simp [RenameMap.key, propertyKey, scopeOf, hp, he]

/-- What the renamer does with a node: it passes by what is no fetch, skips a fetch that is not
surely of its own class, and renames one that is, if there is an entry for it. -/
inductive Entered (n : Node) (s : Session (Renamer γ)) : Outcome (Renamer γ) Node Reply → Prop
  | passed : n.kind.isFetch = false → Entered n s (s.done n .keep)
  | dynamic : n.kind.isFetch = true → (n.get .name).str? = none →
    Entered n s ((skip s).note dynamicFetch n fun s => s.done n .keep)
  | foreign {name : String} : n.kind.isFetch = true → n.get .name = .str name →
    s.classes.finds n = false →
    Entered n s ((skip s).note (foreignFetch name) n fun s => s.done n .keep)
  | unlisted {e : ClassId × String} : n.localFetch? s.classes = some e →
    fetchRewriting s.own.map s.classes ⟨{}, n⟩ = none → Entered n s (s.done n .keep)
  | renamed {e : ClassId × String} {new : Atom} : n.localFetch? s.classes = some e →
    fetchRewriting s.own.map s.classes ⟨{}, n⟩ = some new →
    Entered n s ((s.withOwn { s.own with fetches := s.own.fetches + 1 }).done
      (n.set .name (.atom new)) .same)

theorem entered_renameFetch {id : ClassId} {name : String}
    (h : n.localFetch? s.classes = some (id, name)) : Entered n s (renameFetch name n s) := by
  obtain ⟨-, he, -, -⟩ := Node.localFetch?_eq_some_iff.mp h
  have hentry : fetchRewriting s.own.map s.classes ⟨{}, n⟩ =
      s.own.map.get? (propertyKey s.own.map.perClass s.classes.scope id (.text name)) := by
    rw [fetchRewriting, h, Option.bind_some]
  unfold renameFetch
  rw [key_eq he]
  dsimp only
  rw [← hentry]
  cases hnew : fetchRewriting s.own.map s.classes ⟨{}, n⟩ with
  | none => exact .unlisted h hnew
  | some new => exact .renamed h hnew

theorem entered (hn : n.Legible) : Entered n s (enter n s) := by
  unfold enter
  split
  · rename_i hk
    split
    · rename_i name hname
      rw [enterFetch, s.classes.isLocal_of_legible hn]
      cases hfinds : s.classes.finds n with
      | false => exact .foreign hk hname hfinds
      | true =>
        obtain ⟨id, he⟩ := ClassTable.exists_enclosing hfinds
        exact entered_renameFetch (Node.localFetch?_eq_some_iff.mpr ⟨hname, he, hk, hfinds⟩)
    · rename_i hname
      refine .dynamic hk (Option.eq_none_iff_forall_ne_some.mpr fun name h => ?_)
      exact hname name (Value.str?_eq_some_iff.mp h)
  · rename_i hk
    exact .passed (by simpa using hk)

theorem skip_eq (hs : s.log.Quiet) (n : Node) {r : Record} (hr : r.level ≠ .warning) :
    ((skip s).note r n fun s => s.done n Reply.keep) =
      ⟨n, ((skip s).note r n fun s => s.done n Reply.keep).session, .ok .keep⟩ := by
  have hskip : (skip s).log.Quiet := hs
  simp [Session.note, hskip.write hr, Session.done]

theorem enter_eq (hs : s.log.Quiet) (hn : n.Legible) :
    ∃ r, (r = .keep ∨ r = .same) ∧ enter n s =
      ⟨n.named (fetchRewriting s.own.map s.classes ⟨{}, n⟩), (enter n s).session, .ok r⟩ := by
  have hnone : n.localFetch? s.classes = none →
      n.named (fetchRewriting s.own.map s.classes ⟨{}, n⟩) = n := by
    intro h
    simp [fetchRewriting, h, Node.named]
  have hentered := entered (s := s) hn
  generalize enter n s = o at hentered ⊢
  cases hentered with
  | passed hk =>
    rw [hnone (Node.localFetch?_eq_none fun _ _ => by simp [hk])]
    exact ⟨.keep, Or.inl rfl, rfl⟩
  | dynamic hk hname =>
    rw [hnone (Node.localFetch?_eq_none fun name h => by simp [h, Value.str?] at hname)]
    exact ⟨.keep, Or.inl rfl, skip_eq hs n (by simp [dynamicFetch])⟩
  | foreign hk hname hfinds =>
    rw [hnone (Node.localFetch?_eq_none fun _ _ => by simp [hfinds])]
    exact ⟨.keep, Or.inl rfl, skip_eq hs n (by simp [foreignFetch])⟩
  | unlisted hlocal hnew =>
    rw [hnew]
    exact ⟨.keep, Or.inl rfl, rfl⟩
  | renamed hlocal hnew =>
    rw [hnew]
    exact ⟨.same, Or.inr rfl, rfl⟩

def sweep : Sweep (Renamer γ) where
  opened n s := (enter n s).session
  place n _ := n.place
  patches n s :=
    match fetchRewriting s.own.map s.classes ⟨{}, n⟩ with
    | some new => [(.name, fun _ => .atom new)]
    | none => []
  closed _ s := s

theorem dressed_eq (n : Node) (s : Session (Renamer γ)) (fields : List Value) :
    sweep.dressed n s fields =
      Node.named ⟨n.kind, n.place, fields⟩ (fetchRewriting s.own.map s.classes ⟨{}, n⟩) := by
  simp only [Sweep.dressed, sweep]
  cases fetchRewriting s.own.map s.classes ⟨{}, n⟩ <;> rfl

theorem fetchRewriting_literal {m : RenameMap} {t : ClassTable} {x : Site} {new : Atom}
    (h : fetchRewriting m t x = some new) :
    x.node.kind.isFetch = true ∧ ∃ name, x.node.get .name = .str name := by
  obtain ⟨⟨id, name⟩, hf, -⟩ := Option.bind_eq_some_iff.mp h
  obtain ⟨hname, -, hk, -⟩ := Node.localFetch?_eq_some_iff.mp hf
  exact ⟨hk, name, hname⟩

theorem quiet_of_keeps {s t : Session (Renamer γ)} (h : Keeps s t) (hs : Calm s) : Calm t :=
  ⟨h.shares ▸ hs.1, hs.2.of_threshold h.threshold⟩

theorem commutes_patches {σ : Type} (w : Sweep σ) (n : Node) (s : Session (Renamer γ)) :
    w.Commutes (sweep.patches n s) n := by
  simp only [sweep]
  cases hx : fetchRewriting s.own.map s.classes ⟨{}, n⟩ with
  | none => trivial
  | some new =>
    obtain ⟨-, name, hname⟩ := fetchRewriting_literal hx
    have hget : n.get .name = .str name := hname
    exact ⟨fun u => by simp [hget], trivial⟩

/-- Renaming fetches sweeps the unit. -/
theorem describes (supply : Names.Supply γ) :
    (sweep : Sweep (Renamer γ)).Describes [Renamer.visitor supply] Node.Legible Calm where
  settled hs := hs.1
  filled hn := hn.filled
  unshared hn := hn.unshared
  commutes {n s} hn := by
    rw [show sweep.place n s = n.place from rfl, Node.eta]
    exact commutes_patches sweep n s
  good {n s} hn h := by
    rw [dressed_eq, Node.eta]
    exact fun m hm => h m (Node.preorderAll_named hm)
  depth {n s} hn := by
    rw [dressed_eq, Node.eta]
    exact Node.depthAll_named_le ..
  ok_opened {n s} hn hs := quiet_of_keeps (keeps_enter n s) hs
  ok_closed hn hs := hs
  enter {n s} hn hs := by
    obtain ⟨r, hr, he⟩ := enter_eq hs.2 hn
    have hsubject : (Renamer.enter n s).subject =
        n.named (fetchRewriting s.own.map s.classes ⟨{}, n⟩) := congrArg Outcome.subject he
    have hreply : (Renamer.enter n s).reply = .ok r := congrArg Outcome.reply he
    have hkeep := sweep.keep_dressed (s := s) hn.unshared n.fields (enter n s).session
    rw [dressed_eq, Node.eta, ← hsubject] at hkeep ⊢
    rcases hr with rfl | rfl <;>
      simp only [callHooks, Renamer.visitor, hreply, Stand.accept, Session.done, hkeep, sweep]
  leave {n s t fields} hn ht h := by
    have hkeep := sweep.keep_dressed (s := s) hn.unshared fields t
    simp only [callHooks, Renamer.visitor, Stand.accept, Session.done, hkeep]
    rfl

mutual

theorem sweep_node (spot : Spot) (s : Session (Renamer γ)) : (n : Node) →
    (n.sweep sweep s).1 = n.rewrite (fetchRewriting s.own.map s.classes) spot ∧
      Keeps s (n.sweep sweep s).2
  | ⟨kind, place, fields⟩ => by
    have hkeeps := keeps_enter ⟨kind, place, fields⟩ s
    obtain ⟨hfields, hrest⟩ := sweep_fields (spot.under ⟨kind, place, fields⟩)
      (enter ⟨kind, place, fields⟩ s).session fields
    rw [hkeeps.map, hkeeps.classes] at hfields
    rw [Node.sweep, Node.rewrite_eq]
    refine ⟨?_, hkeeps.trans hrest⟩
    rw [dressed_eq]
    exact congrArg (fun fs => Node.named ⟨kind, place, fs⟩ _) hfields

theorem sweep_value (spot : Spot) (s : Session (Renamer γ)) : (v : Value) →
    (v.sweep sweep s).1 = v.rewrite (fetchRewriting s.own.map s.classes) spot ∧
      Keeps s (v.sweep sweep s).2
  | .node n => by
    obtain ⟨hn, hkeeps⟩ := sweep_node spot s n
    rw [Value.sweep, Value.rewrite, hn]
    exact ⟨rfl, hkeeps⟩
  | .list vs => by
    obtain ⟨hvs, hkeeps⟩ := sweep_fields spot s vs
    rw [Value.sweep, Value.rewrite, Value.rewriteAll_eq_map]
    split
    · exact ⟨congrArg Value.list hvs, hkeeps⟩
    · exact ⟨rfl, Keeps.refl s⟩
  | .atom _ | .object => by
    rw [Value.sweep, Value.rewrite]
    · exact ⟨rfl, Keeps.refl s⟩
    all_goals simp

theorem sweep_fields (spot : Spot) (s : Session (Renamer γ)) : (vs : List Value) →
    (Value.sweepAll sweep s vs).1 =
        vs.map (Value.rewrite (fetchRewriting s.own.map s.classes) spot) ∧
      Keeps s (Value.sweepAll sweep s vs).2
  | [] => ⟨rfl, Keeps.refl s⟩
  | v :: vs => by
    obtain ⟨hv, hkeeps⟩ := sweep_value spot s v
    obtain ⟨hvs, hkeeps'⟩ := sweep_fields spot (v.sweep sweep s).2 vs
    rw [hkeeps.map, hkeeps.classes] at hvs
    rw [Value.sweepAll, List.map_cons, hv, hvs]
    exact ⟨rfl, hkeeps.trans hkeeps'⟩

end

/-- Sweeping a unit for fetches rewrites it. -/
theorem sweepUnit_eq (s : Session (Renamer γ)) (unit : List Node) :
    (sweepUnit sweep s unit).1 = rewriteUnit (fetchRewriting s.own.map s.classes) unit ∧
      Keeps s (sweepUnit sweep s unit).2 := by
  induction unit generalizing s with
  | nil => exact ⟨rfl, Keeps.refl s⟩
  | cons n unit ih =>
    obtain ⟨hn, hkeeps⟩ := sweep_node {} s n
    obtain ⟨hunit, hkeeps'⟩ := ih (n.sweep sweep s).2
    rw [hkeeps.map, hkeeps.classes] at hunit
    rw [sweepUnit, hn, hunit]
    exact ⟨rfl, hkeeps.trans hkeeps'⟩

end Renamer

end PropertyRenaming
