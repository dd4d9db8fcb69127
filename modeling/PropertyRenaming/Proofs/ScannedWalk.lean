import PropertyRenaming.Proofs.OneWalk

namespace PropertyRenaming

open Context (Calm)

namespace Declarations

variable {γ : Type} {t : Terms γ} {d d' : Drawing γ} {qs : List Request}
  {names : List (Option Atom)}

theorem Terms.length_serveAll (h : t.serveAll qs d = (d', names, none)) :
    names.length = qs.length := by
  induction qs generalizing d names with
  | nil =>
    cases h
    rfl
  | cons q qs ih =>
    rw [Terms.serveAll] at h
    split at h
    · simp at h
    · rename_i d₁ name hserve
      obtain ⟨rfl, rfl, hfault⟩ : _ = d' ∧ _ = names ∧ _ = none := by simpa using h
      rw [List.length_cons, List.length_cons, ih (Prod.ext rfl (Prod.ext rfl hfault))]

/-- Without shared nodes, each item ends with the name that was drawn for it. -/
theorem Drawing.finalNames_eq_self (hslots : ∀ q ∈ qs, q.slot = none)
    (hlen : names.length = qs.length) (d : Drawing γ) : d.finalNames qs names = names := by
  induction qs generalizing names with
  | nil =>
    obtain rfl := List.length_eq_zero_iff.mp hlen
    rfl
  | cons q qs ih =>
    cases names with
    | nil => simp at hlen
    | cons name names =>
      simp only [Drawing.finalNames, hslots q List.mem_cons_self, List.headD_cons, List.tail_cons]
      rw [ih (fun q hq => hslots q (List.mem_cons_of_mem _ hq)) (by simpa using hlen)]

end Declarations

namespace Renamer

variable {γ : Type} {r : Renamer γ} {t : ClassTable}

def tally (r : Renamer γ) (t : ClassTable) (nodes : List Node) : Renamer γ :=
  nodes.foldl (fun r n => r.tallied n t) r

def isHit (m : RenameMap) (t : ClassTable) (n : Node) : Bool :=
  n.kind.isFetch && (fetchRewriting m t ⟨{}, n⟩).isSome

def isMiss (t : ClassTable) (n : Node) : Bool := n.kind.isFetch && (n.localFetch? t).isNone

theorem tally_append (r : Renamer γ) (t : ClassTable) (nodes nodes' : List Node) :
    r.tally t (nodes ++ nodes') = (r.tally t nodes).tally t nodes' := List.foldl_append

theorem tallied_eq (r : Renamer γ) (n : Node) (t : ClassTable) :
    r.tallied n t = { r with
      fetches := r.fetches + (if isHit r.map t n then 1 else 0)
      skipped := r.skipped + if isMiss t n then 1 else 0 } := by
  unfold tallied isHit isMiss fetchRewriting
  cases n.kind.isFetch with
  | false => rfl
  | true =>
    cases n.localFetch? t with
    | none => rfl
    | some e =>
      rw [Option.bind_some]
      generalize r.map.get? (propertyKey r.map.perClass t.scope e.1 (.text e.2)) = new
      cases new <;> rfl

theorem tally_eq (r : Renamer γ) (t : ClassTable) (nodes : List Node) :
    r.tally t nodes = { r with
      fetches := r.fetches + nodes.countP (isHit r.map t)
      skipped := r.skipped + nodes.countP (isMiss t) } := by
  induction nodes generalizing r with
  | nil => rfl
  | cons n nodes ih =>
    change (r.tallied n t).tally t nodes = _
    rw [ih, tallied_eq]
    simp only [List.countP_cons, Renamer.mk.injEq, true_and]
    omega

mutual

theorem own_sweep (s : Session (Renamer γ)) : (n : Node) → (∀ m ∈ n.preorder, m.Legible) →
    (n.sweep sweep s).2.own = s.own.tally s.classes n.preorder
  | ⟨kind, place, fields⟩, hn => by
    have hlegible := hn ⟨kind, place, fields⟩ (by simp [Node.preorder])
    have hbelow := own_sweepAll (enter ⟨kind, place, fields⟩ s).session fields fun m hm =>
      hn m (by simp [Node.preorder, hm])
    rw [own_enter hlegible, (keeps_enter ⟨kind, place, fields⟩ s).classes] at hbelow
    rw [Node.sweep, Node.preorder]
    exact hbelow

theorem own_sweepValue (s : Session (Renamer γ)) : (v : Value) → (∀ m ∈ v.preorder, m.Legible) →
    (v.sweep sweep s).2.own = s.own.tally s.classes v.preorder
  | .node n, hv => by
    rw [Value.preorder] at hv ⊢
    rw [Value.sweep, own_sweep s n hv]
  | .list vs, hv => by
    rw [Value.preorder] at hv ⊢
    rw [Value.sweep]
    split
    · rename_i hall
      rw [if_pos hall] at hv
      exact own_sweepAll s vs hv
    · rfl
  | .atom _, _ | .object, _ => by
    simp only [Value.sweep, Value.preorder]
    rfl

theorem own_sweepAll (s : Session (Renamer γ)) : (vs : List Value) →
    (∀ m ∈ Value.preorderAll vs, m.Legible) →
    (Value.sweepAll sweep s vs).2.own = s.own.tally s.classes (Value.preorderAll vs)
  | [], _ => rfl
  | v :: vs, hvs => by
    rw [Value.preorderAll] at hvs ⊢
    have hfirst := own_sweepValue s v fun m hm => hvs m (List.mem_append_left _ hm)
    have hrest := own_sweepAll (v.sweep sweep s).2 vs fun m hm => hvs m (List.mem_append_right _ hm)
    rw [Value.sweepAll, hrest, hfirst, (sweep_value {} s v).2.classes, tally_append]

end

theorem own_sweepUnit (s : Session (Renamer γ)) {unit : List Node}
    (hu : ∀ n ∈ preorder unit, n.Legible) :
    (sweepUnit sweep s unit).2.own = s.own.tally s.classes (preorder unit) := by
  have h := own_sweepAll s (unit.map .node) (by rwa [preorderAll_nodes])
  rwa [Value.sweepAll_nodes, preorderAll_nodes] at h

section Walks

variable {supply : Names.Supply γ} {limit : Nat} {unit : List Node} {s : Session (Renamer γ)}

/-- How a walk ends whose scan has ended with the given drawing and the given names. -/
structure Ended (supply : Names.Supply γ) (unit : List Node) (s : Session (Renamer γ))
    (d : Declarations.Drawing γ) (names : List (Option Atom))
    (o : Outcome (Renamer γ) (List Node) (List Node)) : Prop where
  served : (scanTerms supply unit s).serveAll (Declarations.requests unit) (scanStart s) =
    (d, names, none)
  subject : o.subject =
    rewriteUnit (fetchRewriting d.map s.classes) (Declarations.rename names unit)
  reply : o.reply = .ok o.subject
  quiet : o.session.log.Quiet
  classes : o.session.classes = s.classes
  own : o.session.own =
    { memory := d.memory
      map := d.map
      ignore := s.own.ignore
      declarations := names.countP Option.isSome
      fetches := (preorder (Declarations.rename names unit)).countP (isHit d.map s.classes)
      skipped := (preorder (Declarations.rename names unit)).countP (isMiss s.classes) }

def scanned (s : Session (Renamer γ)) (d : Declarations.Drawing γ) (names : List (Option Atom)) :
    Session (Renamer γ) :=
  ⟨d.log, s.classes, s.shares,
    { s.own.restart with memory := d.memory, map := d.map
                         declarations := names.countP Option.isSome }⟩

theorem before_of_served (hu : WellFormed unit) {d : Declarations.Drawing γ}
    {names : List (Option Atom)}
    (hserve : (scanTerms supply unit s).serveAll (Declarations.requests unit) (scanStart s) =
      (d, names, none)) :
    before supply unit s = (scanned s d names).done (Declarations.rename names unit) .keep := by
  have hslots : ∀ q ∈ Declarations.requests unit, q.slot = none := fun q hq =>
    (Declarations.slot_of_mem_requests hu hq).1
  rw [before_eq_drawn hu, hserve, drawn,
    Declarations.Drawing.finalNames_eq_self hslots (Declarations.Terms.length_serveAll hserve)]
  rfl

theorem quiet_of_served (hs : s.log.Quiet) {d : Declarations.Drawing γ}
    {names : List (Option Atom)}
    (hserve : (scanTerms supply unit s).serveAll (Declarations.requests unit) (scanStart s) =
      (d, names, none)) : d.log.Quiet := by
  have hgrows := (scanTerms supply unit s).serveAll_grows (Declarations.requests unit) (scanStart s)
  rw [hserve] at hgrows
  exact hs.of_threshold hgrows.threshold

/-- Once the scan has served all items, the walk comes to its end. -/
theorem ended_of_served (hu : WellFormed unit) (hd : depth unit ≤ limit) (hs : s.log.Quiet)
    {d : Declarations.Drawing γ} {names : List (Option Atom)}
    (hserve : (scanTerms supply unit s).serveAll (Declarations.requests unit) (scanStart s) =
      (d, names, none))
    (hnames : Declarations.Spares s.own.ignore Atom.IsText (Declarations.requests unit) names) :
    Ended supply unit s d names (traverse limit [visitor supply] unit s) := by
  have hquiet := quiet_of_served hs hserve
  have hlegible := Declarations.legible_rename hu hnames
  obtain ⟨hnodes, hkeeps⟩ :=
    sweepUnit_eq (scanned s d names).settled (Declarations.rename names unit)
  have hown := own_sweepUnit (scanned s d names).settled hlegible
  have hwalk := traverse_eq (before_of_served hu hserve)
    ((Declarations.depth_rename_le hu hnames).trans hd) hlegible hquiet
  rw [hwalk]
  exact {
    served := hserve
    subject := hnodes
    reply := rfl
    quiet := (hquiet.of_threshold hkeeps.threshold).add _
    classes := hkeeps.classes
    own := by
      rw [show _ = (sweepUnit sweep (scanned s d names).settled
        (Declarations.rename names unit)).2.own from rfl, hown, tally_eq]
      simp [Session.settled, scanned, restart] }

/-- A walk that comes to its end has served all items. -/
theorem exists_served (hu : WellFormed unit) {nodes : List Node}
    (h : (traverse limit [visitor supply] unit s).reply = .ok nodes) :
    ∃ d names, (scanTerms supply unit s).serveAll (Declarations.requests unit) (scanStart s) =
      (d, names, none) := by
  obtain ⟨⟨d, names, fault⟩, hserve⟩ : ∃ o, (scanTerms supply unit s).serveAll
      (Declarations.requests unit) (scanStart s) = o := ⟨_, rfl⟩
  cases fault with
  | none => exact ⟨d, names, hserve⟩
  | some e =>
    have hbefore : (before supply unit s).reply = .error e := by
      rw [before_eq_drawn hu, hserve]
      rfl
    rw [traverse_of_before_error (v := visitor supply) hbefore] at h
    cases h

end Walks

end Renamer

/-- A run whose settings pass walks over the unit as it is once its class context is known. -/
theorem exists_walk {γ : Type} (supply : Names.Supply γ) {settings : Settings}
    {strategy : Strategy} (hcheck : settings.check = .ok strategy) {unit : List Node}
    (hu : WellFormed unit) {s : Session γ} (hs : s.log.Quiet) :
    ∃ t : Session (Renamer γ), t.log.Quiet ∧ t.classes = (resolution unit s).2.classes ∧
      t.own = Renamer.start settings s.own ∧
      renameWith supply settings unit s =
        let nodes := (resolution unit s).1
        let o := traverse (depth nodes) [Renamer.visitor supply] nodes t
        ⟨o.subject, o.session.withOwn o.session.own.memory, o.reply.map o.session.own.report⟩ := by
  obtain ⟨s', hs'⟩ : ∃ s' : Session γ, s' = { s with log := s.log.add (unitStart unit settings) } :=
    ⟨_, rfl⟩
  have hquiet : s'.log.Quiet := hs' ▸ hs.add _
  refine ⟨(resolution unit s').2.withOwn (Renamer.start settings s'.own),
    (resolveUnit_eq hu hquiet).2.2, ?_, by rw [hs']; rfl, ?_⟩
  · change (resolution unit s').2.classes = _
    rw [classes_resolution, classes_resolution, hs']
  · rw [renameWith_eq hcheck hu hs hs', renameResolved_def, nodes_resolution unit s' s]
    rfl

end PropertyRenaming
