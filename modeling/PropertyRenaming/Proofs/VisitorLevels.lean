import PropertyRenaming.Proofs.Course

namespace PropertyRenaming

open Logged

namespace Context

theorem stoppable_resolveToken (f : Field) (token n : Node) :
    Stoppable (resolveToken f token n) := by
  intro s
  unfold resolveToken
  cases htext : token.tokenText with
  | error e => exact stoppable_fail n (Node.tokenText_ne htext) s
  | ok name =>
    have hown : ∀ level, (s.atLevel level).own = s.own := fun _ => rfl
    simp only [hown]
    by_cases hfull : ClassName.resolve s.own.ns s.own.imports name = name
    · simp only [if_pos hfull]
      exact stoppable_done n () s
    · simp only [if_neg hfull]
      exact charted_note s _ n (stoppable_done _ ())

theorem stoppable_resolveCls (n : Node) : Stoppable fun s : Session Context =>
    match (n.get .cls).token? with
    | some token => resolveToken .cls token n s
    | none => s.done n () := by
  cases (n.get .cls).token? with
  | some token => exact stoppable_resolveToken .cls token n
  | none => exact stoppable_done n ()

theorem stoppable_resolveReference (n : Node) : Stoppable (resolveReference n) := by
  have hfield : ∀ f, Stoppable (resolveField f n) := by
    intro f
    unfold resolveField
    cases (n.get f).token? with
    | some token => exact stoppable_resolveToken f token n
    | none =>
      by_cases hnull : (n.get f).isNull = true
      · simp only [hnull, if_true]
        exact stoppable_done n ()
      · simp only [hnull]
        exact stoppable_fail n (by simp [stopFault])
  unfold resolveReference
  cases n.kind with
  | classDecl id => exact hfield .parent
  | param => exact hfield .type
  | staticFetch | instantiate => exact stoppable_resolveCls n
  | _ => exact stoppable_done n ()

theorem nameNode_atLevel (n : Node) (s : Session Context) (level : Int) :
    nameNode n (s.atLevel level) = ((nameNode n s).1, (nameNode n s).2.atLevel level) := by
  unfold nameNode
  split
  · unfold nameClass
    split <;> rfl
  · rfl

theorem log_nameNode (n : Node) (s : Session Context) : (nameNode n s).2.log = s.log := by
  unfold nameNode
  split
  · unfold nameClass
    split <;> rfl
  · rfl

theorem stoppable_openNode (n : Node) : Stoppable (openNode n) := by
  intro s
  have hown : ∀ level, (s.atLevel level).own = s.own := fun _ => rfl
  unfold openNode
  simp only [hown]
  cases hscope : openScope n s.own with
  | ok own => exact charted_of_silent ((s.withOwn own).done n Reply.keep) (fun _ => rfl) rfl nofun
  | error e => exact stoppable_fail n (openScope_ne hscope) s

theorem stoppable_enter (n : Node) : Stoppable (enter n) := by
  intro s
  have hown : ∀ level, (s.atLevel level).own = s.own := fun _ => rfl
  unfold enter
  simp only [hown, nameNode_atLevel, ← log_nameNode (s.own.stand n) s]
  exact (stoppable_resolveReference _ _).andThen fun m t => stoppable_openNode m t

theorem stoppable_leave (n : Node) : Stoppable (leave n) := by
  intro s
  have hown : ∀ level, (s.atLevel level).own = s.own := fun _ => rfl
  unfold leave
  simp only [hown]
  split
  · exact stoppable_fail n (e := .noOpenClass) nofun s
  · rename_i outer _ _
    exact charted_of_silent ((s.withOwn { s.own with classes := outer }).done n Reply.keep)
      (fun _ => rfl) rfl nofun
  · exact charted_of_silent ((s.withOwn s.own.closeNamespace).done n Reply.keep)
      (fun _ => rfl) rfl nofun
  · exact stoppable_done n Reply.keep s

theorem heeds_visitor : Context.visitor.Heeds where
  before unit s := charted_of_silent ((s.withOwn {}).done unit .keep) (fun _ => rfl) rfl nofun
  enter := stoppable_enter
  leave := stoppable_leave
  after unit := stoppable_done unit Reply.keep

end Context

theorem Log.write_atLevel (r : Record) (log : Log) (level : Int) :
    (log.atLevel level).write r =
      if r.stopsAt level then .error stopFault else .ok ((log.add r).atLevel level) := rfl

theorem Log.writeAll_atLevel (rs : List Record) (log : Log) (level : Int) :
    (log.atLevel level).writeAll rs =
      if rs.any fun r => r.stopsAt level then .error stopFault
      else .ok (Log.atLevel level { log with written := rs.reverse ++ log.written }) := by
  induction rs generalizing log with
  | nil => rfl
  | cons r rs ih =>
    have hstep : (log.atLevel level).writeAll (r :: rs) =
        ((log.atLevel level).write r).bind fun log => log.writeAll rs := rfl
    rw [hstep, write_atLevel]
    cases hr : r.stopsAt level with
    | true => simp [hr, Except.bind]
    | false => simpa [hr, Except.bind, Log.add] using ih (log.add r)

namespace Declarations

variable {γ : Type}

theorem charted_record (d : Drawing γ) (name new : Atom) (scope : Option Scope) :
    Charted (fun level =>
      match Drawing.record { d with log := d.log.atLevel level } name new scope with
      | .ok d' => (d', some new, none)
      | .error e => ({ d with log := d.log.atLevel level }, some new, some e)) d.log.written := by
  unfold Drawing.record RenameMap.record
  dsimp only
  cases hkey : d.map.key name scope with
  | error e =>
    exact charted_of_silent (d, some new, some e) (fun _ => rfl) rfl
      fun h => RenameMap.key_ne hkey (Option.some.inj h)
  | ok key =>
    -- The record of the rename comes last, after that of an overwritten one if there is any.
    have hlast : ∀ log : Log, Charted (fun level =>
        match (do
          let log ← (log.atLevel level).write (renamed name new scope)
          return { d with map := d.map.insert key new, log } : Except Fault (Drawing γ)) with
        | .ok d' => (d', some new, none)
        | .error e => ({ d with log := d.log.atLevel level }, some new, some e)) log.written := by
      intro log
      refine Charted.cons (r := renamed name new scope) (d, some new, some stopFault) rfl ?_
        (charted_of_silent ({ d with map := d.map.insert key new
                                     log := log.add (renamed name new scope) }, some new, none)
          (fun _ => rfl) rfl nofun)
      intro level
      rw [Log.write_atLevel]
      cases (renamed name new scope).stopsAt level <;> rfl
    dsimp only [bind, Except.bind, pure, Except.pure]
    unfold RenameMap.noteChange
    split
    · exact hlast d.log
    · refine Charted.cons (r := RenameMap.overwritten name ((d.map.get? key).getD .nothing) new)
        (d, some new, some stopFault) rfl ?_ (hlast (d.log.add _))
      intro level
      rw [Log.write_atLevel]
      cases (RenameMap.overwritten name ((d.map.get? key).getD .nothing) new).stopsAt level <;> rfl

theorem charted_drawn (name : Atom) {new : Except Fault Atom} (hnew : new ≠ .error stopFault)
    (scope : Option Scope) (d : Drawing γ) :
    Charted (fun level =>
      match new with
      | .error e => ({ d with log := d.log.atLevel level }, none, some e)
      | .ok new =>
        match Drawing.record { d with log := d.log.atLevel level } name new scope with
        | .ok d => (d, some new, none)
        | .error e => ({ d with log := d.log.atLevel level }, some new, some e)) d.log.written := by
  cases new with
  | error e =>
    refine charted_of_silent (d, none, some e) (fun _ => rfl) rfl fun h => ?_
    exact hnew (congrArg Except.error (Option.some.inj h))
  | ok new => exact charted_record d name new scope

/-- What the supply notes comes before what is noted of the name it draws. -/
theorem charted_draw {t : Terms γ} (ht : Names.Unstopped t.supply) (name : Atom)
    (scope : Option Scope) (d : Drawing γ) :
    Charted (fun level => t.draw name scope { d with log := d.log.atLevel level })
      d.log.written := by
  unfold Terms.draw
  dsimp only
  cases hothers : d.map.replacements name scope with
  | error e =>
    exact charted_of_silent (d, none, some e) (fun _ => rfl) rfl
      fun h => RenameMap.replacements_ne hothers (Option.some.inj h)
  | ok others =>
    obtain ⟨draw, hdraw⟩ : ∃ draw, draw = t.supply name (t.reserved ++ others) d.memory := ⟨_, rfl⟩
    obtain ⟨d', hd'⟩ : ∃ d' : Drawing γ, d' = { d with
        memory := draw.memory
        log := { d.log with written := draw.notes.reverse ++ d.log.written } } := ⟨_, rfl⟩
    have hnew : draw.name ≠ .error stopFault := hdraw ▸ ht _ _ _
    have hdrawn := charted_drawn name hnew scope d'
    have hwritten : d'.log.written = draw.notes.reverse ++ d.log.written := by rw [hd']
    rw [hwritten] at hdrawn
    refine Charted.append ({ d with memory := draw.memory }, none, some stopFault) rfl ?_ hdrawn
    intro level
    dsimp only [Names.request]
    rw [← hdraw, Log.writeAll_atLevel]
    cases draw.notes.any fun r => r.stopsAt level with
    | true => rfl
    | false =>
      rw [hd']
      rfl

theorem charted_serve {t : Terms γ} (ht : Names.Unstopped t.supply) {q : Request}
    (hq : q ≠ .bad stopFault) (d : Drawing γ) :
    Charted (fun level => t.serve q { d with log := d.log.atLevel level }) d.log.written := by
  unfold Terms.serve
  cases q with
  | bad e =>
    exact charted_of_silent (d, none, some e) (fun _ => rfl) rfl
      fun h => hq (congrArg Request.bad (Option.some.inj h))
  | item owner name slot =>
    dsimp only
    have hgiven : ∀ level, Drawing.given? { d with log := d.log.atLevel level } slot =
        d.given? slot := fun _ => rfl
    simp only [hgiven]
    obtain ⟨name', hname'⟩ : ∃ name', name' = (d.given? slot).getD name := ⟨_, rfl⟩
    rw [← hname']
    by_cases hignore : name'.isIn t.ignore = true
    · simp only [if_pos hignore]
      refine Charted.cons (r := ignored name') (d, none, some stopFault) rfl ?_
        (charted_of_silent ({ d with log := d.log.add (ignored name') }, none, none)
          (fun _ => rfl) rfl nofun)
      intro level
      rw [Log.write_atLevel]
      cases (ignored name').stopsAt level <;> rfl
    · simp only [if_neg hignore]
      refine (charted_draw ht name' (if d.map.perClass then some (t.scope owner) else none) d).bind
        (k := fun o => (o.1.give slot o.2.1, o.2.1, o.2.2)) ?_ ?_
      · rintro ⟨d', new, fault⟩ hfault
        refine ⟨hfault, fun level => ?_⟩
        cases slot <;> cases new <;> rfl
      · rintro ⟨d', new, fault⟩ hfault
        refine charted_of_silent (d'.give slot new, new, fault) (fun level => ?_) ?_ hfault
        · cases slot <;> cases new <;> rfl
        · cases slot <;> cases new <;> rfl

/-- Goes on with more requests after one has been served. -/
def Terms.serveRest (t : Terms γ) (qs : List Request) :
    Drawing γ × Option Atom × Option Fault → Drawing γ × List (Option Atom) × Option Fault
  | (d, name, some e) => (d, [name], some e)
  | (d, name, none) =>
    let (d, names, fault) := t.serveAll qs d
    (d, name :: names, fault)

theorem charted_serveAll {t : Terms γ} (ht : Names.Unstopped t.supply) {qs : List Request}
    (hqs : .bad stopFault ∉ qs) (d : Drawing γ) :
    Charted (fun level => t.serveAll qs { d with log := d.log.atLevel level }) d.log.written := by
  induction qs generalizing d with
  | nil => exact charted_of_silent (d, [], none) (fun _ => rfl) rfl nofun
  | cons q qs ih =>
    rw [List.mem_cons, not_or] at hqs
    refine (charted_serve ht (Ne.symm hqs.1) d).bind (k := t.serveRest qs) ?_ ?_
    · rintro ⟨d', name, fault⟩ hfault
      obtain rfl : fault = some stopFault := hfault
      exact ⟨rfl, fun _ => rfl⟩
    · rintro ⟨d', name, fault⟩ hfault
      cases fault with
      | some e => exact charted_of_silent (d', [name], some e) (fun _ => rfl) rfl hfault
      | none =>
        refine (ih hqs.2 d').bind (k := fun o => (o.1, name :: o.2.1, o.2.2)) ?_ ?_
        · exact fun o hfault => ⟨hfault, fun _ => rfl⟩
        · exact fun o hfault =>
            charted_of_silent (o.1, name :: o.2.1, o.2.2) (fun _ => rfl) rfl hfault

end Declarations

namespace Renamer

variable {γ : Type}

def drawn (unit : List Node) (s : Session (Renamer γ))
    (o : Declarations.Drawing γ × List (Option Atom) × Option Fault) :
    Outcome (Renamer γ) (List Node) Reply :=
  let unit := Declarations.rename (o.1.finalNames (Declarations.requests unit) o.2.1) unit
  let r := { s.own.restart with memory := o.1.memory, map := o.1.map }
  let s := { s with log := o.1.log }
  match o.2.2 with
  | some e => (s.withOwn r).fail unit e
  | none => (s.withOwn { r with declarations := o.2.1.countP Option.isSome }).done unit .keep

theorem before_ok {supply : Names.Supply γ} {unit : List Node} {reserved : List Atom}
    (h : reservedNames unit = .ok reserved) (s : Session (Renamer γ)) :
    before supply unit s = drawn unit s (Declarations.Terms.serveAll
      { supply, reserved, ignore := s.own.ignore, scope := s.classes.scope }
      (Declarations.requests unit)
      { memory := s.own.memory, map := s.own.map.clear, log := s.log }) := by
  simp only [before, h, Declarations.renameAll, drawn, restart]
  split
  · rename_i hcount
    split at hcount
    · cases hcount
    · rename_i hnone
      obtain rfl := Except.ok.inj hcount
      simp only [hnone]
  · rename_i hcount
    split at hcount
    · rename_i hsome
      obtain rfl := Except.error.inj hcount
      simp only [hsome]
    · cases hcount

theorem drawn_atLevel (unit : List Node) (s : Session (Renamer γ))
    (o : Declarations.Drawing γ × List (Option Atom) × Option Fault) (level : Int) :
    drawn unit s (atLevel level o) = atLevel level (drawn unit s o) := by
  obtain ⟨d, names, fault⟩ := o
  have hnames : ∀ qs names, Declarations.Drawing.finalNames
      { d with log := d.log.atLevel level } qs names = d.finalNames qs names := by
    intro qs
    induction qs with
    | nil => exact fun _ => rfl
    | cons q qs ih => exact fun names => congrArg _ (ih names.tail)
  simp only [drawn, atLevel, hnames]
  cases fault <;> rfl

theorem stoppable_before {supply : Names.Supply γ} (hsupply : Names.Unstopped supply)
    (unit : List Node) : Stoppable (before supply unit) := by
  intro s
  cases hreserved : reservedNames unit with
  | error e =>
    refine charted_of_silent ((s.withOwn s.own.restart).fail unit e) (fun level => ?_) rfl
      fun h => reservedNames_ne hreserved (Option.some.inj h)
    simp only [before, hreserved]
    rfl
  | ok reserved =>
    simp only [before_ok hreserved]
    let terms : Declarations.Terms γ :=
      { supply, reserved, ignore := s.own.ignore, scope := s.classes.scope }
    refine (Declarations.charted_serveAll (t := terms) hsupply
      (Declarations.stop_not_mem_requests unit)
      { memory := s.own.memory, map := s.own.map.clear, log := s.log }).bind
        (k := drawn unit s) ?_ ?_
    · rintro ⟨d, names, fault⟩ hfault
      obtain rfl : fault = some stopFault := hfault
      exact ⟨rfl, drawn_atLevel unit s _⟩
    · rintro ⟨d, names, fault⟩ hfault
      refine charted_of_silent (drawn unit s (d, names, fault)) (drawn_atLevel unit s _) ?_ ?_
      · cases fault <;> rfl
      · cases fault with
        | none => nofun
        | some e => exact hfault

theorem stoppable_renameFetch (name : String) (n : Node) :
    Stoppable (renameFetch name n : Session (Renamer γ) → _) := by
  intro s
  have hown : ∀ level, (s.atLevel level).own = s.own := fun _ => rfl
  have hscope : ∀ level, scopeOf n (s.atLevel level) = scopeOf n s := fun _ => rfl
  unfold renameFetch
  simp only [hown, hscope]
  cases hkey : s.own.map.key (.text name) (scopeOf n s) with
  | error e => exact stoppable_fail n (RenameMap.key_ne hkey) s
  | ok key =>
    dsimp only
    cases s.own.map.get? key with
    | none => exact stoppable_done n Reply.keep s
    | some new =>
      exact charted_of_silent ((s.withOwn { s.own with fetches := s.own.fetches + 1 }).done
        (n.set .name (.atom new)) Reply.same) (fun _ => rfl) rfl nofun

theorem stoppable_enter (n : Node) : Stoppable (enter n : Session (Renamer γ) → _) := by
  intro s
  have hskip : ∀ r : Record, Charted (fun level =>
      (skip (s.atLevel level)).note r n fun s => s.done n Reply.keep) s.log.written :=
    fun r => charted_note (skip s) r n (stoppable_done n Reply.keep)
  unfold enter
  by_cases hk : n.kind.isFetch = true
  · simp only [hk, if_true]
    split
    · rename_i name hname
      unfold enterFetch
      have hlocal : ∀ level, (s.atLevel level).classes.isLocal n = s.classes.isLocal n :=
        fun _ => rfl
      simp only [hlocal]
      split
      · rename_i e he
        exact stoppable_fail n (ClassTable.isLocal_ne he) s
      · exact stoppable_renameFetch name n s
      · exact hskip (foreignFetch name)
    · exact hskip dynamicFetch
  · simp only [hk]
    exact stoppable_done n Reply.keep s

theorem heeds_visitor {supply : Names.Supply γ} (hsupply : Names.Unstopped supply) :
    (visitor supply).Heeds where
  before := stoppable_before hsupply
  enter := stoppable_enter
  leave n := stoppable_done n Reply.keep
  after unit s := charted_note s s.own.summary unit (stoppable_done unit Reply.keep)

end Renamer

end PropertyRenaming
