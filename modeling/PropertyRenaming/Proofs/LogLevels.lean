import PropertyRenaming.Proofs.Substitution
import PropertyRenaming.Proofs.VisitorLevels

namespace PropertyRenaming

open Logged

section Runs

variable {γ : Type}

theorem stoppable_resolveUnit (unit : List Node) :
    Stoppable (resolveUnit unit : Session γ → _) := by
  intro s
  have hheeds : ∀ v ∈ [Context.visitor], v.Heeds := by simpa using Context.heeds_visitor
  exact (stoppable_traverse hheeds (depth unit) unit (s.withOwn {})).withOwn s.own

theorem stoppable_renameResolved {supply : Names.Supply γ} (hsupply : Names.Unstopped supply)
    (settings : Settings) (nodes : List Node) :
    Stoppable (renameResolved supply settings nodes) := by
  intro s
  have hheeds : ∀ v ∈ [Renamer.visitor supply], v.Heeds := by
    simpa using Renamer.heeds_visitor hsupply
  let renamer : Renamer γ :=
    { memory := s.own, map := { perClass := settings.scopedKeys }, ignore := settings.ignore }
  exact (stoppable_traverse hheeds (depth nodes) nodes (s.withOwn renamer)).map id
    (fun _ t => t.withOwn t.own.memory) (fun _ t => t.own.report) (fun _ _ => rfl)
    (fun _ _ _ => rfl) fun _ _ _ _ => rfl

theorem stoppable_renameWith {supply : Names.Supply γ} (hsupply : Names.Unstopped supply)
    (settings : Settings) (unit : List Node) : Stoppable (renameWith supply settings unit) := by
  intro s
  unfold renameWith
  cases hcheck : settings.check with
  | error e => exact stoppable_fail unit (Settings.check_ne hcheck) s
  | ok strategy =>
    refine charted_note s (unitStart unit settings) unit fun t => ?_
    have hresolved := (stoppable_resolveUnit unit t).follow id
      (fun _ u nodes => renameResolved supply settings nodes u)
      fun _ u nodes => stoppable_renameResolved hsupply settings nodes u
    refine hresolved.congr fun level => ?_
    dsimp only [Outcome.follow]
    cases (resolveUnit unit (t.atLevel level)).reply <;> rfl

theorem stoppable_renameUnit (settings : Settings) (unit : List Node) :
    Stoppable (renameUnit settings unit) := by
  intro s
  unfold renameUnit
  cases hcheck : settings.check with
  | error e => exact stoppable_fail unit (Settings.check_ne hcheck) s
  | ok strategy =>
    cases hsource : Names.Source.ofSettings settings with
    | error e =>
      exact stoppable_fail unit (Names.Source.ofSettings_ne hsource) s
    | ok source =>
      have hrun := stoppable_renameWith Names.Source.unstopped_draw settings unit
      exact (hrun (s.withOwn source)).withOwn ()

end Runs

section Levels

variable {σ α ρ : Type}

def silentLevel : Int := 31

def Session.heardFrom (level : Int) (s : Session σ) : Session σ :=
  { s with log := { threshold := level } }

/-- The same is returned, or there is the same fault, and the same is left. -/
def Outcome.Agrees (o o' : Outcome σ α ρ) : Prop := o.subject = o'.subject ∧ o.reply = o'.reply

/-- One of the records that are written when nothing is shown would stop the run at a level. -/
def StoppedAt (run : Int → Outcome σ α ρ) (level : Int) : Prop :=
  ∃ r ∈ (run silentLevel).session.log.written, r.stopsAt level = true

/-- Exactly when the level of the log makes no difference to a run. -/
structure LevelEffect (run : Int → Outcome σ α ρ) : Prop where
  /-- A record that stops a run stops it with its own fault. -/
  fault (l : Int) : (run l).reply = .error stopFault ↔ StoppedAt run l
  /-- Two levels agree if neither is stopped, or if both are and leave the same. -/
  agrees (l l' : Int) : (run l).Agrees (run l') ↔
    ¬ StoppedAt run l ∧ ¬ StoppedAt run l' ∨
      StoppedAt run l ∧ StoppedAt run l' ∧ (run l).subject = (run l').subject
  /-- Levels that the same records stop leave the same. -/
  same (l l' : Int) : (∀ r ∈ (run silentLevel).session.log.written,
    r.stopsAt l = r.stopsAt l') → (run l).Agrees (run l')
  /-- All levels agree if no record has a detail called `name`. -/
  all : (∀ l l', (run l).Agrees (run l')) ↔
    ∀ r ∈ (run silentLevel).session.log.written, r.clashes = false

theorem Record.stopsAt_silentLevel (r : Record) : r.stopsAt silentLevel = false := by
  have hrank : ¬ silentLevel ≤ r.level.rank := by
    cases r.level <;> decide
  simp [stopsAt, hrank]

theorem Course.result_silentLevel {R : Type} (c : Course R) : c.result silentLevel = c.final := by
  have hfind : (c.stops.find? fun e => e.1.stopsAt silentLevel) = none :=
    List.find?_eq_none.mpr fun e _ => by simp [Record.stopsAt_silentLevel]
  simp [Course.result, hfind]

theorem Charted.reply_silent {run : Int → Outcome σ α ρ} {before : List Record}
    (h : Charted run before) {level : Int} {a : ρ} (ha : (run level).reply = .ok a) :
    (run silentLevel).reply = .ok a := by
  obtain ⟨c, hc⟩ := h
  have hresult : c.result level = c.final := by
    unfold Course.result
    cases hfind : c.stops.find? fun e => e.1.stopsAt level with
    | none => rfl
    | some e =>
      have hfault := hc.stopped (List.mem_of_find?_eq_some hfind)
      have hreply : e.2.reply = .ok a := by
        rw [hc.run_eq, Course.result, hfind] at ha
        exact ha
      simp [fault?, hreply] at hfault
  rw [hc.run_eq, hresult] at ha
  rw [hc.run_eq, c.result_silentLevel]
  exact ha

theorem Course.Describes.written_silent {c : Course (Outcome σ α ρ)} {run : Int → Outcome σ α ρ}
    (h : c.Describes run []) :
    (run silentLevel).session.log.written = (c.stops.map Prod.fst).reverse := by
  have hw : c.final.session.log.written = (c.stops.map Prod.fst).reverse ++ [] := h.written_final
  rw [h.run_eq, c.result_silentLevel]
  exact hw.trans (List.append_nil _)

theorem Course.Describes.stoppedAt_iff {c : Course (Outcome σ α ρ)} {run : Int → Outcome σ α ρ}
    (h : c.Describes run []) (level : Int) :
    StoppedAt run level ↔ ∃ e, (c.stops.find? fun e => e.1.stopsAt level) = some e := by
  rw [← Option.isSome_iff_exists, List.find?_isSome, StoppedAt, h.written_silent]
  simp only [List.mem_reverse, List.mem_map, exists_exists_and_eq_and]

theorem Course.Describes.reply_iff {c : Course (Outcome σ α ρ)} {run : Int → Outcome σ α ρ}
    (h : c.Describes run []) (level : Int) :
    (run level).reply = .error stopFault ↔ StoppedAt run level := by
  have hfault : ∀ o : Outcome σ α ρ, fault? o = some stopFault ↔ o.reply = .error stopFault := by
    rintro ⟨x, s, reply⟩
    cases reply with
    | ok a => exact ⟨nofun, nofun⟩
    | error e =>
      exact ⟨fun he => congrArg _ (Option.some.inj he), fun he => congrArg _ (Except.error.inj he)⟩
  have hreply : (run level).reply = (c.result level).reply := by rw [h.run_eq]; rfl
  rw [hreply, h.stoppedAt_iff, ← hfault, Course.result]
  cases hfind : c.stops.find? fun e => e.1.stopsAt level with
  | none => simpa using h.unstopped
  | some e => simpa using h.stopped (List.mem_of_find?_eq_some hfind)

/-- A course at two levels, as far as the same records stop it. -/
theorem Course.Describes.agrees_of_same {c : Course (Outcome σ α ρ)}
    {run : Int → Outcome σ α ρ} (h : c.Describes run []) {l l' : Int}
    (hsame : ∀ r ∈ (run silentLevel).session.log.written, r.stopsAt l = r.stopsAt l') :
    (run l).Agrees (run l') := by
  have hfind : (c.stops.find? fun e => e.1.stopsAt l) = c.stops.find? fun e => e.1.stopsAt l' := by
    refine List.find?_congr fun e he => hsame e.1 ?_
    rw [h.written_silent, List.mem_reverse]
    exact List.mem_map_of_mem he
  rw [h.run_eq, h.run_eq, Course.result, Course.result, hfind]
  exact ⟨rfl, rfl⟩

theorem Charted.levelEffect {run : Int → Outcome σ α ρ} (h : Charted run []) : LevelEffect run := by
  obtain ⟨c, hc⟩ := h
  have hagrees : ∀ l l', (run l).Agrees (run l') ↔
      ¬ StoppedAt run l ∧ ¬ StoppedAt run l' ∨
        StoppedAt run l ∧ StoppedAt run l' ∧ (run l).subject = (run l').subject := by
    intro l l'
    constructor
    · rintro ⟨hsubject, hreply⟩
      have hiff : StoppedAt run l ↔ StoppedAt run l' := by
        rw [← hc.reply_iff, ← hc.reply_iff, hreply]
      by_cases hl : StoppedAt run l
      · exact Or.inr ⟨hl, hiff.mp hl, hsubject⟩
      · exact Or.inl ⟨hl, fun hl' => hl (hiff.mpr hl')⟩
    · rintro (⟨hl, hl'⟩ | ⟨hl, hl', hsubject⟩)
      · refine hc.agrees_of_same fun r hr => ?_
        have hno : ∀ {level : Int}, ¬ StoppedAt run level → r.stopsAt level = false := by
          intro level hlevel
          by_contra hstop
          exact hlevel ⟨r, hr, by simpa using hstop⟩
        rw [hno hl, hno hl']
      · exact ⟨hsubject, by rw [(hc.reply_iff l).mpr hl, (hc.reply_iff l').mpr hl']⟩
  have hsilent : ¬ StoppedAt run silentLevel := by
    rintro ⟨r, -, hr⟩
    simp [r.stopsAt_silentLevel] at hr
  refine ⟨hc.reply_iff, hagrees, fun l l' => hc.agrees_of_same, ?_, ?_⟩
  · intro hall r hr
    -- A record with such a detail stops the run at its own level.
    by_contra hclash
    have hstop : StoppedAt run r.level.rank := ⟨r, hr, by simpa [Record.stopsAt] using hclash⟩
    rcases (hagrees r.level.rank silentLevel).mp (hall _ _) with ⟨hno, -⟩ | ⟨-, hyes, -⟩
    · exact hno hstop
    · exact hsilent hyes
  · intro hclear l l'
    refine hc.agrees_of_same fun r hr => ?_
    simp [Record.stopsAt, hclear r hr]

/-- What the level of the log does to runs, with any supply of names and with that of the
settings. -/
theorem renameUnit_levelEffect (settings : Settings) (unit : List Node) :
    (∀ (γ : Type) (supply : Names.Supply γ), Names.Unstopped supply → ∀ s : Session γ,
      LevelEffect fun level => renameWith supply settings unit (s.heardFrom level)) ∧
      ∀ s : Session Unit,
        LevelEffect fun level => renameUnit settings unit (s.heardFrom level) := by
  constructor
  · intro γ supply hsupply s
    exact (stoppable_renameWith hsupply settings unit (s.heardFrom silentLevel)).levelEffect
  · intro s
    exact (stoppable_renameUnit settings unit (s.heardFrom silentLevel)).levelEffect

/-- The parent of a class is written out, which stops the run if that is shown. -/
theorem renameUnit_levels_differ :
    ¬ (renameUnit {} sampleUnit (sampleSession.heardFrom Level.debug.rank)).Agrees
      (renameUnit {} sampleUnit (sampleSession.heardFrom Level.warning.rank)) := by
  rintro ⟨-, hreply⟩
  have hstopped : (renameUnit {} sampleUnit (sampleSession.heardFrom Level.debug.rank)).reply =
      .error stopFault := rfl
  have hproper : Names.Proper {} := ⟨⟨.alphabetic, by decide⟩, "", rfl⟩
  rcases exists_completed hproper wellFormed_sampleUnit
    (s := sampleSession.heardFrom Level.warning.rank) (by decide) nofun with
    ⟨report, s', p, d, h⟩ | ⟨hhashed, -⟩
  · rw [hstopped, h.reply] at hreply
    cases hreply
  · cases hhashed

end Levels

end PropertyRenaming
