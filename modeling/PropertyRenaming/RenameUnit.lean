import PropertyRenaming.Context
import PropertyRenaming.Names.Source
import PropertyRenaming.Renamer

namespace PropertyRenaming

structure Report where
  nodes : List Node
  mapping : List (Key × Atom)
  declarations : Nat
  fetches : Nat
  skipped : Nat

def Renamer.report {γ : Type} (r : Renamer γ) (nodes : List Node) : Report :=
  ⟨nodes, r.map.entries, r.declarations, r.fetches, r.skipped⟩

def unitStart (unit : List Node) (settings : Settings) : Record :=
  { level := .debug, channel := .unit, message := "Scrambling unit"
    details := [("statements", .int unit.length), ("scoped_keys", .bool settings.scopedKeys)] }

/-- Walks a unit for its class context. Nodes are only annotated, so the walk never goes deeper than
the unit is. -/
def resolveUnit {γ : Type} (unit : List Node) (s : Session γ) : Outcome γ (List Node) (List Node) :=
  let o := traverse (depth unit) [Context.visitor] unit (s.withOwn {})
  ⟨o.subject, o.session.withOwn s.own, o.reply⟩

def renameResolved {γ : Type} (supply : Names.Supply γ) (settings : Settings) (unit : List Node)
    (s : Session γ) : Outcome γ (List Node) Report :=
  let renamer : Renamer γ :=
    { memory := s.own, map := { perClass := settings.scopedKeys }, ignore := settings.ignore }
  let o := traverse (depth unit) [Renamer.visitor supply] unit (s.withOwn renamer)
  ⟨o.subject, o.session.withOwn o.session.own.memory, o.reply.map o.session.own.report⟩

def renameWith {γ : Type} (supply : Names.Supply γ) (settings : Settings) (unit : List Node)
    (s : Session γ) : Outcome γ (List Node) Report :=
  match settings.check with
  | .error e => s.fail unit e
  | .ok _ =>
    s.note (unitStart unit settings) unit fun s =>
      let o := resolveUnit unit s
      match o.reply with
      | .error e => o.session.fail o.subject e
      | .ok nodes => renameResolved supply settings nodes o.session

/-- Renames the private properties of a unit with names as the settings ask for. -/
def renameUnit (settings : Settings) (unit : List Node) (s : Session Unit) :
    Outcome Unit (List Node) Report :=
  match settings.check, Names.Source.ofSettings settings with
  | .error e, _ | _, .error e => s.fail unit e
  | .ok _, .ok source =>
    let o := renameWith Names.Source.draw settings unit (s.withOwn source)
    ⟨o.subject, o.session.withOwn (), o.reply⟩

end PropertyRenaming
