import PropertyRenaming.Declarations
import PropertyRenaming.Locality
import PropertyRenaming.Walk.Basic

namespace PropertyRenaming

structure Renamer (γ : Type) where
  /-- The memory of the supply of names. -/
  memory : γ
  map : RenameMap := {}
  ignore : List Atom := []
  declarations : Nat := 0
  fetches : Nat := 0
  skipped : Nat := 0

namespace Renamer

variable {γ : Type}

def dynamicFetch : Record :=
  { level := .debug, channel := .renamer, message := "Skipping fetch with dynamic name"
    details := [] }

def foreignFetch (name : String) : Record :=
  { level := .debug, channel := .renamer, message := "Skipping non-local fetch"
    details := [("name", .str name)] }

def summary (r : Renamer γ) : Record :=
  { level := .info, channel := .renamer, message := "Scrambled private properties"
    details := [("declarations_renamed", .int r.declarations),
      ("fetches_renamed", .int r.fetches), ("fetches_skipped", .int r.skipped)] }

/-- Forgets the renames of the unit before; its count of declarations stays until there is a new
one. -/
def restart (r : Renamer γ) : Renamer γ := { r with map := r.map.clear, fetches := 0, skipped := 0 }

def before (supply : Names.Supply γ) (unit : List Node) (s : Session (Renamer γ)) :
    Outcome (Renamer γ) (List Node) Reply :=
  let r := s.own.restart
  match reservedNames unit with
  | .error e => (s.withOwn r).fail unit e
  | .ok reserved =>
    let terms : Declarations.Terms γ :=
      { supply, reserved, ignore := r.ignore, scope := s.classes.scope }
    let o := Declarations.renameAll terms unit { memory := r.memory, map := r.map, log := s.log }
    let r := { r with memory := o.drawing.memory, map := o.drawing.map }
    let s := { s with log := o.drawing.log }
    match o.count with
    | .ok n => (s.withOwn { r with declarations := n }).done o.unit .keep
    | .error e => (s.withOwn r).fail o.unit e

def skip (s : Session (Renamer γ)) : Session (Renamer γ) :=
  s.withOwn { s.own with skipped := s.own.skipped + 1 }

def scopeOf (n : Node) (s : Session (Renamer γ)) : Option Scope :=
  if s.own.map.perClass then n.place.enclosing.map s.classes.scope else none

def renameFetch (name : String) (n : Node) (s : Session (Renamer γ)) :
    Outcome (Renamer γ) Node Reply :=
  match s.own.map.key (.text name) (scopeOf n s) with
  | .error e => s.fail n e
  | .ok key =>
    match s.own.map.get? key with
    | none => s.done n .keep
    | some new =>
      (s.withOwn { s.own with fetches := s.own.fetches + 1 }).done (n.set .name (.atom new)) .same

/-- Renames a fetch whose name is written out, if it is local. -/
def enterFetch (name : String) (n : Node) (s : Session (Renamer γ)) :
    Outcome (Renamer γ) Node Reply :=
  match s.classes.isLocal n with
  | .error e => s.fail n e
  | .ok true => renameFetch name n s
  | .ok false => (skip s).note (foreignFetch name) n fun s => s.done n .keep

def enter (n : Node) (s : Session (Renamer γ)) : Outcome (Renamer γ) Node Reply :=
  if n.kind.isFetch then
    match n.get .name with
    | .str name => enterFetch name n s
    | _ => (skip s).note dynamicFetch n fun s => s.done n .keep
  else s.done n .keep

def after (unit : List Node) (s : Session (Renamer γ)) : Outcome (Renamer γ) (List Node) Reply :=
  s.note s.own.summary unit fun s => s.done unit .keep

def visitor (supply : Names.Supply γ) : Visitor (Renamer γ) where
  label := "Renamer"
  before := before supply
  enter := enter
  leave node s := s.done node .keep
  after := after

end Renamer

end PropertyRenaming
