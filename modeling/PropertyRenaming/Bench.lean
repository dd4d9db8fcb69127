import PropertyRenaming.RenameUnit
import PropertyRenaming.Script
import PropertyRenaming.Walk.Probe

namespace PropertyRenaming

inductive Actor
  | idle
  | context (c : Context)
  | renamer (r : Renamer Names.Source)
  | script (sc : Script)

structure Bench where
  actors : List Actor := []
  /-- What scripts recorded, oldest first. -/
  events : List Event := []

namespace Bench

def put (i : Nat) (a : Actor) (b : Bench) : Bench := { b with actors := b.actors.set i a }

def context (i : Nat) (b : Bench) : Context :=
  match b.actors[i]? with
  | some (.context c) => c
  | _ => {}

def renamer (i : Nat) (b : Bench) : Renamer Names.Source :=
  match b.actors[i]? with
  | some (.renamer r) => r
  | _ => { memory := .counting }

def script (i : Nat) (b : Bench) : Script :=
  match b.actors[i]? with
  | some (.script sc) => sc
  | _ => {}

def visitor (b : Bench) (i : Nat) : Visitor Bench :=
  match b.actors[i]? with
  | some (.context _) => Context.visitor.focus (context i) fun c => put i (.context c)
  | some (.renamer _) =>
    (Renamer.visitor Names.Source.draw).focus (renamer i) fun r => put i (.renamer r)
  | some (.script sc) =>
    (Script.visitor i sc.label).focus (fun b => (script i b, b.events))
      fun (sc, events) b => { put i (.script sc) b with events }
  | _ => .idle "Idle"

/-- Scripts may build trees of any depth; a walk below this limit ends with a fault. -/
def maxDepth : Nat := 10000

def traverse (which : List Nat) (unit : List Node) (s : Session Bench) :
    Outcome Bench (List Node) (List Node) :=
  PropertyRenaming.traverse maxDepth (which.map s.own.visitor) unit s

def enterEach (i : Nat) (unit : List Node) (s : Session Bench) :
    List Node × Session Bench × Replies :=
  callEach (s.own.visitor i).enter unit s

def leaveEach (i : Nat) (unit : List Node) (s : Session Bench) :
    List Node × Session Bench × Replies :=
  callEach (s.own.visitor i).leave unit s

end Bench

end PropertyRenaming
