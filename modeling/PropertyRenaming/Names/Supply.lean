import PropertyRenaming.Log
import PropertyRenaming.Settings

namespace PropertyRenaming.Names

/-- What one request leaves: the memory, what is to be logged, and the name or the reason for
having none. -/
structure Draw (γ : Type) where
  memory : γ
  notes : List Record := []
  name : Except Fault Atom

/-- Asked with the name to replace and the names that are taken, a supply hands out a new name. It
may keep a memory between requests. -/
abbrev Supply (γ : Type) := (asked : Atom) → (taken : List Atom) → γ → Draw γ

def request {γ : Type} (supply : Supply γ) (asked : Atom) (taken : List Atom) (memory : γ)
    (log : Log) : γ × Log × Except Fault Atom :=
  let draw := supply asked taken memory
  match log.writeAll draw.notes with
  | .ok log => (draw.memory, log, draw.name)
  | .error e => (draw.memory, log, .error e)

def checked (name : String) : Except Fault Atom :=
  if isIdentifier name then .ok (.text name) else .error (.notIdentifier name)

/-- The number of the first candidate that is not taken, among `tries` candidates. -/
def leastFree? (candidate : Nat → String) (taken : List Atom) : (tries first : Nat) → Option Nat
  | 0, _ => none
  | tries + 1, n =>
    if taken.contains (.text (candidate n)) then leastFree? candidate taken tries (n + 1)
    else some n

end PropertyRenaming.Names
