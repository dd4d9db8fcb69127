import PropertyRenaming.Log
import PropertyRenaming.RenameMap.Key

namespace PropertyRenaming

/-- The renames chosen so far, in the order in which their keys first came. -/
structure RenameMap where
  perClass : Bool := false
  entries : List (Key × Atom) := []

namespace RenameMap

def key (m : RenameMap) (name : Atom) (scope : Option Scope) : Except Fault Key :=
  match m.perClass, scope with
  | false, _ => .ok (.plain name)
  | true, some scope => .ok (.joined scope name)
  | true, none => .error (.scopeMissing name)

def find? (key : Key) : List (Key × Atom) → Option Atom
  | [] => none
  | (k, v) :: rest => if k.code = key.code then some v else find? key rest

def get? (m : RenameMap) (key : Key) : Option Atom := find? key m.entries

/-- Replaces the value of a key where it stands, or adds the key at the end. -/
def put (key : Key) (value : Atom) : List (Key × Atom) → List (Key × Atom)
  | [] => [(key, value)]
  | (k, v) :: rest =>
    if k.code = key.code then (k, value) :: rest else (k, v) :: put key value rest

def insert (m : RenameMap) (key : Key) (value : Atom) : RenameMap :=
  { m with entries := put key value m.entries }

theorem find?_put (key : Key) (value : Atom) (k : Key) (entries : List (Key × Atom)) :
    find? k (put key value entries) =
      if k.code = key.code then some value else find? k entries := by
  induction entries with
  | nil => simp [put, find?, eq_comm]
  | cons e rest ih =>
    obtain ⟨a, b⟩ := e
    by_cases ha : a.code = key.code
    · by_cases h : k.code = key.code
      · simp [put, find?, ha, h]
      · have hk : ¬ key.code = k.code := fun he => h he.symm
        simp [put, find?, ha, h, hk]
    · by_cases h : a.code = k.code
      · have hk : ¬ k.code = key.code := fun he => ha (h.trans he)
        simp [put, find?, h, hk]
      · simp [put, find?, ha, h, ih]

theorem get?_insert (m : RenameMap) (key : Key) (value : Atom) (k : Key) :
    (m.insert key value).get? k = if k.code = key.code then some value else m.get? k :=
  find?_put key value k m.entries

def clear (m : RenameMap) : RenameMap := { m with entries := [] }

def overwritten (name previous new : Atom) : Record :=
  { level := .debug, channel := .renameMap, message := "Overwriting recorded rename"
    details := [("original", .atom name), ("previous", .atom previous), ("new", .atom new)] }

def noteChange (name previous new : Atom) (log : Log) : Except Fault Log :=
  if previous = .nothing || previous.same new then .ok log
  else log.write (overwritten name previous new)

/-- Notes a rename; the last one of a key wins. -/
def record (m : RenameMap) (name new : Atom) (scope : Option Scope) (log : Log) :
    Except Fault (RenameMap × Log) := do
  let key ← m.key name scope
  let log ← noteChange name ((m.get? key).getD .nothing) new log
  return (m.insert key new, log)

def isRenamed (m : RenameMap) (name : Atom) (scope : Option Scope) : Except Fault Bool := do
  return (m.get? (← m.key name scope)).isSome

def lookup (m : RenameMap) (name : Atom) (scope : Option Scope) : Except Fault Atom := do
  let key ← m.key name scope
  match m.get? key with
  | some new => return new
  | none => throw (.neverRenamed key.shown.spelling)

/-- The names given out so far, leaving out the entry of one property. -/
def replacements (m : RenameMap) (excluding : Atom) (scope : Option Scope) :
    Except Fault (List Atom) := do
  let skipped ← if excluding = .nothing then .ok (.plain .nothing) else m.key excluding scope
  return (m.entries.filter fun e => e.1.code ≠ skipped.code).map (·.2)

end RenameMap

end PropertyRenaming
