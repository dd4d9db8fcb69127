import PropertyRenaming.Fault
import PropertyRenaming.Identifier

namespace PropertyRenaming

inductive Strategy
  | alphabetic
  | hashed
  deriving DecidableEq

def Strategy.ofAtom? : Atom → Option Strategy
  | .text "alphabetic" => some .alphabetic
  | .text "hash" => some .hashed
  | _ => none

/-- The options as they were given; those that ask for a text take any plain value by its
spelling. -/
structure Settings where
  strategy : Atom := .text "alphabetic"
  /-- Stands in front of every generated name. -/
  lead : Atom := .text ""
  salt : Atom := .text ""
  /-- How many hexadecimal digits a hashed name keeps. -/
  hashLength : Int := 8
  /-- Whether renames are kept per class instead of per name. -/
  scopedKeys : Bool := false
  /-- Property names that are never replaced. -/
  ignore : List Atom := []

/-- A lead may be left out; one that is given has to be an identifier. -/
def checkLead : Atom → Except Fault Unit
  | .text s => if s = "" || isIdentifier s then .ok () else .error (.badLead s)
  | a => if a.holds then .error (.notText a.typeName) else .ok ()

def Settings.check (s : Settings) : Except Fault Strategy := do
  match Strategy.ofAtom? s.strategy with
  | none => .error (.unknownStrategy s.strategy)
  | some strategy =>
    checkLead s.lead
    if 4 ≤ s.hashLength && s.hashLength ≤ 32 then .ok strategy
    else .error (.badHashLength s.hashLength)

end PropertyRenaming
