import PropertyRenaming.Names.Alphabetic
import PropertyRenaming.Names.Hashed

namespace PropertyRenaming.Names

inductive Source
  | alphabetic (lead : String)
  | hashed (hashing : Hashing)
  /-- `n1`, `n2`, ... going on from the last number used. -/
  | numbered (last : Nat)
  /-- The listed names in turn, taken or not. -/
  | listed (names : List Atom)
  /-- The asked name with the number of distinct taken names behind it. -/
  | counting

def Source.ofSettings (s : Settings) : Except Fault Source :=
  match Strategy.ofAtom? s.strategy with
  | some .alphabetic => .ok (.alphabetic s.lead.spelling)
  | some .hashed =>
    .ok (.hashed ⟨s.salt.spelling, if s.lead.holds then s.lead.spelling else "", s.hashLength⟩)
  | none => .error (.unknownStrategy s.strategy)

def numberedCandidate (n : Nat) : String := "n" ++ toString n

def Source.draw : Supply Source
  | asked, taken, .alphabetic lead =>
    { memory := .alphabetic lead, name := Names.alphabetic lead asked taken }
  | asked, taken, .hashed h =>
    let (notes, name) := Names.hashed h asked taken
    { memory := .hashed h, notes, name }
  | asked, taken, .numbered last =>
    match leastFree? numberedCandidate taken (taken.length + 1) (last + 1) with
    | some n => { memory := .numbered n, name := .ok (.text (numberedCandidate n)) }
    | none => { memory := .numbered last, name := .error (.searchAbandoned asked) }
  | asked, _, .listed [] => { memory := .listed [], name := .error (.namesExhausted asked) }
  | _, _, .listed (name :: names) => { memory := .listed names, name := .ok name }
  | asked, taken, .counting =>
    let count := (taken.map Atom.code).eraseDups.length
    { memory := .counting, name := .ok (.text (asked.spelling ++ "_" ++ toString count)) }

end PropertyRenaming.Names
