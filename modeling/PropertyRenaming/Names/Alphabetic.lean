import PropertyRenaming.Names.Supply
import PropertyRenaming.Names.Word

namespace PropertyRenaming.Names

def alphabeticCandidate (lead : String) (n : Nat) : String := lead ++ String.ofList (word n)

/-- Words differ from one another, so among one more words than there are taken names one is
free. -/
def alphabetic (lead : String) (asked : Atom) (taken : List Atom) : Except Fault Atom :=
  match leastFree? (alphabeticCandidate lead) taken (taken.length + 1) 0 with
  | some n => checked (alphabeticCandidate lead n)
  | none => .error (.searchAbandoned asked)

end PropertyRenaming.Names
