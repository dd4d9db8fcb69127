import PropertyRenaming.Text.Lowercase

namespace PropertyRenaming.ClassName

def separator : Char := '\\'

def isSeparator (c : Char) : Bool := c == separator

def join (a b : String) : String := a ++ "\\" ++ b

/-- Words that mean a class relative to the place where they stand. -/
def specialNames : List String := ["self", "static", "parent"]

def isSpecial (s : String) : Bool := specialNames.contains (Text.lower s)

def isFullyQualified (s : String) : Bool := s.toList.head?.any isSeparator

def bare (s : String) : String := String.ofList (s.toList.dropWhile isSeparator)

def stripChars (cs : List Char) : List Char :=
  ((cs.dropWhile isSeparator).reverse.dropWhile isSeparator).reverse

def strip (s : String) : String := String.ofList (stripChars s.toList)

def lastSegment (s : String) : String :=
  String.ofList ((stripChars s.toList).reverse.takeWhile (!isSeparator ·)).reverse

def cut (s : String) : String × String :=
  (String.ofList (s.toList.takeWhile (!isSeparator ·)),
   String.ofList ((s.toList.dropWhile (!isSeparator ·)).drop 1))

/-- Imported names by lower-cased exposed name, the latest first. -/
abbrev Imports := List (String × String)

/-- A declared name in the namespace in force; an empty namespace counts as none. -/
def qualify (ns : Option String) (name : String) : String :=
  match ns with
  | some "" | none => name
  | some ns => join ns name

/-- The fully qualified form of a name: its first segment is looked up among the imports, and a
name that is not imported belongs to the namespace in force. -/
def resolve (ns : Option String) (imports : Imports) (s : String) : String :=
  if isSpecial s || isFullyQualified s then s
  else
    let (head, rest) := cut s
    "\\" ++ match imports.lookup (Text.lower head) with
      | some imported => if rest = "" then imported else join imported rest
      | none => qualify ns s

end PropertyRenaming.ClassName
