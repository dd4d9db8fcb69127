import PropertyRenaming.Text.CaseTable

namespace PropertyRenaming.Text

/-- Whether the nearest character that is not looked through is a letter with a case. -/
def facesCased (cs : List Char) : Bool :=
  (cs.dropWhile isCaseIgnorable).head?.any isCased

def lowerChar (c : Char) : List Char :=
  if c.toNat < 128 then [c.toLower]
  else if c = '\u0130' then ['i', '\u0307']
  else [((caseRuns.findSome? (·.lower? c.toNat)).map Char.ofNat).getD c]

/-- The small sigma between the characters read before it, nearest first, and those after it. -/
def lowerSigma (before after : List Char) : Char :=
  if facesCased before && !facesCased after then '\u03c2' else '\u03c3'

def lowerFrom : (before rest : List Char) → List Char
  | _, [] => []
  | before, c :: cs =>
    (if c = '\u03a3' then [lowerSigma before cs] else lowerChar c) ++ lowerFrom (c :: before) cs

/-- Full lower-casing. Each character is mapped alone, except that a dotted capital I becomes two
characters and a capital sigma takes its final form at the end of a word. -/
def lower (s : String) : String := String.ofList (lowerFrom [] s.toList)

end PropertyRenaming.Text
