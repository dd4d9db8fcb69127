import PropertyRenaming.Text.Quoted

namespace PropertyRenaming

/-- A plain value. Property names are texts as a rule, but any plain value may stand for one. A text
consists of whole characters; half of a surrogate pair is none. -/
inductive Atom
  | nothing
  | flag (b : Bool)
  | number (n : Int)
  | text (s : String)
  deriving DecidableEq

namespace Atom

/-- Two plain values count as equal if their codes are: a truth value counts as 0 or 1. -/
def code : Atom → Atom
  | flag b => number b.toInt
  | a => a

def same (a b : Atom) : Bool := a.code == b.code

def isIn (a : Atom) (atoms : List Atom) : Bool := atoms.any (same a)

@[simp] theorem same_text (s t : String) : (text s).same (text t) = (s == t) := by
  rw [Bool.eq_iff_iff]
  simp [same, code]

/-- The value as it is written into a longer text. -/
def spelling : Atom → String
  | nothing => "None"
  | flag b => if b then "True" else "False"
  | number n => toString n
  | text s => s

def quoted : Atom → String
  | text s => Text.quote s
  | a => a.spelling

/-- Whether the value stands for a yes: neither nothing, nor no, nor 0, nor empty. -/
def holds : Atom → Bool
  | nothing => false
  | flag b => b
  | number n => n != 0
  | text s => s != ""

def typeName : Atom → String
  | nothing => "NoneType"
  | flag _ => "bool"
  | number _ => "int"
  | text _ => "str"

end Atom

end PropertyRenaming
