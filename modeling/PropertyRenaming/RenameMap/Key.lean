import PropertyRenaming.Tree.ClassTable

namespace PropertyRenaming

/-- A property's name, or a class scope and a name joined into one text. The number of a class
without a name never becomes part of that text, so such keys stay apart from all others. -/
inductive Key
  | plain (name : Atom)
  | unnamed (id : ClassId) (name : String)
  deriving DecidableEq

namespace Key

def joined (scope : Scope) (name : Atom) : Key :=
  match scope with
  | .unnamed id => .unnamed id name.spelling
  | .named v => .plain (.text (v.spelling ++ "::" ++ name.spelling))

/-- Keys with equal codes are the same key. -/
def code : Key → Key
  | plain name => plain name.code
  | k => k

def shown : Key → Atom
  | plain name => name
  | unnamed id name => .text ((Scope.unnamed id).shown.spelling ++ "::" ++ name)

end Key

end PropertyRenaming
