import PropertyRenaming.ClassName
import PropertyRenaming.Fault
import PropertyRenaming.Tree.ClassTable

namespace PropertyRenaming

def Value.isThis : Value → Bool
  | .node n => n.kind == .variableRef && (n.get .name).str? == some "this"
  | _ => false

def Value.token? : Value → Option Node
  | .node n => if n.kind = .className then some n else none
  | _ => none

def Node.tokenText (token : Node) : Except Fault String :=
  match token.get .value with
  | .str s => .ok s
  | v => .error (.lacksMember v.typeName "lower")

/-- Whether a class name means the class with the given qualified name. -/
def meansClass (qualifiedName : Value) (name : String) : Bool :=
  Text.lower name == "self" ||
    !ClassName.isSpecial name && qualifiedName.str? == some (ClassName.bare name)

/-- A fetch surely means a property of the class around it if it is one on the object itself, on the
word for the own class, or on the own class by its qualified name. -/
def ClassTable.isLocal (t : ClassTable) (n : Node) : Except Fault Bool :=
  match n.place.enclosing, n.kind with
  | some _, .fetch => .ok (n.get .object).isThis
  | some id, .staticFetch =>
    match (n.get .cls).token? with
    | some token => token.tokenText.map (meansClass (t.name id))
    | none => .ok false
  | _, _ => .ok false

end PropertyRenaming
