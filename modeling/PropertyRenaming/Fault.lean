import PropertyRenaming.Atom

namespace PropertyRenaming

/-- The four moments at which a visitor is called. -/
inductive Hook
  | before
  | enter
  | leave
  | after
  deriving DecidableEq

def Hook.label : Hook → String
  | .before => "before_traverse"
  | .enter => "enter_node"
  | .leave => "leave_node"
  | .after => "after_traverse"

inductive Fault
  | unknownStrategy (strategy : Atom)
  | badLead (lead : String)
  | badHashLength (length : Int)
  | notIdentifier (name : String)
  | namesExhausted (asked : Atom)
  | searchAbandoned (asked : Atom)
  | scopeMissing (name : Atom)
  | neverRenamed (key : String)
  | badUnitReply (visitor : String) (hook : Hook)
  | badNodeReply (visitor : String) (hook : Hook) (type : String)
  | detailTaken (key : String)
  | noOpenClass
  | lacksMember (type member : String)
  | notItems (type : String)
  | notAName (type : String)
  | notFlags (type : String)
  | notText (type : String)
  | tooDeep
  deriving DecidableEq

def Fault.message : Fault → String
  | .unknownStrategy a => "Unknown name strategy: " ++ a.quoted
  | .badLead s => "Prefix is not a valid identifier: " ++ Text.quote s
  | .badHashLength n => "Hash length must be within 4..32: " ++ toString n
  | .notIdentifier s => "Generated name is not an identifier: " ++ Text.quote s
  | .namesExhausted a => "exhausted at " ++ a.spelling
  | .searchAbandoned a => "no free name found for " ++ a.spelling
  | .scopeMissing a => "Scoped rename of " ++ a.quoted ++ " needs a class scope"
  | .neverRenamed key => "Name was never renamed: " ++ key
  | .badUnitReply v hook => v ++ "." ++ hook.label ++ " must return nodes"
  | .badNodeReply v hook type => v ++ "." ++ hook.label ++ " returned " ++ type
  | .detailTaken key => "Attempt to overwrite " ++ Text.quote key ++ " in LogRecord"
  | .noOpenClass => "pop from empty list"
  | .lacksMember type member =>
    Text.quote type ++ " object has no attribute " ++ Text.quote member
  | .notItems type => Text.quote type ++ " object is not iterable"
  | .notAName type => "unhashable type: " ++ Text.quote type
  | .notFlags type => "unsupported operand type(s) for &: " ++ Text.quote type ++ " and 'Modifier'"
  | .notText type => "expected string or bytes-like object, got " ++ Text.quote type
  | .tooDeep => "tree too deep"

end PropertyRenaming
