import PropertyRenaming.Tree.Basic

namespace PropertyRenaming

mutual

def Value.quoted : Value → String
  | .atom a => a.quoted
  | .list vs => "[" ++ String.intercalate ", " (Value.quotedAll vs) ++ "]"
  | .node n => n.quoted
  | .object => "\x7b\x7d"

def Node.quoted : Node → String
  | ⟨kind, _, fields⟩ =>
    let parts := (kind.fields.zip (Value.quotedAll fields)).map fun (f, v) => f.label ++ "=" ++ v
    kind.label ++ "(" ++ String.intercalate ", " parts ++ ")"

def Value.quotedAll : List Value → List String
  | [] => []
  | v :: vs => v.quoted :: Value.quotedAll vs

end

def Value.spelling : Value → String
  | .atom a => a.spelling
  | v => v.quoted

end PropertyRenaming
