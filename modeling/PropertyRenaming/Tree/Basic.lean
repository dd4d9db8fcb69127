import PropertyRenaming.Atom
import PropertyRenaming.Tree.Kind

namespace PropertyRenaming

abbrev ShareId := Nat

/-- Where a node stands, as far as that has been worked out. -/
structure Place where
  enclosing : Option ClassId := none
  ns : Option String := none
  /-- The number of a node that stands in more than one place; all copies with one number are that
  node. A node without a number stands in one place only, and no node stands below itself. -/
  share : Option ShareId := none
  deriving DecidableEq

mutual

inductive Value
  | atom (a : Atom)
  | list (items : List Value)
  | node (n : Node)
  /-- A record that is no node. -/
  | object

/-- A node holds one value for each of its kind's fields, in that order. -/
structure Node where
  kind : Kind
  place : Place
  fields : List Value

end

namespace Value

@[match_pattern] abbrev null : Value := atom .nothing
@[match_pattern] abbrev bool (b : Bool) : Value := atom (.flag b)
@[match_pattern] abbrev int (n : Int) : Value := atom (.number n)
@[match_pattern] abbrev str (s : String) : Value := atom (.text s)

instance : Inhabited Value := ⟨null⟩

def isNode : Value → Bool
  | node _ => true
  | _ => false

def isNull : Value → Bool
  | null => true
  | _ => false

def holds : Value → Bool
  | atom a => a.holds
  | list items => !items.isEmpty
  | node _ => true
  | object => true

def initial (kind : Kind) : Field → Value
  | .args | .stmts | .props | .params => .list []
  | .nullsafe => .bool false
  | .flags => if kind = .method then .int 1 else .null
  | _ => .null

def typeName : Value → String
  | atom a => a.typeName
  | list _ => "list"
  | node n => n.kind.label
  | object => "dict"

def str? : Value → Option String
  | str s => some s
  | _ => none

def nodesOf? : List Value → Option (List Node)
  | [] => some []
  | node n :: vs => (nodesOf? vs).map (n :: ·)
  | _ :: _ => none

def nodesOf : List Value → List Node
  | [] => []
  | node n :: vs => n :: nodesOf vs
  | _ :: vs => nodesOf vs

/-- The nodes a field leads to: a node, or the items of a list that holds nodes only. Whatever else a
field holds is carried along untouched. -/
def children : Value → List Node
  | node n => [n]
  | list vs => (nodesOf? vs).getD []
  | _ => []

end Value

namespace Node

/-- The value of a field, null if the kind has no such field. -/
def get (n : Node) (f : Field) : Value :=
  match n.kind.fields.idxOf? f with
  | some i => n.fields.getD i .null
  | none => .null

def set (n : Node) (f : Field) (v : Value) : Node :=
  match n.kind.fields.idxOf? f with
  | some i => { n with fields := n.fields.set i v }
  | none => n

def has (n : Node) (f : Field) : Bool := n.kind.fields.contains f

def wrapping (kind : Kind) (first : Node) : Node :=
  ⟨kind, {}, .node first :: kind.fields.tail.map (Value.initial kind)⟩

def childFields (n : Node) : List (Field × Value) :=
  (n.kind.fields.zip n.fields).filter fun e => !e.2.children.isEmpty

end Node

mutual

def Node.preorder : Node → List Node
  | ⟨kind, place, fields⟩ => ⟨kind, place, fields⟩ :: Value.preorderAll fields

def Value.preorder : Value → List Node
  | .node n => n.preorder
  | .list vs => if vs.all Value.isNode then Value.preorderAll vs else []
  | _ => []

def Value.preorderAll : List Value → List Node
  | [] => []
  | v :: vs => v.preorder ++ Value.preorderAll vs

end

def preorder (unit : List Node) : List Node := unit.flatMap Node.preorder

mutual

/-- The number of nodes on the longest way down. -/
def Node.depth : Node → Nat
  | ⟨_, _, fields⟩ => Value.depthAll fields + 1

def Value.depth : Value → Nat
  | .node n => n.depth
  | .list vs => Value.depthAll vs
  | _ => 0

def Value.depthAll : List Value → Nat
  | [] => 0
  | v :: vs => max v.depth (Value.depthAll vs)

end

def depth (unit : List Node) : Nat := (unit.map Node.depth).foldr max 0

mutual

/-- Equality of contents: places and class numbers are not compared. -/
def Node.same : Node → Node → Bool
  | ⟨kind, _, fields⟩, ⟨kind', _, fields'⟩ =>
    kind.label == kind'.label && Value.sameAll fields fields'

def Value.same : Value → Value → Bool
  | .atom a, .atom a' => a.same a'
  | .list vs, .list vs' => Value.sameAll vs vs'
  | .node n, .node n' => n.same n'
  | _, _ => false

def Value.sameAll : List Value → List Value → Bool
  | [], [] => true
  | v :: vs, v' :: vs' => v.same v' && Value.sameAll vs vs'
  | _, _ => false

end

end PropertyRenaming
