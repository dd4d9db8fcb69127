import PropertyRenaming.Names.Supply
import PropertyRenaming.RenameMap
import PropertyRenaming.Tree.ClassTable

namespace PropertyRenaming

def privateBit : Nat := 4

def isPrivateFlags (flags : Int) : Bool := flags / privateBit % 2 == 1

def Value.asName : Value → Except Fault Atom
  | .atom a => .ok a
  | v => .error (.notAName v.typeName)

/-- The name that a node reserves: a declared one, or a fetched one that is written out. -/
def Node.reservedName? (n : Node) : Option (Except Fault Atom) :=
  if n.kind = .propertyItem then some (n.get .name).asName
  else if n.kind.isFetch then (n.get .name).str?.map fun s => .ok (.text s)
  else none

/-- Property names that no replacement may equal. -/
def reservedNames (unit : List Node) : Except Fault (List Atom) :=
  ((preorder unit).filterMap Node.reservedName?).mapM id

/-- An item below a shared node, by the number of the node and the rank among what is asked there.
All requests with one slot are for one item. -/
abbrev Slot := ShareId × Nat

/-- What is asked for a declared item: a name for it, or why there can be none. -/
inductive Request
  | item (owner : ClassId) (name : Atom) (slot : Option Slot)
  | bad (fault : Fault)

namespace Request

def ofName (owner : ClassId) : Except Fault Atom → Request
  | .ok name => .item owner name none
  | .error e => .bad e

def slot : Request → Option Slot
  | .item _ _ slot => slot
  | .bad _ => none

/-- The same request below a shared node, unless a node further down is shared too. -/
def below (id : ShareId) (rank : Nat) : Request → Request
  | .item owner name none => .item owner name (some (id, rank))
  | q => q

end Request

namespace Declarations

/-- Whether a declaration is private; a truth value counts as the number 0 or 1. -/
def isPrivate (n : Node) : Except Fault Bool :=
  match n.get .flags with
  | .int flags => .ok (isPrivateFlags flags)
  | .bool b => .ok (isPrivateFlags b.toInt)
  | v => .error (.notFlags v.typeName)

def itemName : Value → Except Fault Atom
  | .node n =>
    if n.has .name then (n.get .name).asName else .error (.lacksMember n.kind.label "name")
  | v => .error (.lacksMember v.typeName "name")

def itemNames : Value → List (Except Fault Atom)
  | .list items => items.map itemName
  | .str s => s.toList.map fun _ => .error (.lacksMember "str" "name")
  | v => [.error (.notItems v.typeName)]

def ownRequests (enclosing : Option ClassId) (n : Node) : List Request :=
  if n.kind = .propertyDecl then
    match isPrivate n, enclosing with
    | .error e, _ => [.bad e]
    | .ok true, some owner => (itemNames (n.get .props)).map (Request.ofName owner)
    | .ok _, _ => []
  else []

def inside (enclosing : Option ClassId) (kind : Kind) : Option ClassId :=
  kind.classId? <|> enclosing

/-- What is asked at a node that may be shared, and below it. -/
def sharedRequests : (share : Option ShareId) → List Request → List Request
  | none, qs => qs
  | some id, qs => qs.mapIdx (Request.below id)

mutual

def nodeRequests (enclosing : Option ClassId) : Node → List Request
  | ⟨kind, place, fields⟩ =>
    sharedRequests place.share (ownRequests enclosing ⟨kind, place, fields⟩ ++
      fieldRequests (inside enclosing kind) fields)

def valueRequests (enclosing : Option ClassId) : Value → List Request
  | .node n => nodeRequests enclosing n
  | .list vs => if vs.all Value.isNode then fieldRequests enclosing vs else []
  | _ => []

def fieldRequests (enclosing : Option ClassId) : List Value → List Request
  | [] => []
  | v :: vs => valueRequests enclosing v ++ fieldRequests enclosing vs

end

/-- The items of all private declarations inside classes, a declaration before what it contains. -/
def requests (unit : List Node) : List Request := unit.flatMap (nodeRequests none)

def renameItems : List (Option Atom) → List Value → List Value
  | some name :: names, .node n :: items =>
    .node (n.set .name (.atom name)) :: renameItems names items
  | _ :: names, item :: items => item :: renameItems names items
  | _, items => items

def renameOwn (names : List (Option Atom)) (n : Node) : Node :=
  match n.get .props with
  | .list items => n.set .props (.list (renameItems names items))
  | _ => n

mutual

/-- Puts drawn names back, and returns those left over for the nodes that follow. -/
def nodeRename (enclosing : Option ClassId) (names : List (Option Atom)) :
    Node → Node × List (Option Atom)
  | ⟨kind, place, fields⟩ =>
    let own := (ownRequests enclosing ⟨kind, place, fields⟩).length
    let (fields, rest) := fieldRename (inside enclosing kind) (names.drop own) fields
    (renameOwn (names.take own) ⟨kind, place, fields⟩, rest)

def valueRename (enclosing : Option ClassId) (names : List (Option Atom)) :
    Value → Value × List (Option Atom)
  | .node n =>
    let (n, rest) := nodeRename enclosing names n
    (.node n, rest)
  | .list vs =>
    if vs.all Value.isNode then
      let (vs, rest) := fieldRename enclosing names vs
      (.list vs, rest)
    else (.list vs, names)
  | v => (v, names)

def fieldRename (enclosing : Option ClassId) (names : List (Option Atom)) :
    List Value → List Value × List (Option Atom)
  | [] => ([], names)
  | v :: vs =>
    let (v, rest) := valueRename enclosing names v
    let (vs, rest) := fieldRename enclosing rest vs
    (v :: vs, rest)

end

def rename (names : List (Option Atom)) : List Node → List Node
  | [] => []
  | n :: ns =>
    let (n, rest) := nodeRename none names n
    n :: rename rest ns

/-- What drawing names works on. -/
structure Drawing (γ : Type) where
  memory : γ
  map : RenameMap
  log : Log
  /-- The names that items of shared nodes have got, the latest first. -/
  given : List (Slot × Atom) := []

def ignored (name : Atom) : Record :=
  { level := .info, channel := .declarations, message := "Leaving ignored property unchanged"
    details := [("name", .atom name)] }

def renamed (name new : Atom) (scope : Option Scope) : Record :=
  { level := .debug, channel := .declarations, message := "Scrambled private property"
    details := [("original", .atom name), ("replacement", .atom new),
      ("scope", (scope.map Scope.shown).getD .null)] }

/-- The rules under which names are drawn. -/
structure Terms (γ : Type) where
  supply : Names.Supply γ
  reserved : List Atom := []
  ignore : List Atom := []
  scope : ClassId → Scope

variable {γ : Type}

def Drawing.record (d : Drawing γ) (name new : Atom) (scope : Option Scope) :
    Except Fault (Drawing γ) := do
  let (map, log) ← d.map.record name new scope d.log
  let log ← log.write (renamed name new scope)
  return { d with map, log }

def Drawing.given? (d : Drawing γ) (slot : Option Slot) : Option Atom :=
  slot.bind (d.given.lookup ·)

def Drawing.give (d : Drawing γ) : Option Slot → Option Atom → Drawing γ
  | some slot, some new => { d with given := (slot, new) :: d.given }
  | _, _ => d

def Terms.draw (t : Terms γ) (name : Atom) (scope : Option Scope) (d : Drawing γ) :
    Drawing γ × Option Atom × Option Fault :=
  match d.map.replacements name scope with
  | .error e => (d, none, some e)
  | .ok others =>
    let (memory, log, drawn) := Names.request t.supply name (t.reserved ++ others) d.memory d.log
    let d := { d with memory, log }
    match drawn with
    | .error e => (d, none, some e)
    | .ok new =>
      match d.record name new scope with
      | .ok d => (d, some new, none)
      | .error e => (d, some new, some e)

/-- Serves one request: the new name if there is one, and a fault if the run stops here. -/
def Terms.serve (t : Terms γ) (q : Request) (d : Drawing γ) :
    Drawing γ × Option Atom × Option Fault :=
  match q with
  | .bad e => (d, none, some e)
  | .item owner name slot =>
    let name := (d.given? slot).getD name
    if name.isIn t.ignore then
      match d.log.write (ignored name) with
      | .ok log => ({ d with log }, none, none)
      | .error e => (d, none, some e)
    else
      let (d, new, fault) := t.draw name (if d.map.perClass then some (t.scope owner) else none) d
      (d.give slot new, new, fault)

def Terms.serveAll (t : Terms γ) :
    List Request → Drawing γ → Drawing γ × List (Option Atom) × Option Fault
  | [], d => (d, [], none)
  | q :: qs, d =>
    match t.serve q d with
    | (d, name, some e) => (d, [name], some e)
    | (d, name, none) =>
      let (d, names, fault) := t.serveAll qs d
      (d, name :: names, fault)

/-- The names that the items asked for have in the end: an item of a shared node has the last one
it has got, wherever it stands. -/
def Drawing.finalNames (d : Drawing γ) : List Request → List (Option Atom) → List (Option Atom)
  | [], _ => []
  | q :: qs, names =>
    (match q.slot with
      | some slot => d.given? slot
      | none => names.headD none) :: d.finalNames qs names.tail

structure Renamed (γ : Type) where
  unit : List Node
  drawing : Drawing γ
  /-- How many items got a new name, unless a request faulted. -/
  count : Except Fault Nat

def renameAll (t : Terms γ) (unit : List Node) (d : Drawing γ) : Renamed γ :=
  let (d, names, fault) := t.serveAll (requests unit) { d with given := [] }
  { unit := rename (d.finalNames (requests unit) names) unit
    drawing := d
    count := match fault with
      | some e => .error e
      | none => .ok (names.countP Option.isSome) }

end Declarations

end PropertyRenaming
