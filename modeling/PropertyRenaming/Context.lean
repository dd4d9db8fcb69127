import PropertyRenaming.Locality
import PropertyRenaming.Walk.Basic

namespace PropertyRenaming

/-- What is in force at a point of the walk; the innermost open class comes first. -/
structure Context where
  ns : Option String := none
  imports : ClassName.Imports := []
  classes : List ClassId := []

/-- A name without separators at either end; anything but a text is refused. -/
def Value.strippedName : Value → Except Fault String
  | .str s => .ok (ClassName.strip s)
  | v => .error (.lacksMember v.typeName "strip")

def exposedName (name shortName : Value) : Except Fault Value :=
  if shortName.isNull then name.strippedName.map fun s => .str (ClassName.lastSegment s)
  else .ok shortName

namespace Context

/-- A namespace declared without a name, or with an empty one, is the global one. -/
def nsOf (declared : Value) : Except Fault (Option String) :=
  if declared.holds then declared.strippedName.map some else .ok none

def closeNamespace (c : Context) : Context := { c with ns := none, imports := [] }

def addImport (c : Context) (name shortName : Value) : Except Fault Context := do
  let full ← name.strippedName
  match ← exposedName name shortName with
  | .str short => return { c with imports := (Text.lower short, full) :: c.imports }
  | v => throw (.lacksMember v.typeName "lower")

def stand (c : Context) (n : Node) : Node :=
  { n with place := { n.place with enclosing := c.classes.head?, ns := c.ns } }

def resolved (name full : String) : Record :=
  { level := .debug, channel := .context, message := "Resolved class name"
    details := [("name", .str name), ("resolved", .str full)] }

def resolveToken (f : Field) (token n : Node) (s : Session Context) : Outcome Context Node Unit :=
  match token.tokenText with
  | .error e => s.fail n e
  | .ok name =>
    let full := ClassName.resolve s.own.ns s.own.imports name
    if full = name then s.done n ()
    else s.note (resolved name full) n fun s =>
      s.done (n.set f (.node (token.set .value (.str full)))) ()

/-- Writes out the class name in a field, in which nothing but one is accepted. -/
def resolveField (f : Field) (n : Node) (s : Session Context) : Outcome Context Node Unit :=
  match (n.get f).token? with
  | some token => resolveToken f token n s
  | none =>
    if (n.get f).isNull then s.done n ()
    else s.fail n (.lacksMember (n.get f).typeName "is_special")

/-- Writes out the class name a node refers to. A parent class and a parameter's type are taken for
class names whatever they are; elsewhere other nodes may stand. -/
def resolveReference (n : Node) (s : Session Context) : Outcome Context Node Unit :=
  match n.kind with
  | .classDecl _ => resolveField .parent n s
  | .param => resolveField .type n s
  | .staticFetch | .instantiate =>
    match (n.get .cls).token? with
    | some token => resolveToken .cls token n s
    | none => s.done n ()
  | _ => s.done n ()

def qualified (ns : Option String) (name : Value) : Value :=
  match ns with
  | some "" | none => name
  | some ns => .str (ClassName.join ns name.spelling)

def nameClass (id : ClassId) (n : Node) (s : Session Context) : Node × Session Context :=
  if (n.get .name).isNull then (n, s)
  else
    let (name, shares) := s.shares.shareValue (n.get .name)
    let full := qualified s.own.ns name
    ((n.set .name name).set .qualifiedName full,
     { s with classes := s.classes.setName id full, shares })

def nameNode (n : Node) (s : Session Context) : Node × Session Context :=
  match n.kind with
  | .classDecl id => nameClass id n s
  | _ => (n, s)

def openScope (n : Node) (c : Context) : Except Fault Context :=
  match n.kind with
  | .namespaceBlock => (nsOf (n.get .name)).map fun ns => { c with ns, imports := [] }
  | .useImport => c.addImport (n.get .name) (n.get .shortName)
  | .classDecl id => .ok { c with classes := id :: c.classes }
  | _ => .ok c

def openNode (n : Node) (s : Session Context) : Outcome Context Node Reply :=
  match openScope n s.own with
  | .ok own => (s.withOwn own).done n .keep
  | .error e => s.fail n e

def enter (n : Node) (s : Session Context) : Outcome Context Node Reply :=
  let (n, s) := nameNode (s.own.stand n) s
  (resolveReference n s).andThen openNode

def leave (n : Node) (s : Session Context) : Outcome Context Node Reply :=
  match n.kind, s.own.classes with
  | .classDecl _, [] => s.fail n .noOpenClass
  | .classDecl _, _ :: outer => (s.withOwn { s.own with classes := outer }).done n .keep
  | .namespaceBlock, _ => (s.withOwn s.own.closeNamespace).done n .keep
  | _, _ => s.done n .keep

/-- The visitor that works out the class context of a unit. -/
def visitor : Visitor Context where
  label := "ClassContext"
  before unit s := (s.withOwn {}).done unit .keep
  enter := enter
  leave := leave
  after unit s := s.done unit .keep

end Context

end PropertyRenaming
