import PropertyRenaming.Walk.Basic

namespace PropertyRenaming

inductive Answer
  | nothing
  | same
  | wrap (kind : Kind)
  /-- A new copy of a tree, with classes of its own. -/
  | fresh (tree : Value)
  /-- A value as it is. -/
  | plain (value : Value)

/-- A null is no answer. -/
def Reply.ofValue : Value → Reply
  | .null => .keep
  | value => .give value

def Answer.reply (t : ClassTable) : Answer → Reply × ClassTable
  | .nothing => (.keep, t)
  | .same => (.same, t)
  | .wrap kind =>
    let (kind, t) := t.number kind
    (.wrap kind, t)
  | .fresh tree =>
    let (tree, t) := tree.renumber t
    (.ofValue tree, t)
  | .plain value => (.ofValue value, t)

/-- Answers nodes of one kind that have the given field values. -/
structure Rule where
  kind : Kind
  conditions : List (Field × Value) := []
  /-- How often the rule may still be used, if that is limited. -/
  uses : Option Nat := none
  answer : Answer

def Rule.matches (r : Rule) (n : Node) : Bool :=
  r.uses != some 0 && n.kind.label == r.kind.label &&
    r.conditions.all fun (f, v) => n.has f && (n.get f).same v

def Rule.use (r : Rule) : Rule := { r with uses := r.uses.map (· - 1) }

/-- The answer of the first rule that matches, which is thereby used once. -/
def applyRules (n : Node) : List Rule → Answer × List Rule
  | [] => (.nothing, [])
  | r :: rs =>
    if r.matches n then (r.answer, r.use :: rs)
    else
      let (answer, rs) := applyRules n rs
      (answer, r :: rs)

/-- A call of a hook, with the kind of the node or the length of the unit. -/
structure Event where
  visitor : Nat
  hook : Hook
  subject : String

structure Script where
  label : String := "Script"
  records : Bool := false
  before : Answer := .nothing
  after : Answer := .nothing
  enter : List Rule := []
  leave : List Rule := []

namespace Script

def observe (i : Nat) (hook : Hook) (subject : String) (sc : Script) (events : List Event) :
    List Event :=
  if sc.records then events ++ [⟨i, hook, subject⟩] else events

def onUnit (i : Nat) (hook : Hook) (answer : Script → Answer) (unit : List Node)
    (s : Session (Script × List Event)) : Outcome (Script × List Event) (List Node) Reply :=
  let (sc, events) := s.own
  let (reply, classes) := (answer sc).reply s.classes
  let events := sc.observe i hook (toString unit.length) events
  { s with classes, own := (sc, events) }.done unit reply

def onNode (i : Nat) (hook : Hook) (rules : Script → List Rule)
    (put : List Rule → Script → Script) (n : Node) (s : Session (Script × List Event)) :
    Outcome (Script × List Event) Node Reply :=
  let (sc, events) := s.own
  let (answer, used) := applyRules n (rules sc)
  let (reply, classes) := answer.reply s.classes
  let events := sc.observe i hook n.kind.label events
  { s with classes, own := (put used sc, events) }.done n reply

def visitor (i : Nat) (label : String) : Visitor (Script × List Event) where
  label
  before := onUnit i .before Script.before
  enter := onNode i .enter Script.enter fun rules sc => { sc with enter := rules }
  leave := onNode i .leave Script.leave fun rules sc => { sc with leave := rules }
  after := onUnit i .after Script.after

end Script

end PropertyRenaming
