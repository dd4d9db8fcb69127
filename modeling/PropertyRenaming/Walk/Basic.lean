import PropertyRenaming.Walk.Visitor

namespace PropertyRenaming

variable {σ : Type}

inductive Origin
  /-- That many first fields below the current node. -/
  | within (depth : Nat)
  /-- Given up for another node; this is how it was left. -/
  | apart (node : Node)

def Node.inner : (depth : Nat) → Node → Node
  | 0, n => n
  | depth + 1, n =>
    match n.fields with
    | .node first :: _ => first.inner depth
    | _ => n

/-- The node being walked, and where it came from. -/
structure Stand where
  node : Node
  origin : Origin

namespace Stand

def start (st : Stand) : Node :=
  match st.origin with
  | .within depth => st.node.inner depth
  | .apart node => node

def wrap (kind : Kind) (st : Stand) : Stand where
  node := .wrapping kind st.node
  origin := match st.origin with
    | .within depth => .within (depth + 1)
    | .apart node => .apart node

def replace (node : Node) (st : Stand) : Stand := ⟨node, .apart st.start⟩

/-- Takes up an answer, or says of what wrong type it is. A node that is given may be a copy of one
that has been walked. -/
def accept (walked : Shares) (st : Stand) : Reply → Except String Stand
  | .keep | .same => .ok st
  | .wrap kind => .ok (st.wrap kind)
  | .give (.node n) => .ok (st.replace (walked.refreshNode n))
  | .give v => .error v.typeName

end Stand

def badReply (message label : String) (hook : Hook) : Record :=
  { level := .warning, channel := .walk, message
    details := [("visitor", .str label), ("hook", .str hook.label)] }

/-- Shows a node to the visitors in turn, each after what the one before made of it. -/
def callHooks (hook : Hook) (call : Visitor σ → Node → Session σ → Outcome σ Node Reply) :
    List (Visitor σ) → Stand → Session σ → Outcome σ Stand Unit
  | [], st, s => s.done st ()
  | v :: vs, st, s =>
    let o := call v st.node s
    let st := { st with node := o.subject }
    match o.reply with
    | .error e => o.session.fail st e
    | .ok reply =>
      let s := o.session.keep o.subject
      match st.accept s.shares reply with
      | .ok st => callHooks hook call vs st s
      | .error type =>
        s.note (badReply "Visitor hook returned a non-node value" v.label hook) st
          fun s => s.fail st (.badNodeReply v.label hook type)

section Fields

variable (visit : Node → Session σ → Outcome σ Node Node)

/-- Walks a list of nodes. The nodes themselves are the subject, what became of them the reply. -/
def walkList : List Node → Session σ → Outcome σ (List Node) (List Node)
  | [], s => s.done [] []
  | n :: ns, s =>
    let o := visit (s.shares.refreshNode n) s
    match o.reply with
    | .error e => o.session.fail (o.subject :: ns) e
    | .ok n' =>
      let r := walkList ns o.session
      ⟨o.subject :: r.subject, r.session, r.reply.map (n' :: ·)⟩

def walkField (v : Value) (s : Session σ) : Outcome σ Value Value :=
  match v with
  | .node n =>
    let o := visit n s
    ⟨.node o.subject, o.session, o.reply.map .node⟩
  | .list vs =>
    match Value.nodesOf? vs with
    | some ns =>
      let o := walkList visit ns s
      ⟨.list (o.subject.map .node), o.session, o.reply.map fun ns => .list (ns.map .node)⟩
    | none => s.done (.list vs) (.list vs)
  | v => s.done v v

/-- Walks fields in order. Each takes up its result before the next one is walked; so after a fault a
field still holds the nodes it had, changed in place as far as the walk got. -/
def walkFields : List Value → Session σ → Outcome σ (List Value) Unit
  | [], s => s.done [] ()
  | v :: vs, s =>
    let o := walkField visit (s.shares.refresh v) s
    match o.reply with
    | .error e => o.session.fail (o.subject :: vs) e
    | .ok v' =>
      let r := walkFields vs o.session
      ⟨v' :: r.subject, r.session, r.reply⟩

end Fields

/-- Walks the fields of the current node. Its first field may hold the node the walk started from;
that one is then followed on its own way. -/
def Stand.walkFields (visit : (depth : Nat) → Node → Session σ → Outcome σ Node Node)
    (st : Stand) (s : Session σ) : Outcome σ Stand Unit :=
  match st.origin, st.node.fields with
  | .within (depth + 1), .node first :: rest =>
    let o := visit depth first s
    match o.reply with
    | .error e => o.session.fail { st with origin := .apart o.subject } e
    | .ok first' =>
      let r := PropertyRenaming.walkFields (visit 0) rest o.session
      let fields := (.node first' :: r.subject).map r.session.shares.refresh
      let start := r.session.shares.refreshNode o.subject
      ⟨⟨{ st.node with fields }, .apart start⟩, r.session, r.reply⟩
  | origin, fields =>
    let r := PropertyRenaming.walkFields (visit 0) fields s
    let fields := r.subject.map r.session.shares.refresh
    ⟨⟨{ st.node with fields }, origin⟩, r.session, r.reply⟩

/-- Walks a node at most `limit` nodes down. The subject is the node that stood `depth` first fields
below it, and the reply what became of it. -/
def walkNode (vs : List (Visitor σ)) :
    (limit depth : Nat) → Node → Session σ → Outcome σ Node Node
  | 0, depth, n, s => s.fail (n.inner depth) .tooDeep
  | limit + 1, depth, n, s =>
    let o := ((callHooks .enter Visitor.enter vs ⟨n, .within depth⟩ s).andThen
      fun st s => st.walkFields (walkNode vs limit) s).andThen
      fun st s => callHooks .leave Visitor.leave vs st s
    let s := o.session.keep o.subject.node
    ⟨s.shares.refreshNode o.subject.start, s, o.reply.map fun _ => o.subject.node⟩

/-- The list being walked, and the list the walk was called with if that is another one. -/
structure Roll where
  nodes : List Node
  caller : Option (List Node) := none

def Roll.start (r : Roll) : List Node := r.caller.getD r.nodes

def Roll.accept (walked : Shares) (r : Roll) : Reply → Option Roll
  | .keep | .same => some r
  | .give (.list vs) =>
    (Value.nodesOf? vs).map fun nodes => ⟨nodes.map walked.refreshNode, some r.start⟩
  | _ => none

/-- What has been walked when a hook is called with a unit. -/
def Hook.walked (t : Shares) : Hook → Shares
  | .before => t.settled
  | _ => t

def callUnitHooks (hook : Hook)
    (call : Visitor σ → List Node → Session σ → Outcome σ (List Node) Reply) :
    List (Visitor σ) → Roll → Session σ → Outcome σ Roll Unit
  | [], r, s => s.done r ()
  | v :: vs, r, s =>
    let o := call v r.nodes s
    let r := { r with nodes := o.subject }
    match o.reply with
    | .error e => o.session.fail r e
    | .ok reply =>
      match r.accept (hook.walked o.session.shares) reply with
      | some r => callUnitHooks hook call vs r o.session
      | none =>
        o.session.note (badReply "Visitor hook returned a non-list value" v.label hook) r
          fun s => s.fail r (.badUnitReply v.label hook)

/-- Takes up the result of a walk; what has become of the nodes is another list. -/
def Roll.conclude (r : Roll) (o : Outcome σ (List Node) (List Node)) : Outcome σ Roll Unit :=
  let now := o.session.shares.refreshNode
  let caller := (r.caller.getD o.subject).map now
  match o.reply with
  | .error e => o.session.fail ⟨o.subject.map now, caller⟩ e
  | .ok nodes => o.session.done ⟨nodes.map now, caller⟩ ()

def Roll.walk (visit : Node → Session σ → Outcome σ Node Node) (r : Roll) (s : Session σ) :
    Outcome σ Roll Unit :=
  r.conclude (walkList visit r.nodes s.settled)

/-- Walks a unit at most `limit` nodes down. -/
def traverse (limit : Nat) (vs : List (Visitor σ)) (unit : List Node) (s : Session σ) :
    Outcome σ (List Node) (List Node) :=
  let o := ((callUnitHooks .before Visitor.before vs ⟨unit, none⟩ s).andThen
    fun r s => r.walk (walkNode vs limit 0) s).andThen
    fun r s => callUnitHooks .after Visitor.after vs r s
  ⟨o.subject.start, o.session, o.reply.map fun _ => o.subject.nodes⟩

end PropertyRenaming
