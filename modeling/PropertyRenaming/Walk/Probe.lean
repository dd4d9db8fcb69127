import PropertyRenaming.Walk.Visitor

namespace PropertyRenaming

variable {σ : Type}

abbrev Replies := List (Except Fault Reply)

/-- Whether a field still holds the nodes it held before a call. A qualified name may have been
replaced by a class's name, the nodes of which are shared. -/
def keptNodes (f : Field) (old new : Value) : Bool :=
  f != .qualifiedName ||
    old.children.map (·.place.share) == new.children.map (·.place.share)

mutual

/-- Calls a hook on a node and on those below it. The first node tells what stood below it before
the first call, the second one how it is now. -/
def probeNode (call : Node → Session σ → Outcome σ Node Reply) :
    (old now : Node) → Session σ × Replies → Node × Session σ × Replies
  | ⟨kind, _, fields⟩, now, (s, replies) =>
    let o := call now s
    let (fields, s, replies) :=
      probeFields call kind.fields fields o.subject.fields (o.session, replies ++ [o.reply])
    let n := { o.subject with fields := fields.map s.shares.refresh }
    (n, s.keep n, replies)

def probeValue (call : Node → Session σ → Outcome σ Node Reply) :
    (old now : Value) → Session σ × Replies → Value × Session σ × Replies
  | .node old, .node now, s =>
    let (n, s) := probeNode call old now s
    (.node n, s)
  | .list old, .list now, s =>
    if old.all Value.isNode then
      let (vs, s) := probeItems call old now s
      (.list vs, s)
    else (.list now, s)
  | _, now, s => (now, s)

def probeItems (call : Node → Session σ → Outcome σ Node Reply) :
    (old now : List Value) → Session σ × Replies → List Value × Session σ × Replies
  | v :: vs, v' :: vs', s =>
    let (v', s) := probeValue call v (s.1.shares.refresh v') s
    let (vs', s) := probeItems call vs vs' s
    (v' :: vs', s)
  | _, now, s => (now, s)

/-- Goes on below a node. Nodes that the call took out of a field have their turn too; the field
does not show it. -/
def probeFields (call : Node → Session σ → Outcome σ Node Reply) : List Field →
    (old now : List Value) → Session σ × Replies → List Value × Session σ × Replies
  | f :: fs, v :: vs, v' :: vs', s =>
    let (v', s) :=
      if keptNodes f v v' then probeValue call v (s.1.shares.refresh v') s
      else (v', (probeValue call v (s.1.shares.refresh v) s).2)
    let (vs', s) := probeFields call fs vs vs' s
    (v' :: vs', s)
  | _, _, now, s => (now, s)

end

def callEach (call : Node → Session σ → Outcome σ Node Reply) (unit : List Node) (s : Session σ) :
    List Node × Session σ × Replies :=
  let (vs, s) := probeItems call (unit.map .node) (unit.map .node) (s.settled, [])
  ((Value.nodesOf vs).map s.1.shares.refreshNode, s)

end PropertyRenaming
