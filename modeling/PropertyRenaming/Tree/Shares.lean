import PropertyRenaming.Tree.Basic

namespace PropertyRenaming

mutual

/-- Puts a node in the place of all copies with a number. -/
def Node.putShared (id : ShareId) (new : Node) : Node → Node
  | ⟨kind, place, fields⟩ =>
    if place.share = some id then new else ⟨kind, place, Value.putSharedAll id new fields⟩

def Value.putShared (id : ShareId) (new : Node) : Value → Value
  | .node n => .node (Node.putShared id new n)
  | .list vs => .list (Value.putSharedAll id new vs)
  | v => v

def Value.putSharedAll (id : ShareId) (new : Node) : List Value → List Value
  | [] => []
  | v :: vs => v.putShared id new :: Value.putSharedAll id new vs

end

/-- Nodes may stand in several places at once: a class whose name is a node, and which no namespace
qualifies, has that very node for its qualified name. A pass over the tree reaches the copies of such
a node one after another, so it keeps the nodes it has changed and brings each copy up to date before
it is reached, and all of them in the end. Between passes copies agree. -/
structure Shares where
  /-- The next number to give. -/
  next : ShareId := 0
  /-- The shared nodes that the pass has changed, as they are now; they agree with one another. -/
  latest : List (ShareId × Node) := []

namespace Shares

def settled (t : Shares) : Shares := { t with latest := [] }

def keep (t : Shares) (n : Node) : Shares :=
  match n.place.share with
  | none => t
  | some id =>
    let others := (t.latest.filter (·.1 ≠ id)).map fun (i, m) => (i, Node.putShared id n m)
    { t with latest := (id, n) :: others }

def refresh (t : Shares) (v : Value) : Value :=
  t.latest.foldl (fun v e => v.putShared e.1 e.2) v

def refreshNode (t : Shares) (n : Node) : Node :=
  t.latest.foldl (fun n e => Node.putShared e.1 e.2 n) n

def share (t : Shares) (n : Node) : Node × Shares :=
  match n.place.share with
  | some _ => (n, t)
  | none =>
    ({ n with place := { n.place with share := some t.next } }, { t with next := t.next + 1 })

def shareAll (t : Shares) : List Node → List Node × Shares
  | [] => ([], t)
  | n :: ns =>
    let (n, t) := t.share n
    let (ns, t) := t.shareAll ns
    (n :: ns, t)

def shareValue (t : Shares) : Value → Value × Shares
  | .node n =>
    let (n, t) := t.share n
    (.node n, t)
  | .list vs =>
    match Value.nodesOf? vs with
    | some ns =>
      let (ns, t) := t.shareAll ns
      (.list (ns.map .node), t)
    | none => (.list vs, t)
  | v => (v, t)

@[simp] theorem keep_of_share_eq_none (t : Shares) {n : Node} (h : n.place.share = none) :
    t.keep n = t := by
  simp [keep, h]

@[simp] theorem refresh_node (t : Shares) (n : Node) :
    t.refresh (.node n) = .node (t.refreshNode n) := by
  unfold refresh refreshNode
  generalize t.latest = entries
  induction entries generalizing n with
  | nil => rfl
  | cons e entries ih => rw [List.foldl_cons, List.foldl_cons, Value.putShared, ih]

@[simp] theorem shareValue_atom (t : Shares) (a : Atom) : t.shareValue (.atom a) = (.atom a, t) :=
  rfl

end Shares

end PropertyRenaming
