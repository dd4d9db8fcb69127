import PropertyRenaming.Log
import PropertyRenaming.Tree.ClassTable
import PropertyRenaming.Tree.Shares

namespace PropertyRenaming

structure Session (σ : Type) where
  log : Log := {}
  classes : ClassTable := {}
  shares : Shares := {}
  own : σ

/-- After a fault the argument keeps the changes made so far. -/
structure Outcome (σ α ρ : Type) where
  /-- The argument as it was left. -/
  subject : α
  session : Session σ
  reply : Except Fault ρ

def Outcome.andThen {σ α ρ ρ' : Type} (o : Outcome σ α ρ)
    (next : α → Session σ → Outcome σ α ρ') : Outcome σ α ρ' :=
  match o.reply with
  | .ok _ => next o.subject o.session
  | .error e => ⟨o.subject, o.session, .error e⟩

theorem Outcome.andThen_assoc {σ α ρ ρ' ρ'' : Type} (o : Outcome σ α ρ)
    (next : α → Session σ → Outcome σ α ρ') (last : α → Session σ → Outcome σ α ρ'') :
    (o.andThen next).andThen last = o.andThen fun x s => (next x s).andThen last := by
  unfold andThen
  cases o.reply <;> rfl

namespace Session

variable {σ α ρ : Type}

def withOwn {τ : Type} (s : Session σ) (own : τ) : Session τ :=
  { log := s.log, classes := s.classes, shares := s.shares, own }

def settled (s : Session σ) : Session σ := { s with shares := s.shares.settled }

def keep (s : Session σ) (n : Node) : Session σ := { s with shares := s.shares.keep n }

def done (s : Session σ) (subject : α) (reply : ρ) : Outcome σ α ρ := ⟨subject, s, .ok reply⟩

def fail (s : Session σ) (subject : α) (e : Fault) : Outcome σ α ρ := ⟨subject, s, .error e⟩

def note (s : Session σ) (r : Record) (subject : α) (next : Session σ → Outcome σ α ρ) :
    Outcome σ α ρ :=
  match s.log.write r with
  | .ok log => next { s with log }
  | .error e => s.fail subject e

end Session

inductive Reply
  /-- No opinion, as with an answer of nothing. -/
  | keep
  /-- The argument itself. -/
  | same
  /-- A new node around the argument. -/
  | wrap (kind : Kind)
  /-- Something else to go on with. Of the nodes in it, those that stand elsewhere too are
  numbered. -/
  | give (value : Value)

/-- A hook may change its argument in place, and it may answer with something to go on with. -/
structure Visitor (σ : Type) where
  label : String
  before : List Node → Session σ → Outcome σ (List Node) Reply
  enter : Node → Session σ → Outcome σ Node Reply
  leave : Node → Session σ → Outcome σ Node Reply
  after : List Node → Session σ → Outcome σ (List Node) Reply

namespace Visitor

variable {σ τ : Type}

def idle (label : String) : Visitor σ where
  label
  before unit s := s.done unit .keep
  enter node s := s.done node .keep
  leave node s := s.done node .keep
  after unit s := s.done unit .keep

def onPart {α : Type} (get : τ → σ) (put : σ → τ → τ)
    (hook : α → Session σ → Outcome σ α Reply) (subject : α) (s : Session τ) : Outcome τ α Reply :=
  let o := hook subject (s.withOwn (get s.own))
  ⟨o.subject, o.session.withOwn (put o.session.own s.own), o.reply⟩

/-- A visitor of a part of a larger state. -/
def focus (get : τ → σ) (put : σ → τ → τ) (v : Visitor σ) : Visitor τ where
  label := v.label
  before := onPart get put v.before
  enter := onPart get put v.enter
  leave := onPart get put v.leave
  after := onPart get put v.after

end Visitor

end PropertyRenaming
