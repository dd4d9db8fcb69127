import PropertyRenaming.Digest
import PropertyRenaming.Names.Supply

namespace PropertyRenaming.Names

structure Hashing where
  salt : String := ""
  lead : String := "s"
  length : Int := 8

/-- An empty lead counts as `s`, so that no name starts with a digit. -/
def Hashing.effectiveLead (h : Hashing) : String := if h.lead = "" then "s" else h.lead

/-- The first `n` items; a negative `n` counts from the end. -/
def cutAt {α : Type} (n : Int) (items : List α) : List α :=
  if 0 ≤ n then items.take n.toNat else items.take (items.length - n.natAbs)

def Hashing.seed (h : Hashing) (asked : Atom) (attempt : Nat) : String :=
  h.salt ++ asked.spelling ++ if attempt = 0 then "" else "#" ++ toString attempt

def Hashing.candidate (h : Hashing) (asked : Atom) (attempt : Nat) : String :=
  -- Every text has UTF-8 bytes, since half of a surrogate pair is no part of one.
  let digest := Digest.hexDigest (h.seed asked attempt).toUTF8.data.toList
  h.effectiveLead ++ String.ofList (cutAt h.length digest)

def collision (asked : Atom) (attempt : Nat) : Record :=
  { level := .debug, channel := .names, message := "Hashed name collided, retrying"
    details := [("original", .atom asked), ("attempt", .int attempt)] }

/-- The first attempt, from the given one on, whose candidate is not taken. Digests may repeat, so a
search may need any number of attempts; one that never comes to an end has no result. -/
def Hashing.search (h : Hashing) (asked : Atom) (taken : List Atom) (attempt : Nat) : Option Nat :=
  if taken.contains (.text (h.candidate asked attempt)) then h |>.search asked taken (attempt + 1)
  else some attempt
partial_fixpoint

def Hashing.firstAttempt? (h : Hashing) (asked : Atom) (taken : List Atom) : Option Nat :=
  h.search asked taken 0

def hashed (h : Hashing) (asked : Atom) (taken : List Atom) :
    List Record × Except Fault Atom :=
  match h.firstAttempt? asked taken with
  | some n => ((List.range n).map fun k => collision asked (k + 1), checked (h.candidate asked n))
  | none => ([], .error (.searchAbandoned asked))

end PropertyRenaming.Names
