import PropertyRenaming.Fault
import PropertyRenaming.Tree.Basic

namespace PropertyRenaming

inductive Level
  | debug
  | info
  | warning
  deriving DecidableEq

def Level.rank : Level → Int
  | .debug => 10
  | .info => 20
  | .warning => 30

inductive Channel
  | unit
  | context
  | declarations
  | renameMap
  | renamer
  | names
  | walk
  deriving DecidableEq

structure Record where
  level : Level
  channel : Channel
  message : String
  details : List (String × Value)

/-- Every record that is written is kept, but only those that reach the threshold are shown. A record
already has a `name`, that of its channel, so one with a detail of that name stops the run where it
would be shown. -/
structure Log where
  threshold : Int := 30
  /-- All records written, shown or not, the latest first. -/
  written : List Record := []

def Record.clashes (r : Record) : Bool := r.details.any (·.1 == "name")

namespace Log

def shows (log : Log) (r : Record) : Bool := log.threshold ≤ r.level.rank

def records (log : Log) : List Record := (log.written.filter log.shows).reverse

def add (r : Record) (log : Log) : Log := { log with written := r :: log.written }

def stops (log : Log) (r : Record) : Bool := log.shows r && r.clashes

def write (r : Record) (log : Log) : Except Fault Log :=
  if log.stops r then .error (.detailTaken "name") else .ok (log.add r)

def writeAll (rs : List Record) (log : Log) : Except Fault Log :=
  rs.foldlM (fun log r => log.write r) log

theorem write_of_lt {r : Record} {log : Log} (h : r.level.rank < log.threshold) :
    log.write r = .ok (log.add r) := by
  have hs : log.shows r = false := by simp [shows, h]
  simp [write, stops, hs]

/-- A record without a detail called `name` never stops the run. -/
theorem write_of_not_clashes {r : Record} (h : r.clashes = false) (log : Log) :
    log.write r = .ok (log.add r) := by
  simp [write, stops, h]

theorem threshold_of_write {log log' : Log} {r : Record} (h : log.write r = .ok log') :
    log'.threshold = log.threshold := by
  unfold write at h
  split at h
  · cases h
  · obtain rfl := Except.ok.inj h
    rfl

theorem writeAll_cons {log log' : Log} {r : Record} (h : log.write r = .ok log')
    (rs : List Record) : log.writeAll (r :: rs) = log'.writeAll rs := by
  rw [writeAll, List.foldlM_cons, h]
  rfl

theorem writeAll_append {log log' : Log} {rs : List Record} (h : log.writeAll rs = .ok log')
    (rs' : List Record) : log.writeAll (rs ++ rs') = log'.writeAll rs' := by
  rw [writeAll] at h
  rw [writeAll, List.foldlM_append, h]
  rfl

end Log

end PropertyRenaming
