/-
MarkCompact/Forwarding/Hashed.lean

New addresses in one hash table for the whole heap.

The table holds the targets; the lock bits of a mark only say that there is one. An
object that stays where it is has no entry, its mark says so. Several claims to one
object are decided by the table, and a claim to keep it where it is by its header.

An attempt to add an entry that finds the table too full leaves a request to grow, which
is met between two phases.
-/
import MarkCompact.Forwarding.Header
import MarkCompact.Forwarding.Chained

namespace MarkCompact

/-- The buckets of a new table. -/
def initialBuckets : Nat := 1024

/-- The room for entries of a new table. -/
def initialNodes : Nat := 4096

/-- A hash table of new addresses, and the requests to grow. -/
structure Hashed where
  table : ForwardTable
  growRequested : Bool
  /-- How often the table has grown in this collection. -/
  grows : Nat
  deriving Repr, Inhabited

namespace Hashed

/-- An empty table with at least so many buckets and room for so many entries. -/
def new (buckets nodes : Nat) : Hashed := ⟨.new buckets nodes, false, 0⟩

/-- Drops all entries and requests before a collection. -/
def start (s : Hashed) : Hashed := ⟨s.table.reset, false, 0⟩

/-- Drops all entries after a collection. -/
def finish (s : Hashed) : Hashed := { s with table := s.table.reset }

/-- Makes room for at least so many entries. -/
def reserve (s : Hashed) (entries : Nat) : Hashed := { s with table := s.table.reserve entries }

/-- Meets a request to grow, and says whether there was one. -/
def growIfRequested (s : Hashed) : Bool × Hashed :=
  if s.growRequested then (true, ⟨s.table.grow, false, s.grows + 1⟩) else (false, s)

/-- The new address of an object, if it has one. -/
def forwardee (s : Hashed) (m : Memory) (object : Address) : Except Fault (Option Address) :=
  let mark := m.loadMark object
  if !mark.isForwarded then .ok none
  else if mark.isSelfForwarded then .ok (some object)
  else
    match s.table.find? object with
    | some target => .ok (some target)
    | none => .error (.noEntry object)

/-- Adds an entry unless the object has one: then that one is the answer. -/
def insert (s : Hashed) (object target : Address) : Except Fault (Option Address × Hashed) := do
  let (outcome, table) ← s.table.put object target
  return (outcome.existing,
    { s with table := table, growRequested := s.growRequested || outcome.shouldGrow })

/-- Gives an object a new address, unless it has one. -/
def forwardTo (s : Hashed) (m : Memory) (object target : Address) :
    Except Fault (Hashed × Memory) := do
  match ← s.insert object target with
  | (none, s) => return (s, m.storeMark object ((m.loadMark object).withLock 0b11))
  | (some _, s) => return (s, m)

/-- Gives an object a new address unless it has one: then that one is the answer. Only a
claim to keep the object where it is can have come first and left no entry. -/
def claim (s : Hashed) (m : Memory) (object target : Address) (expected : Mark) :
    Except Fault (Option Address × Hashed × Memory) := do
  match ← s.insert object target with
  | (some existing, s) => return (some existing, s, m)
  | (none, s) =>
    match m.exchangeMark object expected (expected.withLock 0b11) with
    | (.ok _, m) => return (none, s, m)
    | (.error found, m) =>
      if found.isSelfForwarded then return (some object, s, m)
      else throw (.headerDisagrees object found)

/-- Keeps an object where it is unless it has a new address: then that one is the answer. -/
def claimSelf (s : Hashed) (m : Memory) (object : Address) (expected : Mark) :
    Except Fault (Option Address × Memory) :=
  settle m object expected expected.selfForwarded fun _ => s.forwardee m object

theorem growIfRequested_of_not_requested {s : Hashed} (h : s.growRequested = false) :
    s.growIfRequested = (false, s) := by
  simp [growIfRequested, h]

theorem grows_growIfRequested {s : Hashed} (h : s.growRequested) :
    s.growIfRequested.2.grows = s.grows + 1 := by
  simp [growIfRequested, h]

end Hashed

end MarkCompact
