/-
MarkCompact/Forwarding.lean

New addresses, whatever the encoding.

A collection chooses one of the four encodings and from then on only asks for the new
address of an object, gives it one, or claims one for it if it has none.

* `start` and `finish` drop what an earlier collection has left;
* `reserve` and `beginRegion` announce how much will be recorded;
* `forwardee`, `forwardTo`, `forwardToSelf`, `claim` and `claimSelf` work on objects. They
  may write the marks of these objects, and so they take the memory and give it back.

Main results: `memory_forwardTo_dense` (dense tables leave the memory alone) and
`encoding_select` (a configuration gets the encoding it asks for).
-/
import MarkCompact.Config
import MarkCompact.Forwarding.Sliding
import MarkCompact.Forwarding.Hashed
import MarkCompact.Forwarding.Dense

namespace MarkCompact

/-- The new addresses of objects in the encoding of a collection. -/
inductive Forwarding where
  | header
  | sliding (bases : Sliding)
  | hashed (table : Hashed)
  | dense (tables : Dense)

/-- How much an encoding keeps beside the headers. -/
structure ForwardingStats where
  /-- Entries of tables, or remembered bases. -/
  entries : Nat
  /-- The most slots that one insertion into a dense table has tried. -/
  maxScan : UInt64
  /-- How often a hash table has grown. -/
  grows : Nat
  deriving DecidableEq, Repr, Inhabited

namespace Forwarding

/-- The encoding that a configuration asks for. -/
def select (c : Config) (l : Layout) : Except Fault Forwarding :=
  match c.encoding with
  | .header => .ok .header
  | .sliding => (Sliding.new l).map .sliding
  | .hashed => .ok (.hashed (.new initialBuckets initialNodes))
  | .dense => .ok (.dense (.new l c.denseLoadFactor))

/-- Which encoding it is. -/
def encoding : Forwarding → Encoding
  | .header => .header
  | .sliding _ => .sliding
  | .hashed _ => .hashed
  | .dense _ => .dense

/-- Whether a new address overwrites bits of the mark. -/
def overwritesMarks : Forwarding → Bool
  | .dense _ => false
  | _ => true

/-- The number of regions to which the objects of one region may go, if there is a limit. -/
def targetsPerRegion : Forwarding → Option Nat
  | .sliding _ => some basesPerRegion
  | _ => none

/-- Drops everything before a collection. -/
def start : Forwarding → Forwarding
  | .header => .header
  | .sliding s => .sliding s.clear
  | .hashed s => .hashed s.start
  | .dense d => .dense d.clear

/-- Drops everything after a collection. -/
def finish : Forwarding → Forwarding
  | .header => .header
  | .sliding s => .sliding s.clear
  | .hashed s => .hashed s.finish
  | .dense d => .dense d.clear

/-- Makes room for so many objects. -/
def reserve (entries : Nat) : Forwarding → Forwarding
  | .hashed s => .hashed (s.reserve entries)
  | f => f

/-- Announces so many moving objects of a region. -/
def beginRegion (region expected : Nat) : Forwarding → Except Fault Forwarding
  | .dense d => (d.beginRegion region expected).map .dense
  | f => .ok f

/-- Meets a request to grow, and says whether there was one. -/
def growIfRequested : Forwarding → Bool × Forwarding
  | .hashed s =>
    let (grew, s) := s.growIfRequested
    (grew, .hashed s)
  | f => (false, f)

/-- The new address of an object, if it has one. -/
def forwardee (f : Forwarding) (m : Memory) (object : Address) : Except Fault (Option Address) :=
  match f with
  | .header => .ok (HeaderForwarding.forwardee m object)
  | .sliding s => s.forwardee m object
  | .hashed s => s.forwardee m object
  | .dense d => .ok (d.forwardee object)

/-- Whether an object has a new address. -/
def isForwarded (f : Forwarding) (m : Memory) (object : Address) : Bool :=
  match f with
  | .dense d => (d.forwardee object).isSome
  | _ => (m.loadMark object).isForwarded

/-- Gives an object a new address. -/
def forwardTo (f : Forwarding) (m : Memory) (object target : Address) :
    Except Fault (Forwarding × Memory) :=
  match f with
  | .header => .ok (.header, HeaderForwarding.forwardTo m object target)
  | .sliding s => (s.forwardTo m object target).map fun (s, m) => (.sliding s, m)
  | .hashed s => (s.forwardTo m object target).map fun (s, m) => (.hashed s, m)
  | .dense d => (d.forwardTo object target).map fun d => (.dense d, m)

/-- Keeps an object where it is. -/
def forwardToSelf (f : Forwarding) (m : Memory) (object : Address) :
    Except Fault (Forwarding × Memory) :=
  match f with
  | .dense d => (d.forwardTo object object).map fun d => (.dense d, m)
  | f => .ok (f, HeaderForwarding.forwardToSelf m object)

/-- Gives an object a new address unless it has one: then that one is the answer. The
claim holds for an object whose mark is the expected one. -/
def claim (f : Forwarding) (m : Memory) (object target : Address) (expected : Mark) :
    Except Fault (Option Address × Forwarding × Memory) :=
  match f with
  | .header =>
    (HeaderForwarding.claim m object target expected).map fun (other, m) => (other, .header, m)
  | .sliding s =>
    (s.claim m object target expected).map fun (other, s, m) => (other, .sliding s, m)
  | .hashed s =>
    (s.claim m object target expected).map fun (other, s, m) => (other, .hashed s, m)
  | .dense d => (d.claim object target).map fun (other, d) => (other, .dense d, m)

/-- Keeps an object where it is unless it has a new address: then that one is the answer. -/
def claimSelf (f : Forwarding) (m : Memory) (object : Address) (expected : Mark) :
    Except Fault (Option Address × Forwarding × Memory) :=
  match f with
  | .header =>
    (HeaderForwarding.claimSelf m object expected).map fun (other, m) => (other, .header, m)
  | .sliding s => (s.claimSelf m object expected).map fun (other, m) => (other, .sliding s, m)
  | .hashed s => (s.claimSelf m object expected).map fun (other, m) => (other, .hashed s, m)
  | .dense d => (d.claim object object).map fun (other, d) => (other, .dense d, m)

/-- What the encoding keeps beside the headers. -/
def stats : Forwarding → ForwardingStats
  | .header => ⟨0, 0, 0⟩
  | .sliding s => ⟨s.claimed, 0, 0⟩
  | .hashed s => ⟨s.table.entries, 0, s.grows⟩
  | .dense d => ⟨d.entries, d.maxScan, 0⟩

/-- The encoding as diagnostics print it. -/
def debug (f : Forwarding) : String := "Forwarding(" ++ f.encoding.name ++ ")"

/-- Dense tables leave the memory alone. -/
theorem memory_forwardTo_dense {d : Dense} {m m' : Memory} {object target : Address}
    {f : Forwarding} (h : forwardTo (.dense d) m object target = .ok (f, m')) : m' = m := by
  simp only [forwardTo] at h
  cases hd : d.forwardTo object target with
  | error fault => simp [hd, Except.map] at h
  | ok d' =>
    simp only [hd, Except.map, Except.ok.injEq, Prod.mk.injEq] at h
    exact h.2.symm

/-- A selected encoding is the one in force. -/
theorem encoding_select {c : Config} {l : Layout} {f : Forwarding} (h : select c l = .ok f) :
    f.encoding = c.encoding := by
  unfold select at h
  split at h <;> rename_i mode
  · cases h
    exact mode.symm
  · cases hs : Sliding.new l with
    | error fault => simp [hs, Except.map] at h
    | ok s =>
      simp only [hs, Except.map, Except.ok.injEq] at h
      subst h
      exact mode.symm
  · cases h
    exact mode.symm
  · cases h
    exact mode.symm

end Forwarding

end MarkCompact
