/-
MarkCompact/Heap/Shadow.lean

Shadow copies: the final contents of a stretch of a region, kept aside while the region
is still occupied by objects that have not left yet.
-/
import MarkCompact.Heap.Memory

namespace MarkCompact

/-- The final contents of a stretch of a region. -/
structure Shadow where
  /-- The region. -/
  target : Nat
  /-- Where in it the stretch begins. -/
  start : Address
  words : List Word
  deriving DecidableEq, Repr

/-- Puts the contents in place. -/
def Shadow.flush (s : Shadow) (m : Memory) : Except Fault Memory :=
  m.writeWords s.start s.words

/-- Puts several shadows in place, one after the other. -/
def Shadow.flushAll (shadows : List Shadow) (m : Memory) : Except Fault Memory :=
  shadows.foldlM (fun m s => s.flush m) m

end MarkCompact
