/-
MarkCompact/Move/References.lean

References follow the objects they refer to.

Once every object has its new address, and before any object moves, every reference is
replaced by the new address of what it refers to: in the fields of live objects, in the
roots, and in the marks that have been kept aside. References to nothing and to places
outside the heap stay.

Where new addresses come from is left open: `Forwardee` is any way of looking them up.
-/
import MarkCompact.Object
import MarkCompact.Object.SavedMarks
import MarkCompact.Liveness.Bitmap
import MarkCompact.Liveness.Roots
import MarkCompact.Work.Queue

namespace MarkCompact

/-- A way of looking up the new address of an object, if it has one. -/
abbrev Forwardee := Heap → Address → Except Fault (Option Address)

namespace Heap

/-- Whether a reference refers to a place in the heap. -/
def refersInside (h : Heap) (a : Address) : Bool := a != 0 && h.contains a

/-- Lets the reference in one field follow, and counts it if it changes. -/
def adjustSlot (forwardee : Forwardee) (s : Nat × Heap) (slot : Address) :
    Except Fault (Nat × Heap) := do
  let (changed, h) := s
  let referent := h.memory.load slot
  if !h.refersInside referent then return (changed, h)
  match ← forwardee h referent with
  | none => return (changed, h)
  | some new =>
    if new = referent then return (changed, h)
    else return (changed + 1, h.withMemory (h.memory.store slot new))

/-- Lets the references of one object follow, and counts those that change. -/
def adjustObject (t : ClassTable) (forwardee : Forwardee) (s : Nat × Heap) (object : Address) :
    Except Fault (Nat × Heap) := do
  (← s.2.slots t object).foldlM (adjustSlot forwardee) s

/-- Lets the references of all live objects follow, region by region, and counts those
that change. -/
def adjustAll (h : Heap) (t : ClassTable) (b : Bitmap) (forwardee : Forwardee) :
    Except Fault (Nat × Heap) := do
  let used := h.regions.toList.filter fun r => !r.isFree && !r.isEmpty
  let (s, _) ← (TaskQueue.ofList used).run
    (fun s r => (b.markedIn r.bottom r.top).foldlM (adjustObject t forwardee) s)
    ((0, h) : Nat × Heap)
  return s

/-- Lets a root follow. -/
def adjustRoot (h : Heap) (forwardee : Forwardee) (root : Address) : Except Fault Address := do
  if h.refersInside root then return (← forwardee h root).getD root else return root

/-- Lets what refers to objects from outside the heap follow: the roots, and the marks that
have been kept aside. A mark follows its object wherever that lies. -/
def adjustOwners (h : Heap) (roots : Roots) (saved : SavedMarks) (forwardee : Forwardee) :
    Except Fault (Roots × SavedMarks) := do
  let roots ← Roots.update roots (h.adjustRoot forwardee)
  let saved ← SavedMarks.follow saved (forwardee h)
  return (roots, saved)

end Heap

end MarkCompact
