/-
MarkCompact/Object/Identity.lean

Identity hashes and locks, the two things that mutators write into headers.

The first request for an identity hash derives it from the address. A classic header
keeps it. A compact header only notes that it was asked for: as long as the object stays
where it is the address gives the same hash, and when it moves the hash goes along in a
trailing word.
-/
import MarkCompact.Object

namespace MarkCompact

namespace Heap

/-- The identity hash of an object, and the heap after the request. -/
def identityHash (h : Heap) (t : ClassTable) (object : Address) : Except Fault (UInt32 × Heap) :=
  let mark := h.memory.loadMark object
  let noted (mark : Mark) := h.withMemory (h.memory.storeMark object mark)
  if h.compactHeaders then
    if mark.isExpanded then
      return ((h.memory.load (object.offset ((← h.size t object) - 1))).toUInt32, h)
    else if mark.isHashed then .ok (object.identityHash, h)
    else .ok (object.identityHash, noted mark.withHashed)
  else if mark.isHashed then .ok (mark.hash, h)
  else .ok (object.identityHash, noted (mark.withHash object.identityHash))

/-- The heap with other lock bits in an object. -/
def setLock (h : Heap) (object : Address) (bits : Word) : Heap :=
  h.withMemory (h.memory.storeMark object ((h.memory.loadMark object).withLock bits))

/-- Locks an object on the stack of its owner. -/
def stackLock (h : Heap) (object : Address) : Heap := h.setLock object 0b00

/-- Gives an object a monitor. -/
def inflate (h : Heap) (object : Address) : Heap := h.setLock object 0b10

/-- Unlocks an object. -/
def unlock (h : Heap) (object : Address) : Heap := h.setLock object 0b01

end Heap

end MarkCompact
