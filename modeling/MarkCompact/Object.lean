/-
MarkCompact/Object.lean

Objects: what their headers say, where their fields lie, and how they are made.

A classic object begins with its mark and its class number, a compact one with a mark
that holds both; the fields follow. A compact object whose identity hash has moved with
it is one word longer than its class says, and that last word is the hash.

* `classOf`, `size` and `slots` read an object; they fail if its header names no class;
* `copySize` is the size at the destination of a move;
* `instantiate` and `instantiateIn` make objects;
* `objectContaining` finds the object that covers an address, by a walk over the objects
  from the nearest recorded start.

Main results: `copySize_staying` and `copySize_moving` (when an object grows).
-/
import MarkCompact.Heap
import MarkCompact.Object.ClassTable

namespace MarkCompact

namespace Heap

/-! ### Reading objects -/

/-- The class number in the header of an object. -/
def classOf (h : Heap) (t : ClassTable) (object : Address) : UInt32 :=
  if t.compactHeaders then (h.memory.loadMark object).classId
  else (h.memory.load (object.offset 1)).toUInt32

/-- The class of an object. -/
def infoOf (h : Heap) (t : ClassTable) (object : Address) : Except Fault ClassInfo :=
  match t.info (h.classOf t object) with
  | some c => .ok c
  | none => .error (.unknownClass object (h.classOf t object))

/-- The words of an object, the trailing hash included. -/
def size (h : Heap) (t : ClassTable) (object : Address) : Except Fault WordCount := do
  let c ← h.infoOf t object
  return if t.compactHeaders && (h.memory.loadMark object).isExpanded then c.words + 1 else c.words

/-- Whether an object with such a mark takes a hash word along when it moves. -/
def grows (h : Heap) (mark : Mark) : Bool :=
  h.compactHeaders && mark.isHashed && !mark.isExpanded

/-- The words of an object with such a mark at its destination. -/
def copySize (h : Heap) (t : ClassTable) (object : Address) (mark : Mark) (moving : Bool) :
    Except Fault WordCount := do
  let size ← h.size t object
  return if moving && h.grows mark then size + 1 else size

/-- The addresses of the reference fields of an object. -/
def slots (h : Heap) (t : ClassTable) (object : Address) : Except Fault (List Address) := do
  let c ← h.infoOf t object
  return c.fields.map object.offset

/-- The address of one reference field of an object. -/
def slot (h : Heap) (t : ClassTable) (object : Address) (field : Nat) : Except Fault Address := do
  let c ← h.infoOf t object
  match c.fields[field]? with
  | some place => return object.offset place
  | none => throw (.noSuchField c.name c.fields.length field)

/-- The value of a reference field. -/
def reference (h : Heap) (t : ClassTable) (object : Address) (field : Nat) : Except Fault Word :=
  return h.memory.load (← h.slot t object field)

/-- The heap with another value in a reference field. -/
def setReference (h : Heap) (t : ClassTable) (object : Address) (field : Nat) (value : Word) :
    Except Fault Heap :=
  return h.withMemory (h.memory.store (← h.slot t object field) value)

/-! ### Making objects -/

/-- Clears the words of a new object and gives it its header. -/
def setUp (h : Heap) (t : ClassTable) (object : Address) (classId : UInt32) (words : WordCount) :
    Except Fault Heap := do
  let m ← h.memory.fillWords object words 0
  return h.withMemory
    (if t.compactHeaders then m.storeMark object (.freshOf classId)
    else (m.storeMark object .fresh).store (object.offset 1) classId.toUInt64)

/-- Makes an instance of a class in the words that `allocate` finds for it. -/
def instantiateBy (h : Heap) (t : ClassTable) (classId : UInt32)
    (allocate : WordCount → Except CompactError Address × Heap) :
    Except Fault (Except CompactError Address × Heap) :=
  match t.info classId with
  | none => .ok (.error (.invalidArgument (.noSuchClass classId)), h)
  | some c =>
    match allocate c.words with
    | (.error e, h) => .ok (.error e, h)
    | (.ok object, h) => (h.setUp t object classId c.words).map fun h => (.ok object, h)

/-- Makes an instance of a class wherever there is room. -/
def instantiate (h : Heap) (t : ClassTable) (classId : UInt32) :
    Except Fault (Except CompactError Address × Heap) :=
  h.instantiateBy t classId h.allocate

/-- Makes an instance of a class in one region. -/
def instantiateIn (h : Heap) (t : ClassTable) (index : Nat) (classId : UInt32) :
    Except Fault (Except CompactError Address × Heap) :=
  h.instantiateBy t classId (h.allocateIn index)

/-! ### Finding objects -/

/-- Walks from one object to the next until one covers `a`. -/
def walkTo (h : Heap) (t : ClassTable) (a current : Address) : Except Fault (Option Address) :=
  match h.size t current with
  | .error fault => .error fault
  | .ok size =>
    if a < current + (size <<< wordShift) then .ok (some current)
    else if current < current + (size <<< wordShift) ∧ current + (size <<< wordShift) ≤ a then
      h.walkTo t a (current + (size <<< wordShift))
    else .ok none
termination_by a.toNat - current.toNat
decreasing_by
  rename_i ahead
  have h1 := UInt64.lt_iff_toNat_lt.1 ahead.1
  have h2 := UInt64.le_iff_toNat_le.1 ahead.2
  omega

/-- The region in which an object begins that reaches into a region. -/
def startRegion (h : Heap) : Nat → Region
  | 0 => h.region 0
  | index + 1 =>
    if (h.region (index + 1)).kind = .humongousContinues then h.startRegion index
    else h.region (index + 1)

/-- The object that covers an address, if one does. -/
def objectContaining (h : Heap) (t : ClassTable) (a : Address) : Except Fault (Option Address) :=
  if !h.contains a || (h.regionOf a).top ≤ a then .ok none
  else
    match h.starts.startBefore a (h.startRegion (h.layout.indexOf a)).bottom with
    | none => .ok none
    | some start => h.walkTo t a start

/-! ### When an object grows -/

theorem copySize_staying (h : Heap) (t : ClassTable) (object : Address) (mark : Mark) :
    h.copySize t object mark false = h.size t object := by
  simp [copySize]

theorem copySize_moving (h : Heap) (t : ClassTable) (object : Address) (mark : Mark) :
    h.copySize t object mark true =
      (h.size t object).map fun size => if h.grows mark then size + 1 else size := by
  simp only [copySize, Bool.true_and]
  cases h.size t object <;> rfl

end Heap

end MarkCompact
