/-
MarkCompact/Liveness/Trace.lean

Tracing: which objects can be reached from the roots.

An object is marked in the bitmap when it is met for the first time, and put on a stack.
Objects are taken from the stack one by one, and what their fields refer to is met in
turn. References to nothing are passed over; references to addresses outside the heap
are passed over too, and reported.

Every object on the stack was unmarked when it was put there, so no more objects are
taken from it than the heap has words: that bounds the run.

`Reaches` says on its own what is to be found: the objects that a root or a field of
such an object refers to.
-/
import MarkCompact.Object
import MarkCompact.Liveness.Bitmap
import MarkCompact.Liveness.Roots

namespace MarkCompact

/-- Whether an object can be reached from the roots. -/
inductive Reaches (h : Heap) (t : ClassTable) (roots : Roots) : Address → Prop where
  /-- What a root refers to is reached. -/
  | root {a : Address} (mem : a ∈ roots.live) (inside : h.contains a) : Reaches h t roots a
  /-- What a field of a reached object refers to is reached. -/
  | field {a s : Address} {slots : List Address} (source : Reaches h t roots a)
      (fields : h.slots t a = .ok slots) (mem : s ∈ slots) (some : h.memory.load s ≠ 0)
      (inside : h.contains (h.memory.load s)) : Reaches h t roots (h.memory.load s)

/-- How far tracing has come. -/
structure Tracing where
  bitmap : Bitmap
  /-- Objects that have been met and whose fields have not been looked at, the latest
  first. -/
  grey : List Address
  liveObjects : Nat
  liveWords : WordCount
  /-- The references outside the heap, the latest first. -/
  skipped : List Address
  /-- What ended the tracing early, if anything did. -/
  fault : Option Fault

namespace Tracing

/-- Meets an object: marks it if it is unmarked. -/
def meet (h : Heap) (t : ClassTable) (s : Tracing) (object : Address) : Tracing :=
  if s.fault.isSome || object = 0 then s
  else if !h.contains object then { s with skipped := object :: s.skipped }
  else
    match h.size t object with
    | .error fault => { s with fault := some fault }
    | .ok size =>
      match s.bitmap.mark object size with
      | (false, _) => s
      | (true, bitmap) =>
        { s with
          bitmap := bitmap
          grey := object :: s.grey
          liveObjects := s.liveObjects + 1
          liveWords := s.liveWords + size }

/-- Meets what the fields of the latest grey object refer to. Nothing if none is grey. -/
def step (h : Heap) (t : ClassTable) (s : Tracing) : Option Tracing :=
  match s.fault, s.grey with
  | none, object :: grey =>
    match h.slots t object with
    | .error fault => some { s with grey := grey, fault := some fault }
    | .ok slots =>
      some ((slots.map h.memory.load).foldl (meet h t) { s with grey := grey })
  | _, _ => none

/-- Takes at most `fuel` steps. -/
def run (h : Heap) (t : ClassTable) : Nat → Tracing → Tracing
  | 0, s => s
  | fuel + 1, s =>
    match s.step h t with
    | some next => run h t fuel next
    | none => s

end Tracing

/-- Marks in a bitmap all objects that can be reached from the roots. -/
def Heap.trace (h : Heap) (t : ClassTable) (roots : Roots) (bitmap : Bitmap) : Tracing :=
  let start : Tracing := ⟨bitmap, [], 0, 0, [], none⟩
  (roots.live.foldl (Tracing.meet h t) start).run h t (h.layout.heapWords.toNat + 1)

/-- The references outside the heap that tracing met, in the order in which it met them. -/
def Tracing.outside (s : Tracing) : List Address := s.skipped.reverse

/-- What is said about a reference outside the heap. -/
def outsideWarning (a : Address) : String :=
  "skipping reference " ++ hex a ++ " outside the heap"

end MarkCompact
