/-
MarkCompact/Liveness/Roots.lean

The roots: the references into the heap that are held outside it.

A root has a number that it keeps for good. A root that is removed holds zero, which
refers to nothing.
-/
import MarkCompact.Error

namespace MarkCompact

/-- The references held outside the heap, by their numbers. -/
abbrev Roots := Array Address

namespace Roots

/-- Adds a root: its number, and the roots with it. -/
def add (rs : Roots) (object : Address) : Nat × Roots := (rs.size, rs.push object)

/-- What a root refers to, zero if it has been removed or there is no such root. -/
def get (rs : Roots) (number : Nat) : Address := rs[number]?.getD 0

/-- The roots with one of them referring to something else. -/
def set (rs : Roots) (number : Nat) (object : Address) : Roots := rs.modify number fun _ => object

/-- The roots without one of them; its number is not used again. -/
def remove (rs : Roots) (number : Nat) : Roots := rs.set number 0

/-- What the roots refer to that have not been removed. -/
def live (rs : Roots) : List Address := rs.toList.filter (· != 0)

/-- Replaces every root that has not been removed. -/
def update (rs : Roots) (change : Address → Except Fault Address) : Except Fault Roots :=
  rs.mapM fun object => if object = 0 then return object else change object

/-- The number of roots that have not been removed. -/
def count (rs : Roots) : Nat := rs.live.length

@[simp] theorem get_add (rs : Roots) (object : Address) :
    (rs.add object).2.get (rs.add object).1 = object := by
  simp [add, get]

theorem get_set_self {rs : Roots} {number : Nat} (h : number < rs.size) (object : Address) :
    (rs.set number object).get number = object := by
  simp [set, get, h, Array.getElem_modify]

end Roots

end MarkCompact
