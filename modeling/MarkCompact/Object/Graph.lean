/-
MarkCompact/Object/Graph.lean

The graph of the objects that can be reached from the roots.

Objects are numbered in the order in which they are found: first what the roots refer to,
in the order of the roots, and then, object by object in the order of the numbers, what
their fields refer to. The graph tells everything about these objects but their
addresses, so that a collection leaves it as it is.

Main results: `mem_note` and `nodup_note` (what finding an object adds).
-/
import MarkCompact.Liveness.Roots
import MarkCompact.Object.Identity

namespace MarkCompact

/-- What a reference refers to. -/
inductive GraphReference where
  | nothing
  /-- An address outside the heap. -/
  | outside
  /-- The object of that number. -/
  | object (number : Nat)
  deriving DecidableEq, Repr, Inhabited

/-- What there is to say about an object, its address apart. -/
structure GraphObject where
  className : String
  state : HeaderState
  /-- The identity hash, if it has been asked for before. -/
  identity : Option UInt32
  references : List GraphReference
  /-- The words after the header that are no references. -/
  words : List Word
  deriving DecidableEq, Repr

/-- Objects that refer to each other. -/
structure ObjectGraph where
  /-- What the roots refer to. -/
  roots : List GraphReference
  /-- The objects in the order of their numbers. -/
  objects : List GraphObject
  deriving DecidableEq, Repr, Inhabited

namespace Heap

/-! ### Finding the objects -/

/-- Adds what a reference refers to, unless it is known already or no object. -/
def note (h : Heap) (found : Array Address) (a : Address) : Array Address :=
  if a ≠ 0 ∧ h.contains a ∧ a ∉ found then found.push a else found

/-- Follows the fields of the objects from number `next` on, for at most `fuel` objects. -/
def explore (h : Heap) (t : ClassTable) :
    Nat → Nat → Array Address → Except Fault (Array Address)
  | 0, _, found => .ok found
  | fuel + 1, next, found =>
    match found[next]? with
    | none => .ok found
    | some object => do
      let slots ← h.slots t object
      h.explore t fuel (next + 1) ((slots.map h.memory.load).foldl h.note found)

/-- The objects that can be reached from the roots, in the order of their numbers. Every
object has an address of its own, which bounds their count by the bytes of the heap. -/
def reachable (h : Heap) (t : ClassTable) (roots : Roots) : Except Fault (Array Address) :=
  h.explore t (h.layout.heapWords * wordBytes).toNat 0 (roots.live.foldl h.note #[])

theorem mem_note (h : Heap) (found : Array Address) (a b : Address) :
    b ∈ h.note found a ↔ b ∈ found ∨ b = a ∧ a ≠ 0 ∧ h.contains a := by
  unfold note
  split
  · rename_i new
    simp only [Array.mem_push]
    constructor
    · rintro (old | rfl)
      · exact .inl old
      · exact .inr ⟨rfl, new.1, new.2.1⟩
    · rintro (old | ⟨rfl, -, -⟩)
      · exact .inl old
      · exact .inr rfl
  · rename_i known
    constructor
    · exact .inl
    · rintro (old | ⟨rfl, some, inside⟩)
      · exact old
      · exact Decidable.byContradiction fun absent => known ⟨some, inside, absent⟩

theorem nodup_note (h : Heap) {found : Array Address} (nodup : found.toList.Nodup)
    (a : Address) : (h.note found a).toList.Nodup := by
  unfold note
  split
  · rename_i new
    rw [Array.toList_push, List.nodup_append]
    refine ⟨nodup, by simp, ?_⟩
    rintro b old c last rfl
    rw [List.mem_singleton] at last
    subst last
    exact new.2.2 (Array.mem_def.2 old)
  · exact nodup

/-! ### Describing them -/

/-- What a reference refers to, among the objects that have been found. -/
def describe (found : Array Address) (a : Address) : GraphReference :=
  if a = 0 then .nothing
  else
    match found.idxOf? a with
    | some number => .object number
    | none => .outside

/-- The places of the words of an object that are neither header nor reference. -/
def plainPlaces (t : ClassTable) (c : ClassInfo) : List WordCount :=
  (List.range' t.headerWords.toNat (c.words - t.headerWords).toNat).filterMap fun place =>
    if place.toUInt64 ∈ c.fields then none else some place.toUInt64

/-- What there is to say about an object. -/
def graphObject (h : Heap) (t : ClassTable) (found : Array Address) (object : Address) :
    Except Fault GraphObject := do
  let c ← h.infoOf t object
  let mark := h.memory.loadMark object
  let hash ← h.identityHash t object
  return {
    className := c.name
    state := mark.state
    identity := if mark.isHashed then some hash.1 else none
    references := c.fields.map fun place => describe found (h.memory.load (object.offset place))
    words := (plainPlaces t c).map fun place => h.memory.load (object.offset place) }

/-- The graph of the objects that can be reached from the roots. -/
def graph (h : Heap) (t : ClassTable) (roots : Roots) : Except Fault ObjectGraph := do
  let found ← h.reachable t roots
  let objects ← found.toList.mapM (h.graphObject t found)
  return { roots := roots.live.map (describe found), objects := objects }

end Heap

end MarkCompact
