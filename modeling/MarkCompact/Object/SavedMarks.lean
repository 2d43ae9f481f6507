/-
MarkCompact/Object/SavedMarks.lean

Marks that are kept aside while their objects move.

Some encodings overwrite the mark of an object, and the header of the moved object is
made anew. A mark that holds more than can be made anew is saved first, follows its
object to the new address, and is written back at the end.

Main results: `size_save` (what is saved) and `load_restore_of_notMem` (a restore writes
only the marks of saved objects).
-/
import MarkCompact.Heap.Memory

namespace MarkCompact

/-- A mark that is kept aside. -/
structure SavedMark where
  object : Address
  mark : Mark
  /-- Whether the object takes a hash word along. -/
  grown : Bool
  deriving DecidableEq, Repr, Inhabited

/-- The marks kept aside, the first one saved first. -/
abbrev SavedMarks := Array SavedMark

namespace SavedMarks

/-- Saves the mark of an object if its header cannot be made anew without it. -/
def save (s : SavedMarks) (object : Address) (mark : Mark) (compact grown : Bool) : SavedMarks :=
  if mark.mustPreserve compact then s.push ⟨object, mark, grown⟩ else s

/-- Lets every mark follow its object. -/
def follow (s : SavedMarks) (forwardee : Address → Except Fault (Option Address)) :
    Except Fault SavedMarks :=
  s.mapM fun entry => return { entry with object := (← forwardee entry.object).getD entry.object }

/-- The mark as the object gets it back. -/
def SavedMark.restored (entry : SavedMark) : Mark :=
  if entry.grown then entry.mark.withExpanded else entry.mark

/-- Writes every mark back. -/
def restore (s : SavedMarks) (m : Memory) : Memory :=
  s.toList.foldl (fun m entry => m.storeMark entry.object (SavedMark.restored entry)) m

theorem size_save (s : SavedMarks) (object : Address) (mark : Mark) (compact grown : Bool) :
    (s.save object mark compact grown).size =
      s.size + if mark.mustPreserve compact then 1 else 0 := by
  unfold save
  split <;> simp

theorem load_restore_of_notMem (s : SavedMarks) (m : Memory) {a : Address}
    (h : ∀ entry ∈ s.toList, entry.object ≠ a) : (s.restore m).load a = m.load a := by
  unfold restore
  generalize s.toList = entries at h
  induction entries generalizing m with
  | nil => rfl
  | cons entry entries ih =>
    have here := h entry (by simp)
    rw [List.foldl_cons, ih _ fun e he => h e (by simp [he]), Memory.storeMark,
      Memory.load_store, if_neg here]

end SavedMarks

end MarkCompact
