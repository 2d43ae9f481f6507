/-
MarkCompact/Placement/Stage.lean

The stages in the life of a compaction point: regions are added to it, it places objects
in them, and it is done.
-/

namespace MarkCompact

/-- How far a compaction point has come. -/
inductive Stage where
  /-- No region has been opened yet. -/
  | waiting
  /-- A region is open for objects. -/
  | active
  /-- The last region has been closed. -/
  | done
  deriving DecidableEq, Repr, Inhabited

/-- The name of a stage as diagnostics print it. -/
def Stage.name : Stage → String
  | .waiting => "Uninitialized"
  | .active => "Active"
  | .done => "Done"

end MarkCompact
