/-
MarkCompact/Heap/Region.lean

Regions, the units in which a heap is compacted.

Objects are allocated in a region from its bottom up to its top. During a collection a
region also has a compaction top, up to which objects have been given a place in it, and
two flags: it takes part, and all that has to leave it has left.

A shadow is offered to a region. Until the region is ready it keeps the shadow, and
`markReady` hands out what it has kept; from then on `offer` gives the shadow back at
once. So each shadow is put in place by exactly one of the two.

Main results: `allocate_eq_some_iff` (when an allocation succeeds and where it lies),
`offer_of_ready` and `offer_of_not_ready`, `pending_markReady`.
-/
import MarkCompact.Heap.Shadow

namespace MarkCompact

/-- What a region is used for. -/
inductive RegionKind where
  | free
  | regular
  /-- The first region of an object that is larger than a region. -/
  | humongousStart
  /-- A later region of such an object. -/
  | humongousContinues
  deriving DecidableEq, Repr, Inhabited

namespace RegionKind

/-- The name of a kind as diagnostics print it. -/
def name : RegionKind → String
  | .free => "Free"
  | .regular => "Regular"
  | .humongousStart => "HumongousStart"
  | .humongousContinues => "HumongousContinues"

/-- Whether the region belongs to an object that is larger than a region. -/
def isHumongous : RegionKind → Bool
  | .humongousStart | .humongousContinues => true
  | _ => false

end RegionKind

/-- A region of the heap. -/
structure Region where
  index : Nat
  bottom : Address
  /-- The address after the region. -/
  stop : Address
  /-- The address after its objects. -/
  top : Address
  /-- The address after the objects that have been given a place in it. -/
  compactionTop : Address
  kind : RegionKind
  /-- Whether it takes part in the present collection. -/
  compacting : Bool
  /-- Whether all objects that have to leave it have left. -/
  ready : Bool
  /-- The shadows that wait until it is ready, the first one offered first. -/
  pending : List Shadow
  deriving Repr, Inhabited

namespace Region

/-- A free region. -/
def new (index : Nat) (bottom stop : Address) : Region :=
  { index, bottom, stop, top := bottom, compactionTop := bottom, kind := .free
    compacting := false, ready := false, pending := [] }

/-! ### Extent -/

def contains (r : Region) (a : Address) : Bool := r.bottom ≤ a && a < r.stop

def capacityWords (r : Region) : WordCount := r.bottom.wordsTo r.stop

def usedWords (r : Region) : WordCount := r.bottom.wordsTo r.top

def freeWords (r : Region) : WordCount := r.top.wordsTo r.stop

def isEmpty (r : Region) : Bool := r.top == r.bottom

def isFree (r : Region) : Bool := r.kind == .free

def isRegular (r : Region) : Bool := r.kind == .regular

def isHumongous (r : Region) : Bool := r.kind.isHumongous

/-! ### Allocation -/

/-- Raises the top by so many words if there is room: the old top, and the region after. -/
def allocate (r : Region) (words : WordCount) : Option (Address × Region) :=
  let bytes := words <<< wordShift
  if r.top.toNat + bytes.toNat < UInt64.size && r.top + bytes ≤ r.stop then
    some (r.top, { r with top := r.top + bytes })
  else none

theorem allocate_eq_some_iff {r r' : Region} {words : WordCount} {a : Address} :
    r.allocate words = some (a, r') ↔
      r.top.toNat + (words <<< wordShift).toNat < UInt64.size ∧
        r.top + (words <<< wordShift) ≤ r.stop ∧
        a = r.top ∧ r' = { r with top := r.top + (words <<< wordShift) } := by
  unfold allocate
  simp only [Bool.and_eq_true, decide_eq_true_eq, Option.ite_none_right_eq_some,
    Option.some.injEq, Prod.mk.injEq]
  constructor
  · rintro ⟨⟨h1, h2⟩, rfl, rfl⟩
    exact ⟨h1, h2, rfl, rfl⟩
  · rintro ⟨h1, h2, rfl, rfl⟩
    exact ⟨⟨h1, h2⟩, rfl, rfl⟩

/-- Changes the kind if it is the expected one, and says whether it was. -/
def transition (r : Region) (expected new : RegionKind) : Bool × Region :=
  if r.kind = expected then (true, { r with kind := new }) else (false, r)

/-- The region without its objects. -/
def makeFree (r : Region) : Region :=
  { r with kind := .free, top := r.bottom, compactionTop := r.bottom }

/-! ### Collections -/

/-- The region as a source and destination of a new collection. -/
def beginCompaction (r : Region) : Region :=
  { r with compactionTop := r.bottom, compacting := true, ready := false }

/-- The region after a collection. -/
def endCompaction (r : Region) : Region :=
  { r with compactionTop := r.bottom, compacting := false, ready := false }

/-- Leaves a shadow with the region, or gives it back if the region is ready. -/
def offer (r : Region) (s : Shadow) : Option Shadow × Region :=
  if r.ready then (some s, r) else (none, { r with pending := r.pending ++ [s] })

/-- Makes the region ready and hands out the shadows left with it. -/
def markReady (r : Region) : List Shadow × Region :=
  (r.pending, { r with ready := true, pending := [] })

theorem offer_of_ready {r : Region} (h : r.ready) (s : Shadow) : r.offer s = (some s, r) := by
  simp [offer, h]

theorem offer_of_not_ready {r : Region} (h : r.ready = false) (s : Shadow) :
    r.offer s = (none, { r with pending := r.pending ++ [s] }) := by
  simp [offer, h]

@[simp] theorem pending_markReady (r : Region) : r.markReady.2.pending = [] := rfl

@[simp] theorem ready_markReady (r : Region) : r.markReady.2.ready = true := rfl

/-- A region as diagnostics print it. -/
def debug (r : Region) : String :=
  s!"HeapRegion \x7b index: {r.index}, bottom: {hex r.bottom}, top: {hex r.top}, " ++
    s!"end: {hex r.stop}, kind: {r.kind.name}, compacting: {r.compacting} \x7d"

end Region

end MarkCompact
