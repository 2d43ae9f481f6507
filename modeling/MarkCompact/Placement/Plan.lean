/-
MarkCompact/Placement/Plan.lean

Which regions take part in a collection.

Every region is summed up from the bitmap. A leading run of regular regions that are
entirely live is left alone, for nothing in them can move: that is the dense prefix. Of
the other regions the regular ones are compacted, and those of a humongous object are
kept if it is live and freed at once if it is not.

* `summarize` and `densePrefix` are the two parts of the decision;
* `Plan.build` makes it, and answers with the heap from which dead humongous objects are
  gone.

Main results: `densePrefix_le` and `densePrefix_full` (the dense prefix is a run of full
regular regions), `memory_build` (planning writes no word).
-/
import MarkCompact.Heap
import MarkCompact.Liveness.Bitmap

namespace MarkCompact

/-- What is live in a region. -/
structure RegionSummary where
  index : Nat
  kind : RegionKind
  liveWords : Nat
  liveObjects : Nat
  deriving DecidableEq, Repr, Inhabited

/-- Whether an object begins in the region that is live. -/
def RegionSummary.isLive (s : RegionSummary) : Bool := 0 < s.liveObjects

/-- What is live in every region, in the order of the regions. -/
def summarize (h : Heap) (b : Bitmap) : List RegionSummary :=
  h.regions.toList.map fun r =>
    { index := r.index
      kind := r.kind
      liveWords := b.countWords r.bottom r.top
      liveObjects := b.countObjects r.bottom r.top }

/-- Whether a region is regular and entirely live. -/
def RegionSummary.isFull (regionWords : Nat) (s : RegionSummary) : Bool :=
  s.kind == .regular && s.liveWords == regionWords

/-- The number of leading regions that are regular and entirely live. -/
def densePrefix (summaries : List RegionSummary) (regionWords : Nat) : Nat :=
  (summaries.takeWhile (RegionSummary.isFull regionWords)).length

theorem densePrefix_le (summaries : List RegionSummary) (regionWords : Nat) :
    densePrefix summaries regionWords ≤ summaries.length :=
  (List.takeWhile_prefix _).length_le

theorem densePrefix_full {summaries : List RegionSummary} {regionWords : Nat} :
    ∀ s ∈ summaries.take (densePrefix summaries regionWords), s.isFull regionWords := by
  intro s hs
  have lead := List.prefix_iff_eq_take.1
    (List.takeWhile_prefix (l := summaries) (RegionSummary.isFull regionWords))
  rw [densePrefix, ← lead] at hs
  exact List.all_eq_true.1 List.all_takeWhile s hs

/-- The part that every region has in a collection. -/
structure Plan where
  summaries : List RegionSummary
  /-- The number of leading regions that are left alone. -/
  densePrefix : Nat
  /-- The regular regions that are compacted, in ascending order. -/
  compacting : List Nat
  /-- The first regions of live humongous objects, in ascending order. -/
  humongous : List Nat
  /-- The number of regions whose humongous object is dead. -/
  freedHumongous : Nat
  deriving Repr, Inhabited

namespace Plan

/-- The number of regions of the humongous object that begins in a region. -/
def span (h : Heap) (first : Nat) : Nat :=
  1 + ((h.regions.toList.drop (first + 1)).takeWhile (·.kind == .humongousContinues)).length

/-- Decides on the regions from `index` on, of which there are at most `fuel`. -/
def decide (b : Bitmap) : Nat → Nat → Heap → Plan → Plan × Heap
  | 0, _, h, p => (p, h)
  | fuel + 1, index, h, p =>
    if index < h.regions.size then
      match (h.region index).kind with
      | .regular => decide b fuel (index + 1) h { p with compacting := p.compacting ++ [index] }
      | .humongousStart =>
        let regions := span h index
        if b.isMarked (h.region index).bottom then
          decide b fuel (index + regions) h { p with humongous := p.humongous ++ [index] }
        else
          decide b fuel (index + regions) ((List.range' index regions).foldl Heap.freeRegion h)
            { p with freedHumongous := p.freedHumongous + regions }
      | .free | .humongousContinues => decide b fuel (index + 1) h p
    else (p, h)

/-- Decides on every region, and frees those of dead humongous objects. -/
def build (h : Heap) (b : Bitmap) : Plan × Heap :=
  let summaries := summarize h b
  let dense := MarkCompact.densePrefix summaries h.layout.regionWords.toNat
  decide b h.regions.size dense h
    { summaries := summaries, densePrefix := dense, compacting := [], humongous := []
      freedHumongous := 0 }

/-- The live words of all regions. -/
def liveWords (p : Plan) : Nat := (p.summaries.map RegionSummary.liveWords).foldr (· + ·) 0

/-- The live objects of all regions. -/
def liveObjects (p : Plan) : Nat :=
  (p.summaries.map RegionSummary.liveObjects).foldr (· + ·) 0

/-- What is live in a region. -/
def summary (p : Plan) (index : Nat) : RegionSummary := p.summaries[index]?.getD default

theorem memory_foldl_freeRegion (is : List Nat) (h : Heap) :
    (is.foldl Heap.freeRegion h).memory = h.memory := by
  induction is generalizing h with
  | nil => rfl
  | cons i is ih => exact (ih _).trans (Heap.memory_freeRegion h i)

theorem memory_decide (b : Bitmap) (fuel index : Nat) (h : Heap) (p : Plan) :
    (decide b fuel index h p).2.memory = h.memory := by
  induction fuel generalizing index h p with
  | zero => rfl
  | succ fuel ih =>
    unfold decide
    split
    · split
      · exact ih ..
      · dsimp only
        split
        · exact ih ..
        · exact (ih ..).trans (memory_foldl_freeRegion ..)
      · exact ih ..
      · exact ih ..
    · rfl

/-- Planning writes no word. -/
theorem memory_build (h : Heap) (b : Bitmap) : (build h b).2.memory = h.memory :=
  memory_decide ..

end Plan

end MarkCompact
