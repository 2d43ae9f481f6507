/-
MarkCompact/Forwarding/Chained.lean

A hash table from old to new addresses, whose entries lie in an arena.

A bucket holds the link to a node of the arena, and a node holds the link to the next
node of its bucket. A link is the number of a node plus one; zero ends a chain. Nodes
are handed out in order and given back all at once.

* `put` adds an entry unless the old address has one, and says whether the table is more
  than three quarters full;
* `grow` doubles the buckets and links every node anew;
* `reset` and `reserve` drop all entries.

A chain has no more nodes than the arena, which bounds the search along it.

Main results: `put_existing` (an entry is never overwritten) and `size_buckets_grow`.
-/
import MarkCompact.Error
import MarkCompact.Forwarding.Capacity

namespace MarkCompact

/-- An entry of the table. -/
structure ForwardNode where
  source : Address
  target : Address
  /-- The next node of the bucket. -/
  next : UInt32
  deriving Repr, Inhabited

/-- A hash table of new addresses. -/
structure ForwardTable where
  buckets : Array UInt32
  nodes : Array ForwardNode
  /-- The nodes handed out. -/
  used : Nat
  entries : Nat
  deriving Repr, Inhabited

/-- What became of an attempt to add an entry. -/
structure InsertOutcome where
  /-- The target that was there before, if one was. -/
  existing : Option Address
  /-- Whether the table is too full. -/
  shouldGrow : Bool
  deriving DecidableEq, Repr

namespace ForwardTable

/-- A table with at least so many buckets and room for so many entries. -/
def new (buckets nodes : Nat) : ForwardTable :=
  { buckets := Array.replicate (powerOfTwoFrom (max buckets 1)) 0
    nodes := Array.replicate nodes ⟨0, 0, 0⟩
    used := 0
    entries := 0 }

/-- The bucket of an address among so many. -/
def bucketAmong (buckets : Nat) (source : Address) : Nat :=
  (mix source &&& (buckets.toUInt64 - 1)).toNat

/-- The bucket of an address. -/
def bucketOf (t : ForwardTable) (source : Address) : Nat := bucketAmong t.buckets.size source

/-- The node of a link. -/
def node (t : ForwardTable) (link : UInt32) : ForwardNode := t.nodes[link.toNat - 1]?.getD default

/-- Follows a chain of at most `fuel` nodes to the entry of an address. -/
def search (t : ForwardTable) (source : Address) : Nat → UInt32 → Option Address
  | 0, _ => none
  | fuel + 1, link =>
    if link = 0 then none
    else if (t.node link).source = source then some (t.node link).target
    else t.search source fuel (t.node link).next

/-- The first link of the chain of an address. -/
def head (t : ForwardTable) (source : Address) : UInt32 := t.buckets[t.bucketOf source]?.getD 0

/-- The target of an address, if it has an entry. -/
def find? (t : ForwardTable) (source : Address) : Option Address :=
  t.search source t.nodes.size (t.head source)

/-- Whether the table is more than three quarters full. -/
def crowded (t : ForwardTable) : Bool := t.buckets.size / 4 * 3 < t.entries

/-- Adds an entry unless the address has one. -/
def put (t : ForwardTable) (source target : Address) :
    Except Fault (InsertOutcome × ForwardTable) :=
  match t.find? source with
  | some existing => .ok (⟨some existing, t.crowded⟩, t)
  | none =>
    if t.used < t.nodes.size then
      let t' : ForwardTable :=
        { buckets := t.buckets.setIfInBounds (t.bucketOf source) (t.used + 1).toUInt32
          nodes := t.nodes.setIfInBounds t.used ⟨source, target, t.head source⟩
          used := t.used + 1
          entries := t.entries + 1 }
      .ok (⟨none, t'.crowded⟩, t')
    else .error (.arenaExhausted t.nodes.size)

/-- Links the nodes of an old chain, at most `fuel` of them, into new buckets. -/
def relink (old : ForwardTable) : Nat → UInt32 → ForwardTable → ForwardTable
  | 0, _, t => t
  | fuel + 1, link, t =>
    if link = 0 then t
    else
      let node := old.node link
      let bucket := t.bucketOf node.source
      old.relink fuel node.next
        { t with
          nodes := t.nodes.setIfInBounds (link.toNat - 1)
            { node with next := t.buckets[bucket]?.getD 0 }
          buckets := t.buckets.setIfInBounds bucket link }

/-- Doubles the buckets. -/
def grow (t : ForwardTable) : ForwardTable :=
  t.buckets.toList.foldl (fun grown link => t.relink t.nodes.size link grown)
    { t with buckets := Array.replicate (t.buckets.size * 2) 0 }

/-- Drops all entries. -/
def reset (t : ForwardTable) : ForwardTable :=
  { t with buckets := Array.replicate t.buckets.size 0, used := 0, entries := 0 }

/-- Drops all entries and makes room for at least so many. -/
def reserve (t : ForwardTable) (entries : Nat) : ForwardTable :=
  (if t.nodes.size < entries then { t with nodes := Array.replicate entries ⟨0, 0, 0⟩ }
    else t).reset

theorem put_existing {t : ForwardTable} {source existing : Address}
    (h : t.find? source = some existing) (target : Address) :
    t.put source target = .ok (⟨some existing, t.crowded⟩, t) := by
  simp [put, h]

theorem size_buckets_relink (old : ForwardTable) (fuel : Nat) (link : UInt32) (t : ForwardTable) :
    (old.relink fuel link t).buckets.size = t.buckets.size := by
  induction fuel generalizing link t with
  | zero => rfl
  | succ fuel ih =>
    unfold relink
    split
    · rfl
    · rw [ih]
      simp

/-- Growing doubles the buckets. -/
theorem size_buckets_grow (t : ForwardTable) : t.grow.buckets.size = t.buckets.size * 2 := by
  have keep : ∀ (links : List UInt32) (g : ForwardTable),
      (links.foldl (fun grown link => t.relink t.nodes.size link grown) g).buckets.size
        = g.buckets.size := by
    intro links
    induction links with
    | nil => exact fun _ => rfl
    | cons link links ih => exact fun g => (ih _).trans (size_buckets_relink ..)
  rw [grow, keep]
  simp

end ForwardTable

end MarkCompact
