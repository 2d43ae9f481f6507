/-
MarkCompact/Proofs/BlockTables.lean

What a block offset table is good for, whatever the sources and the spaces.

`Sourced` says what a table is filled in from: ascending sources whose bottoms are
first addresses of blocks, and a bitmap that shows objects which lie whole in them.
A source may end inside a block, blocks may be empty, and an object may reach over
many blocks of its source.  The spaces may lie anywhere.

* `Sourced.block`, `pairwise_blocksOf` — the blocks of the sources follow each other;
* `Sourced.flatMap_group` — each object begins in one of them;
* `Agrees` — the table has the new addresses of the pass without a table, so that the
  images are apart, inside the spaces and in the order of the objects.

Main result: `build_agrees`.
-/
import MarkCompact.Proofs.ReferencePass

namespace MarkCompact

/-- Two ascending lists of the same addresses are the same list. -/
theorem eq_of_ascending {as cs : List Address} (has : as.Pairwise fun a c => a.toNat < c.toNat)
    (hcs : cs.Pairwise fun a c => a.toNat < c.toNat) (hmem : ∀ a, a ∈ as ↔ a ∈ cs) : as = cs := by
  have hnodup : ∀ {l : List Address}, l.Pairwise (fun a c => a.toNat < c.toNat) → l.Nodup :=
    fun h => h.imp fun hlt heq => by
      rw [heq] at hlt
      exact Nat.lt_irrefl _ hlt
  exact ((List.perm_ext_iff_of_nodup (hnodup has) (hnodup hcs)).2 hmem).eq_of_pairwise
    (fun a c _ _ h1 h2 => absurd (Nat.lt_trans h1 h2) (Nat.lt_irrefl _)) has hcs

namespace BlockOffsets

variable {b : Bitmap} {words : Address → Nat}

/-! ### Sources, and the objects in them -/

/-- Ascending sources whose bottoms are the first addresses of blocks, and all objects that the
bitmap shows, in the order of their addresses, each of them whole in one source. -/
structure Sourced (t : BlockOffsets) (b : Bitmap) (words : Address → Nat)
    (sources : List (Address × Address)) (objects : List Address) : Prop extends t.Sized where
  /-- What the bitmap covers has addresses, and so have the blocks of the table. -/
  base : b.base.toNat % 8 = 0
  covered : b.base.toNat + 8 * b.covered.toNat < 2 ^ 64
  fits : t.base.toNat + t.entries.size * t.blockSize < 2 ^ 64
  edges : ∀ s ∈ sources, b.grid.IsEdge s.1 ∧ b.grid.IsEdge s.2 ∧ s.1.toNat ≤ s.2.toNat
  blocks : ∀ s ∈ sources, t.base.toNat ≤ s.1.toNat ∧ (s.1.toNat - t.base.toNat) % t.blockSize = 0 ∧
    s.2.toNat ≤ t.base.toNat + t.entries.size * t.blockSize
  ascending : sources.Pairwise fun s s' => s.2.toNat ≤ s'.1.toNat
  shows : b.Shows b.grid (· ∈ objects) words
  apart : objects.Pairwise fun a c => a.toNat + 8 * words a ≤ c.toNat
  whole : ∀ a ∈ objects, 0 < words a ∧ a.toNat % 8 = 0 ∧
    ∃ s ∈ sources, s.1.toNat ≤ a.toNat ∧ a.toNat + 8 * words a ≤ s.2.toNat

/-- The groups of the objects: what begins in one block of one source, with the end of that
source. -/
def groupsOf (t : BlockOffsets) (sources : List (Address × Address)) (objects : List Address) :
    List (Address × List Address) :=
  (t.blocksOf sources).map fun q => (q.2, objects.filter fun a => t.blockOf a == t.blockOf q.1)

namespace Sourced

variable {t : BlockOffsets} {sources : List (Address × Address)} {objects : List Address}
  (h : t.Sourced b words sources objects)
include h

theorem spans : b.grid.Spans := Bitmap.spans_grid h.base h.covered

theorem end_le {s : Address × Address} (hs : s ∈ sources) {a : Address} (ha : a ∈ objects)
    (h1 : s.1.toNat ≤ a.toNat) (h2 : a.toNat < s.2.toNat) : a.toNat + 8 * words a ≤ s.2.toNat := by
  obtain ⟨hpos, -, s', hs', h3, h4⟩ := h.whole a ha
  rcases eq_or_of_pairwise h.ascending hs hs' with rfl | h5 | h5
  · exact h4
  · omega
  · omega

theorem spread : Bitmap.Spread b.grid (· ∈ objects) words := by
  have hstop := h.spans.toNat_stop
  refine ⟨fun a ha => ?_, fun a ha => (h.whole a ha).1, fun a ha => ?_, ?_⟩
  · obtain ⟨hpos, h1, s, hs, h2, h3⟩ := h.whole a ha
    obtain ⟨⟨e1, e2, e3⟩, ⟨e4, e5, e6⟩, -⟩ := h.edges s hs
    exact ⟨by omega, by omega, h1⟩
  · obtain ⟨hpos, h1, s, hs, h2, h3⟩ := h.whole a ha
    have := (h.edges s hs).2.1.stop
    omega
  · intro a c ha hc hlt
    rcases eq_or_of_pairwise h.apart ha hc with rfl | h1 | h1
    · omega
    · exact h1
    · omega

theorem sorted : objects.Pairwise fun a c => a.toNat < c.toNat :=
  h.apart.imp_of_mem fun ha _ hle => by
    have := (h.whole _ ha).1
    omega

/-! ### The blocks of the sources -/

theorem mem_blocksOf {q : Address × Address} (hq : q ∈ t.blocksOf sources) :
    ∃ s ∈ sources, ∃ i < t.blockCount s.1 s.2, q = (s.1 + i.toUInt64 * t.blockBytes, s.2) := by
  obtain ⟨s, hs, hq⟩ := List.mem_flatMap.1 hq
  obtain ⟨start, hstart, rfl⟩ := List.mem_map.1 hq
  rw [h.toSized.blockStarts_eq (h.edges s hs).2.2] at hstart
  obtain ⟨i, hi, rfl⟩ := List.mem_map.1 hstart
  exact ⟨s, hs, i, List.mem_range.1 hi, rfl⟩

/-- Where a block of a source lies, and that nothing reaches out of it. -/
theorem block {q : Address × Address} (hq : q ∈ t.blocksOf sources) (spaces : Array Space) :
    Filling.Block ⟨t, spaces, 0⟩ b.grid (· ∈ objects) words q.1 q.2 := by
  obtain ⟨s, hs, i, hi, rfl⟩ := h.mem_blocksOf hq
  obtain ⟨hat, hlt⟩ := h.toSized.toNat_blockStart hi
  obtain ⟨⟨e1, e2, e3⟩, hedge, hle⟩ := h.edges s hs
  obtain ⟨b1, b2, b3⟩ := h.blocks s hs
  have hpos := t.blockSize_pos
  have hfits := h.fits
  have hstop := hedge.stop
  have height : t.blockSize % 8 = 0 := by
    unfold blockSize
    omega
  have hoffset : i * t.blockSize % 8 = 0 := by rw [Nat.mul_mod, height]; simp
  obtain ⟨k, hk⟩ := Nat.dvd_of_mod_eq_zero b2
  have hstart : s.1.toNat + i * t.blockSize - t.base.toNat = t.blockSize * (k + i) := by
    rw [Nat.mul_add, Nat.mul_comm t.blockSize i]
    omega
  -- the block is one of the blocks of the table
  have hinside : k + i < t.entries.size := by
    have : t.blockSize * (k + i) < t.blockSize * t.entries.size := by
      rw [Nat.mul_comm _ t.entries.size]
      omega
    exact Nat.lt_of_mul_lt_mul_left this
  have hnext : t.blockSize * (k + i + 1) ≤ t.blockSize * t.entries.size := Nat.mul_le_mul_left _ hinside
  rw [Nat.mul_succ, Nat.mul_comm _ t.entries.size] at hnext
  refine ⟨h.toSized, ⟨?_, ?_, ?_⟩, hedge, ?_, ?_, ?_, ?_, ?_, ?_⟩
  · dsimp only
    omega
  · dsimp only
    omega
  · dsimp only
    omega
  · dsimp only
    omega
  · dsimp only
    omega
  · dsimp only
    rw [hat, hstart]
    exact Nat.mul_mod_right ..
  · dsimp only
    omega
  · dsimp only
    rw [h.toSized.blockOf_eq (by omega), hat, hstart, Nat.mul_div_cancel_left _ hpos]
    exact hinside
  · intro a ha h1 h2
    exact h.end_le hs ha (by dsimp only at h1; omega) h2

/-- One block begins where another one has ended. -/
theorem block_next {q q' : Address × Address} (hq : q ∈ t.blocksOf sources)
    (hq' : q' ∈ t.blocksOf sources) (hlt : q.1.toNat < q'.1.toNat) :
    q.1.toNat + t.blockSize ≤ q'.1.toNat := by
  have hb := h.block hq #[]
  have hb' := h.block hq' #[]
  have h1 := hb.fromBase
  have h2 := hb'.fromBase
  obtain ⟨k, hk⟩ := Nat.dvd_of_mod_eq_zero hb.aligned
  obtain ⟨m, hm⟩ := Nat.dvd_of_mod_eq_zero hb'.aligned
  dsimp only at h1 h2 hk hm
  have hkm : k < m := by
    have : t.blockSize * k < t.blockSize * m := by omega
    exact Nat.lt_of_mul_lt_mul_left this
  have hnext : t.blockSize * (k + 1) ≤ t.blockSize * m := Nat.mul_le_mul_left _ hkm
  rw [Nat.mul_succ] at hnext
  omega

theorem pairwise_blocksOf : (t.blocksOf sources).Pairwise fun q q' => q.1.toNat < q'.1.toNat := by
  have hpos := t.blockSize_pos
  unfold blocksOf
  refine List.pairwise_flatMap.2 ⟨fun s hs => ?_, ?_⟩
  · rw [h.toSized.blockStarts_eq (h.edges s hs).2.2, List.map_map, List.pairwise_map]
    refine List.pairwise_lt_range.imp_of_mem fun {i j} hi hj hlt => ?_
    have hmul : (i + 1) * t.blockSize ≤ j * t.blockSize := Nat.mul_le_mul_right _ hlt
    rw [Nat.succ_mul] at hmul
    have h1 := (h.toSized.toNat_blockStart (List.mem_range.1 hi)).1
    have h2 := (h.toSized.toNat_blockStart (List.mem_range.1 hj)).1
    show (s.1 + i.toUInt64 * t.blockBytes).toNat < (s.1 + j.toUInt64 * t.blockBytes).toNat
    omega
  · refine h.ascending.imp_of_mem fun {s s'} hs hs' hle q hq q' hq' => ?_
    obtain ⟨start, hstart, rfl⟩ := List.mem_map.1 hq
    obtain ⟨start', hstart', rfl⟩ := List.mem_map.1 hq'
    rw [h.toSized.blockStarts_eq (h.edges s hs).2.2] at hstart
    rw [h.toSized.blockStarts_eq (h.edges s' hs').2.2] at hstart'
    obtain ⟨i, hi, rfl⟩ := List.mem_map.1 hstart
    obtain ⟨j, hj, rfl⟩ := List.mem_map.1 hstart'
    obtain ⟨h1, h2⟩ := h.toSized.toNat_blockStart (List.mem_range.1 hi)
    obtain ⟨h3, -⟩ := h.toSized.toNat_blockStart (List.mem_range.1 hj)
    dsimp only
    omega

theorem blocks_start (spaces : Array Space) :
    Filling.Blocks ⟨t, spaces, 0⟩ b.grid (· ∈ objects) words (t.blocksOf sources) :=
  ⟨fun _ hq => h.block hq spaces, h.pairwise_blocksOf.imp_of_mem fun hq hq' hlt =>
    h.block_next hq hq' hlt⟩

/-- Each object begins in a block of its source. -/
theorem exists_block {a : Address} (ha : a ∈ objects) :
    ∃ q ∈ t.blocksOf sources, q.1.toNat ≤ a.toNat ∧
      a.toNat < min (q.1.toNat + t.blockSize) q.2.toNat := by
  obtain ⟨hpos, -, s, hs, h1, h2⟩ := h.whole a ha
  have hsize := t.blockSize_pos
  have hlow := Nat.div_mul_le_self (a.toNat - s.1.toNat) t.blockSize
  have hhigh := Nat.lt_div_mul_add hsize (a := a.toNat - s.1.toNat)
  generalize (a.toNat - s.1.toNat) / t.blockSize = i at hlow hhigh
  have hi : i < t.blockCount s.1 s.2 := by
    refine (Nat.le_div_iff_mul_le hsize).2 ?_
    rw [Nat.succ_mul]
    omega
  obtain ⟨hat, -⟩ := h.toSized.toNat_blockStart hi
  refine ⟨(s.1 + i.toUInt64 * t.blockBytes, s.2), List.mem_flatMap.2 ⟨s, hs, ?_⟩, ?_⟩
  · refine List.mem_map_of_mem ?_
    rw [h.toSized.blockStarts_eq (h.edges s hs).2.2]
    exact List.mem_map_of_mem (List.mem_range.2 hi)
  · dsimp only
    omega

/-- The blocks hold all objects, in their order. -/
theorem flatMap_group (spaces : Array Space) :
    ((t.blocksOf sources).flatMap fun q => Filling.group ⟨t, spaces, 0⟩ b q.1 q.2) = objects := by
  have hmem := fun q (hq : q ∈ t.blocksOf sources) a =>
    (h.block hq spaces).mem_group h.spans h.shows h.spread a
  refine eq_of_ascending (List.pairwise_flatMap.2 ⟨fun q hq =>
    (h.block hq spaces).pairwise_group h.spans h.shows, ?_⟩) h.sorted fun a => ?_
  · refine h.pairwise_blocksOf.imp_of_mem fun {q q'} hq hq' hlt a ha c hc => ?_
    have h1 := ((hmem q hq a).1 ha).2.2
    have h2 := ((hmem q' hq' c).1 hc).2.1
    have h3 := h.block_next hq hq' hlt
    dsimp only at h1
    omega
  · rw [List.mem_flatMap]
    constructor
    · rintro ⟨q, hq, ha⟩
      exact ((hmem q hq a).1 ha).1
    · intro ha
      obtain ⟨q, hq, h1, h2⟩ := h.exists_block ha
      exact ⟨q, hq, (hmem q hq a).2 ⟨ha, h1, h2⟩⟩

/-- What the bitmap lists for a block are the objects in the entry's reach. -/
theorem groupsOf_eq (spaces : Array Space) : t.groupsOf sources objects
    = (t.blocksOf sources).map fun q => (q.2, Filling.group ⟨t, spaces, 0⟩ b q.1 q.2) := by
  unfold groupsOf
  refine List.map_congr_left fun q hq => ?_
  congr 1
  have hb := h.block hq spaces
  refine eq_of_ascending (h.sorted.filter _) (hb.pairwise_group h.spans h.shows) fun a => ?_
  rw [hb.mem_group h.spans h.shows h.spread, List.mem_filter, beq_iff_eq]
  refine and_congr_right fun ha => ?_
  obtain ⟨q', hq', h1, h2⟩ := h.exists_block ha
  have hb' := h.block hq' spaces
  have hin : t.blockOf a = t.blockOf q'.1 :=
    (hb'.sized.blockStart_blockOf hb'.fromBase hb'.aligned h1 (by dsimp only; omega)).1
  constructor
  · intro heq
    -- blocks of one number are one block
    have hstart : q.1 = q'.1 := by
      rw [← (hb.sized.blockStart_blockOf hb.fromBase hb.aligned (le_refl _)
          (Nat.lt_add_of_pos_right t.blockSize_pos)).2,
        ← (hb'.sized.blockStart_blockOf hb'.fromBase hb'.aligned (le_refl _)
          (Nat.lt_add_of_pos_right t.blockSize_pos)).2]
      show t.blockStart (t.blockOf q.1) = t.blockStart (t.blockOf q'.1)
      rw [← heq, hin]
    have hsame : q = q' := by
      rcases eq_or_of_pairwise h.pairwise_blocksOf hq hq' with heq | hlt | hlt
      · exact heq
      · rw [hstart] at hlt
        exact absurd hlt (Nat.lt_irrefl _)
      · rw [hstart] at hlt
        exact absurd hlt (Nat.lt_irrefl _)
    rw [hsame]
    exact ⟨h1, h2⟩
  · rintro ⟨h3, h4⟩
    exact (hb.sized.blockStart_blockOf hb.fromBase hb.aligned h3 (by
      dsimp only at h4 ⊢
      omega)).1

end Sourced

/-! ### The table and the pass -/

/-- Destination spaces in which nothing has been placed, no two with a common address. -/
structure Fresh (spaces : List Space) : Prop where
  empty : ∀ s ∈ spaces, s.top = s.bottom ∧ s.bottom.toNat ≤ s.stop.toNat
  disjoint : spaces.Pairwise fun s s' =>
    s.stop.toNat ≤ s'.bottom.toNat ∨ s'.stop.toNat ≤ s.bottom.toNat

/-- The filled table has the new addresses of the pass without a table, which are those of the
berths `bs`. -/
structure Agrees (t : BlockOffsets) (b : Bitmap) (words : Address → Nat)
    (sources : List (Address × Address)) (objects : List Address) (spaces : List Space)
    (f : Filling) (bs : List Berth) : Prop where
  all : bs.map Berth.object = objects
  reference : referencePass b (t.groupsOf sources objects) spaces
    = some (bs.map fun p => (p.object, p.target))
  forwardee : ∀ p ∈ bs, f.table.forwardee b p.object = p.target
  size : ∀ p ∈ bs, p.words = words p.object
  inside : ∀ p ∈ bs, ∃ s, spaces[p.space]? = some s ∧ s.bottom.toNat ≤ p.target.toNat ∧
    p.stop ≤ s.stop.toNat
  disjoint : bs.Pairwise fun p q => p.stop ≤ q.target.toNat ∨ q.stop ≤ p.target.toNat
  ordered : bs.Pairwise fun p q => p.space < q.space ∨ p.space = q.space ∧ p.stop ≤ q.target.toNat
  count : f.spaces.size = spaces.length
  tops : ∀ j s, spaces[j]? = some s → ∃ s', f.spaces[j]? = some s' ∧ s'.bottom = s.bottom ∧
    s'.stop = s.stop ∧
    s'.top.toNat = s.bottom.toNat + 8 * ((bs.filter fun p => p.space == j).map Berth.words).sum

/-- The spaces are the regions in which the sources lie, in the same order. -/
def Encloses (spaces : List Space) (sources : List (Address × Address)) : Prop :=
  List.Forall₂ (fun s r => s.bottom = r.1 ∧ s.top = s.bottom ∧ r.2.toNat ≤ s.stop.toNat) spaces sources

variable {t : BlockOffsets} {sources : List (Address × Address)} {objects : List Address}
  {spaces : List Space} {f : Filling} {bs : List Berth}

theorem Filling.spaceAt_start (t : BlockOffsets) (spaces : List Space) (j : Nat) :
    spaceAt ⟨t, spaces.toArray, 0⟩ j = spaces[j]?.getD default := by
  unfold spaceAt
  rw [List.getElem?_toArray]

theorem Fresh.bounds (hfresh : Fresh spaces) (j : Nat) :
    (Filling.spaceAt ⟨t, spaces.toArray, 0⟩ j).top.toNat
      ≤ (Filling.spaceAt ⟨t, spaces.toArray, 0⟩ j).stop.toNat := by
  rw [Filling.spaceAt_start]
  cases hj : spaces[j]? with
  | none => exact le_refl _
  | some s =>
    obtain ⟨htop, hle⟩ := hfresh.empty s (List.mem_of_getElem? hj)
    rw [Option.getD_some, htop]
    exact hle

/-- What has been passed from the first block to the last one, in fresh spaces. -/
theorem Sourced.agrees (h : t.Sourced b words sources objects) (hfresh : Fresh spaces)
    (hp : Filling.Passed b words (t.blocksOf sources) ⟨t, spaces.toArray, 0⟩ f bs) :
    t.Agrees b words sources objects spaces f bs := by
  have hat : ∀ j s, spaces[j]? = some s → Filling.spaceAt ⟨t, spaces.toArray, 0⟩ j = s := by
    intro j s hj
    rw [Filling.spaceAt_start, hj]
    rfl
  have hspace : ∀ p ∈ bs, ∃ s, spaces[p.space]? = some s ∧ s.bottom.toNat ≤ p.target.toNat ∧
      p.stop ≤ s.stop.toNat := by
    intro p hp'
    have hlt : p.space < spaces.length := (hp.space p hp').2.2
    have hs : spaces[p.space]? = some spaces[p.space] := List.getElem?_eq_getElem hlt
    refine ⟨_, hs, ?_⟩
    have hrun : (p.target, p.words) ∈ (bs.filter fun q => q.space == p.space).map Berth.run :=
      List.mem_map_of_mem (f := Berth.run) (List.mem_filter.2 ⟨hp', beq_self_eq_true _⟩)
    obtain ⟨h1, h2⟩ := (hp.tiled p.space).mem hrun
    have h3 := hp.bounds p.space
    rw [(hp.extent p.space).2, hat _ _ hs] at h3
    rw [hat _ _ hs, (hfresh.empty _ (List.getElem_mem hlt)).1] at h1
    exact ⟨h1, h2.trans h3⟩
  -- in one space the images follow each other
  have hordered : bs.Pairwise fun p q =>
      p.space < q.space ∨ p.space = q.space ∧ p.stop ≤ q.target.toNat := by
    refine List.pairwise_iff_getElem.2 fun i k hi hk hik => ?_
    have hle := List.pairwise_iff_getElem.1 hp.ascending i k hi hk hik
    have hrow := List.pairwise_filter.1 (List.pairwise_map.1 (hp.tiled bs[k].space).pairwise)
    rcases Nat.lt_or_ge bs[i].space bs[k].space with hlt | hge
    · exact .inl hlt
    · have heq : bs[i].space = bs[k].space := by omega
      exact .inr ⟨heq, List.pairwise_iff_getElem.1 hrow i k hi hk hik (beq_iff_eq.2 heq)
        (beq_self_eq_true _)⟩
  have hcount : f.spaces.size = spaces.length := hp.count
  refine ⟨?_, ?_, hp.places, hp.size, hspace, ?_, hordered, hcount, ?_⟩
  · rw [hp.objects, h.flatMap_group]
  · have href := hp.reference []
    rw [List.append_nil, ← h.groupsOf_eq spaces.toArray] at href
    simpa [referencePass] using href
  · refine hordered.imp_of_mem fun {p q} hp' hq' hcase => ?_
    rcases hcase with hlt | ⟨-, hle⟩
    · obtain ⟨s, hs, h1, h2⟩ := hspace p hp'
      obtain ⟨s', hs', h3, h4⟩ := hspace q hq'
      obtain ⟨hi, rfl⟩ := List.getElem?_eq_some_iff.1 hs
      obtain ⟨hk, rfl⟩ := List.getElem?_eq_some_iff.1 hs'
      rcases List.pairwise_iff_getElem.1 hfresh.disjoint _ _ hi hk hlt with h5 | h5
      · exact .inl (h2.trans (h5.trans h3))
      · exact .inr (h4.trans (h5.trans h1))
    · exact .inl hle
  · intro j s hj
    have hlt : j < f.spaces.size := by
      rw [hcount]
      exact (List.getElem?_eq_some_iff.1 hj).1
    have hget : f.spaces[j]? = some f.spaces[j] := Array.getElem?_eq_getElem hlt
    have hfinal : f.spaceAt j = f.spaces[j] := by
      unfold Filling.spaceAt
      rw [hget]
      rfl
    obtain ⟨h1, h2⟩ := hp.extent j
    have h3 := (hp.tiled j).stop_eq
    rw [hat j s hj, (hfresh.empty s (List.mem_of_getElem? hj)).1, List.map_map] at h3
    rw [hat j s hj, hfinal] at h1 h2
    rw [hfinal] at h3
    exact ⟨_, hget, h1, h2, h3⟩

theorem Encloses.getElem? (henc : Encloses spaces sources) {j : Nat} {s : Space}
    (hs : spaces[j]? = some s) : ∃ r, sources[j]? = some r ∧ s.bottom = r.1 ∧ s.top = s.bottom ∧
      r.2.toNat ≤ s.stop.toNat := by
  obtain ⟨hj, rfl⟩ := List.getElem?_eq_some_iff.1 hs
  have hj' : j < sources.length := by rwa [← henc.length_eq]
  exact ⟨sources[j], List.getElem?_eq_getElem hj', henc.get hj hj'⟩

/-- Spaces that enclose the sources, before the first block. -/
theorem Sourced.enclosed (h : t.Sourced b words sources objects) (henc : Encloses spaces sources)
    (hne : sources ≠ []) : Filling.Enclosed sources ⟨t, spaces.toArray, 0⟩ ∧
      (∀ j, (Filling.spaceAt ⟨t, spaces.toArray, 0⟩ j).top.toNat
        ≤ (Filling.spaceAt ⟨t, spaces.toArray, 0⟩ j).stop.toNat) ∧
      ∀ r ∈ sources, (Filling.target ⟨t, spaces.toArray, 0⟩).top.toNat ≤ r.1.toNat := by
  have hlength := henc.length_eq
  have hpos := List.length_pos_of_ne_nil hne
  have hat := Filling.spaceAt_start t spaces
  have hall : ∀ j : Nat, (spaces[j]?.getD default).top = (spaces[j]?.getD default).bottom ∧
      (spaces[j]?.getD default).bottom.toNat ≤ (spaces[j]?.getD default).stop.toNat := by
    intro j
    cases hj : spaces[j]? with
    | none => exact ⟨rfl, le_refl _⟩
    | some s =>
      obtain ⟨r, hr, h1, h2, h3⟩ := henc.getElem? hj
      have h4 := (h.edges r (List.mem_of_getElem? hr)).2.2
      refine ⟨h2, ?_⟩
      rw [Option.getD_some, h1]
      omega
  have hsource : ∀ (j : Nat) r, sources[j]? = some r → (spaces[j]?.getD default).bottom = r.1 ∧
      r.2.toNat ≤ (spaces[j]?.getD default).stop.toNat := by
    intro j r hr
    have hj : j < spaces.length := by
      rw [hlength]
      exact (List.getElem?_eq_some_iff.1 hr).1
    have hget : spaces[j]? = some spaces[j] := List.getElem?_eq_getElem hj
    obtain ⟨r', hr', h1, -, h2⟩ := henc.getElem? hget
    obtain rfl := Option.some.inj (hr.symm.trans hr')
    rw [hget]
    exact ⟨h1, h2⟩
  refine ⟨⟨?_, hlength, ?_, ?_, ?_⟩, ?_, ?_⟩
  · show 0 < spaces.length
    omega
  · intro j r hr
    rw [hat]
    exact hsource j r hr
  · intro j
    rw [hat, (hall j).1]
  · intro j _
    rw [hat]
    exact (hall j).1
  · intro j
    rw [hat, (hall j).1]
    exact (hall j).2
  · intro r hr
    show (Filling.spaceAt ⟨t, spaces.toArray, 0⟩ 0).top.toNat ≤ _
    obtain ⟨first, rest, rfl⟩ := List.exists_cons_of_ne_nil hne
    rw [hat, (hall 0).1, (hsource 0 first rfl).1]
    rcases List.mem_cons.1 hr with rfl | hr
    · exact le_refl _
    · exact (h.edges first List.mem_cons_self).2.2.trans ((List.pairwise_cons.1 h.ascending).1 r hr)

/-- The block offset table has the new addresses that the pass without a table assigns, object by
object. Spaces that enclose the sources never run out, and then no object goes to the right. -/
theorem build_agrees (h : t.Sourced b words sources objects) :
    (∀ spaces f, Fresh spaces → t.build b sources spaces.toArray = .ok f →
      ∃ bs, t.Agrees b words sources objects spaces f bs) ∧
    (∀ spaces, Encloses spaces sources → ∃ f, t.build b sources spaces.toArray = .ok f ∧
      ∀ a ∈ objects, (f.table.forwardee b a).toNat ≤ a.toNat) := by
  constructor
  · intro spaces f hfresh hrun
    rw [build_eq] at hrun
    obtain ⟨bs, hp⟩ := Filling.passed_run h.spans h.shows h.spread (h.blocks_start spaces.toArray)
      hfresh.bounds hrun
    exact ⟨bs, h.agrees hfresh hp⟩
  · intro spaces henc
    rw [build_eq]
    rcases eq_or_ne sources [] with rfl | hne
    · refine ⟨_, rfl, fun a ha => ?_⟩
      obtain ⟨-, -, s, hs, -⟩ := h.whole a ha
      simp at hs
    · obtain ⟨hstart, hbounds, hfirst⟩ := h.enclosed henc hne
      obtain ⟨f, bs, hrun, hp, hleft⟩ := hstart.exists_run h.spans h.shows h.spread
        (fun s hs => (h.edges s hs).2.2) h.ascending hbounds (h.blocks_start spaces.toArray)
        (fun q hq => by
          obtain ⟨s, hs, i, hi, rfl⟩ := h.mem_blocksOf hq
          obtain ⟨pos, hpos⟩ := List.getElem?_of_mem hs
          refine ⟨pos, s.1, hpos, ?_⟩
          rw [(h.toSized.toNat_blockStart hi).1]
          exact Nat.le_add_right ..)
        (fun q hq a ha => by
          obtain ⟨-, h1, -⟩ := (h.block hq spaces.toArray).ends_group h.spans h.shows h.spread ha
          obtain ⟨s, hs, i, hi, rfl⟩ := h.mem_blocksOf hq
          have h2 := hfirst s hs
          have h3 := (h.toSized.toNat_blockStart hi).1
          dsimp only at h1
          omega)
      refine ⟨f, hrun, fun a ha => ?_⟩
      rw [← h.flatMap_group spaces.toArray, ← hp.objects] at ha
      obtain ⟨p, hp', rfl⟩ := List.mem_map.1 ha
      rw [hp.places p hp']
      exact hleft p hp'

/-- Two objects in a source that ends inside a block, the first over two blocks of two words. -/
theorem build_agrees_two :
    let b := (Bitmap.new 0x1000 16).markAll (fun _ => 2) [0x1008, 0x1020]
    let t := new 0x1000 16 1
    let spaces := [Space.new 0x1000 0x1080]
    ∃ f bs, t.build b [(0x1000, 0x1038)] spaces.toArray = .ok f ∧
      t.Agrees b (fun _ => 2) [(0x1000, 0x1038)] [0x1008, 0x1020] spaces f bs ∧
      ∀ a ∈ [(0x1008 : Address), 0x1020], (f.table.forwardee b a).toNat ≤ a.toNat := by
  intro b t spaces
  have hgrid : b.grid = (Bitmap.new 0x1000 16).grid := Bitmap.grid_markAll ..
  have hbase : b.base = 0x1000 := congrArg Layout.base hgrid
  have hcovered : b.covered = 16 := UInt64.toNat_inj.1 (congrArg Layout.numRegions hgrid)
  have hsourced : t.Sourced b (fun _ => 2) [(0x1000, 0x1038)] [0x1008, 0x1020] := by
    refine ⟨⟨by decide⟩, ?_, ?_, by decide, ?_, ?_, by decide, ?_, by decide, ?_⟩
    · rw [hbase]
      decide
    · rw [hbase, hcovered]
      decide
    · rw [hgrid]
      simp only [List.forall_mem_singleton]
      decide
    · simp only [List.forall_mem_singleton]
      decide
    · rw [hgrid]
      refine Bitmap.shows_marked (by decide) (by decide) (by decide) ?_
      exact List.forall_mem_cons.2 ⟨by decide, List.forall_mem_singleton.2 (by decide)⟩
    · -- both objects lie in the one source
      simp only [List.mem_singleton, exists_eq_left]
      exact List.forall_mem_cons.2 ⟨by decide, List.forall_mem_singleton.2 (by decide)⟩
  obtain ⟨hagrees, hencloses⟩ := build_agrees hsourced
  obtain ⟨f, hrun, hleft⟩ := hencloses spaces (.cons (by decide) .nil)
  obtain ⟨bs, hbs⟩ := hagrees spaces f ⟨by decide, by decide⟩ hrun
  exact ⟨f, bs, hrun, hbs, hleft⟩

end BlockOffsets

end MarkCompact
