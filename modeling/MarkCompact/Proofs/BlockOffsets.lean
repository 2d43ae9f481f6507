/-
MarkCompact/Proofs/BlockOffsets.lean

The block offset table: new addresses computed from the bitmap.

The objects that begin in one block go, packed, to one space, so the table keeps
one address for each block, and the new address of an object is that address plus
the live words of the block before it.  Words of an object that began in an
earlier block are counted too, and the entry is lowered by as much
(`forwardee_of_entry`).  So filling in one block lays out its objects as one row
(`Filling.addBlock_spec`), whatever the other blocks hold.

Main results: `Filling.addBlock_of_empty` and `Filling.addBlock_spec` (what one
block adds), `mem_blockStarts` (the blocks of a source).
-/
import MarkCompact.Proofs.LiveWords
import MarkCompact.Proofs.Berths
import MarkCompact.Proofs.Loops
import MarkCompact.Placement.BlockOffset

namespace MarkCompact

namespace BlockOffsets

/-- The bytes of a block. -/
def blockSize (t : BlockOffsets) : Nat := 8 * 2 ^ t.blockShift.toNat

/-- A table over a grid of regions. -/
structure Grounded (t : BlockOffsets) (l : Layout) : Prop where
  base : t.base = l.base
  greatest : t.blockShift.toNat ≤ 60

/-- A table whose blocks have a number of bytes. -/
structure Sized (t : BlockOffsets) : Prop where
  greatest : t.blockShift.toNat ≤ 60

theorem Grounded.sized {t : BlockOffsets} {l : Layout} (hg : t.Grounded l) : t.Sized := ⟨hg.greatest⟩

variable {t : BlockOffsets} {b : Bitmap} {l : Layout} {live : Address → Prop} {words : Address → Nat}

theorem blockSize_pos (t : BlockOffsets) : 0 < t.blockSize := by
  unfold blockSize
  have := Nat.one_le_two_pow (n := t.blockShift.toNat)
  omega

theorem Sized.blockSize_le (hg : t.Sized) : t.blockSize ≤ 8 * 2 ^ 60 := by
  have := Nat.pow_le_pow_right (n := 2) (by decide) hg.greatest
  unfold blockSize
  omega

/-- A new table has an entry for every block that begins in its range. -/
theorem covers_new (base : Address) (covered : WordCount) {shift : UInt32} (hshift : shift.toNat ≤ 60) :
    8 * covered.toNat ≤ (new base covered shift).entries.size * (new base covered shift).blockSize := by
  have hpos : 0 < 2 ^ shift.toNat := Nat.two_pow_pos _
  have hwords : (wordsOf shift).toNat = 2 ^ shift.toNat := by
    unfold wordsOf
    rw [UInt64.toNat_shiftLeft, UInt32.toNat_toUInt64]
    show (1 <<< (shift.toNat % 64)) % 2 ^ 64 = _
    rw [Nat.mod_eq_of_lt (show shift.toNat < 64 by omega), Nat.one_shiftLeft]
    exact Nat.mod_eq_of_lt (Nat.pow_lt_pow_right (by decide) (by omega))
  unfold new
  dsimp only
  rw [Array.size_replicate, hwords]
  show _ ≤ _ * (8 * 2 ^ shift.toNat)
  rw [Nat.mul_left_comm]
  refine Nat.mul_le_mul_left 8 ?_
  have h1 := Nat.div_add_mod (covered.toNat + (2 ^ shift.toNat - 1)) (2 ^ shift.toNat)
  have h2 := Nat.mod_lt (covered.toNat + (2 ^ shift.toNat - 1)) hpos
  rw [Nat.mul_comm] at h1
  omega

theorem Sized.toNat_blockBytes (hg : t.Sized) : t.blockBytes.toNat = t.blockSize := by
  have h1 : t.blockShift.toUInt64.toNat % 64 = t.blockShift.toNat := by
    have := hg.greatest
    rw [UInt32.toNat_toUInt64]
    omega
  have h2 := hg.blockSize_le
  have h3 : (1 <<< t.blockShift.toUInt64 : UInt64).toNat = 2 ^ t.blockShift.toNat := by
    unfold blockSize at h2
    rw [UInt64.toNat_shiftLeft, h1, Nat.shiftLeft_eq, UInt64.toNat_one, Nat.one_mul,
      Nat.mod_eq_of_lt (by omega)]
  unfold blockBytes blockWords wordsOf
  rw [toNat_shiftLeft_three, h3]
  unfold blockSize at h2 ⊢
  omega

private theorem Sized.toNat_byteShift (hg : t.Sized) :
    (t.blockShift + 3).toUInt64.toNat % 64 = t.blockShift.toNat + 3 := by
  have := hg.greatest
  have h1 : (t.blockShift + 3).toNat = t.blockShift.toNat + 3 := by
    rw [UInt32.toNat_add]
    show (t.blockShift.toNat + 3) % 2 ^ 32 = _
    omega
  rw [UInt32.toNat_toUInt64, h1]
  omega

theorem Sized.blockOf_eq (hg : t.Sized) {a : Address} (ha : t.base.toNat ≤ a.toNat) :
    t.blockOf a = (a.toNat - t.base.toNat) / t.blockSize := by
  unfold blockOf
  rw [UInt64.toNat_shiftRight, hg.toNat_byteShift,
    UInt64.toNat_sub_of_le _ _ (UInt64.le_iff_toNat_le.2 ha), Nat.shiftRight_eq_div_pow, Nat.pow_add]
  unfold blockSize
  rw [Nat.mul_comm 8]

theorem Grounded.blockOf_eq (hg : t.Grounded l) {a : Address} (ha : l.base.toNat ≤ a.toNat) :
    t.blockOf a = (a.toNat - l.base.toNat) / t.blockSize := by
  rw [hg.sized.blockOf_eq (by rwa [hg.base]), hg.base]

/-- Where the block of an address begins. -/
theorem Sized.blockStart_blockOf (hg : t.Sized) {start a : Address}
    (hbase : t.base.toNat ≤ start.toNat) (haligned : (start.toNat - t.base.toNat) % t.blockSize = 0)
    (h1 : start.toNat ≤ a.toNat) (h2 : a.toNat < start.toNat + t.blockSize) :
    t.blockOf a = t.blockOf start ∧ t.blockStart (t.blockOf a) = start := by
  have hpos := t.blockSize_pos
  obtain ⟨k, hk⟩ := Nat.dvd_of_mod_eq_zero haligned
  have hstart : t.blockOf start = k := by
    rw [hg.blockOf_eq hbase, hk, Nat.mul_div_cancel_left _ hpos]
  have ha : t.blockOf a = k := by
    rw [hg.blockOf_eq (hbase.trans h1), Nat.div_eq_iff hpos, Nat.mul_comm]
    omega
  refine ⟨ha.trans hstart.symm, ?_⟩
  have hlt := start.toNat_lt
  have hkle : k ≤ t.blockSize * k := Nat.le_mul_of_pos_left k hpos
  have hk1 : k.toUInt64.toNat = k := by
    rw [UInt64.toNat_ofNat']
    omega
  -- the sum of base and offset is `start` itself, so nothing overflows
  have hshift : (k.toUInt64 <<< (t.blockShift + 3).toUInt64).toNat = t.blockSize * k := by
    rw [UInt64.toNat_shiftLeft, hg.toNat_byteShift, hk1, Nat.shiftLeft_eq, Nat.pow_add]
    have h3 : k * (2 ^ t.blockShift.toNat * 2 ^ 3) = t.blockSize * k := by
      unfold blockSize
      ring
    rw [h3]
    omega
  apply UInt64.toNat_inj.1
  unfold blockStart
  rw [ha, UInt64.toNat_add, hshift]
  omega

/-- The table with another entry for a block. -/
def withEntry (t : BlockOffsets) (k : Nat) (e : Option Address) : BlockOffsets :=
  { t with entries := t.entries.setIfInBounds k e }

theorem entry_withEntry (t : BlockOffsets) {k : Nat} (hk : k < t.entries.size) (j : Nat)
    (e : Option Address) : (t.withEntry k e).entry j = if k = j then e else t.entry j := by
  unfold entry withEntry
  dsimp only
  rw [Array.getElem?_setIfInBounds]
  by_cases h : k = j
  · rw [if_pos h, if_pos h, if_pos hk]
    rfl
  · rw [if_neg h, if_neg h]

/-- The entries of other blocks do not decide where an object goes. -/
theorem forwardee_withEntry_of_ne (t : BlockOffsets) (b : Bitmap) {k : Nat} {a : Address}
    (hk : k ≠ t.blockOf a) (e : Option Address) :
    (t.withEntry k e).forwardee b a = t.forwardee b a := by
  have hentry : (t.withEntry k e).entry (t.blockOf a) = t.entry (t.blockOf a) := by
    unfold entry withEntry
    dsimp only
    rw [Array.getElem?_setIfInBounds, if_neg hk]
  show ((t.withEntry k e).entry (t.blockOf a)).getD Address.greatest + _ = _
  rw [hentry]
  rfl

/-- An entry that makes up for the live words before the first object of the block sends the
objects of the block one after the other from `target` on. -/
theorem Sized.forwardee_of_entry (hg : t.Sized) {start a target : Address} {tail before : Nat}
    (hbase : t.base.toNat ≤ start.toNat) (haligned : (start.toNat - t.base.toNat) % t.blockSize = 0)
    (h1 : start.toNat ≤ a.toNat) (h2 : a.toNat < start.toNat + t.blockSize)
    (hentry : t.entry (t.blockOf start) = (target - tail.toUInt64 * wordBytes).asEntry)
    (hcount : b.countWords start a = tail + before) (fits : target.toNat + 8 * before < 2 ^ 64) :
    t.forwardee b a = target.nth before := by
  obtain ⟨h3, h4⟩ := hg.blockStart_blockOf hbase haligned h1 h2
  unfold forwardee
  dsimp only
  rw [h4, h3, hentry, Address.getD_asEntry, hcount, toUInt64_add, ← Address.add_mul_eq_nth fits]
  grind

/-! ### The blocks of a source -/

/-- The number of blocks from `bottom` up to `top`. -/
def blockCount (t : BlockOffsets) (bottom top : Address) : Nat :=
  (top.toNat - bottom.toNat + (t.blockSize - 1)) / t.blockSize

theorem Sized.blockStarts_eq (hg : t.Sized) {bottom top : Address}
    (hle : bottom.toNat ≤ top.toNat) :
    t.blockStarts bottom top
      = (List.range (t.blockCount bottom top)).map fun i => bottom + i.toUInt64 * t.blockBytes := by
  unfold blockStarts blockCount
  have hpos := t.blockSize_pos
  by_cases hlt : bottom < top
  · rw [if_pos hlt, UInt64.toNat_sub_of_le _ _ (UInt64.le_of_lt hlt), hg.toNat_blockBytes]
  · rw [if_neg hlt]
    rw [UInt64.lt_iff_toNat_lt] at hlt
    rw [show top.toNat - bottom.toNat + (t.blockSize - 1) = t.blockSize - 1 from by omega,
      Nat.div_eq_of_lt (by omega)]
    rfl

/-- The blocks of a source begin one block size apart, below its top. -/
theorem Sized.toNat_blockStart (hg : t.Sized) {bottom top : Address} {i : Nat}
    (hi : i < t.blockCount bottom top) :
    (bottom + i.toUInt64 * t.blockBytes).toNat = bottom.toNat + i * t.blockSize ∧
      bottom.toNat + i * t.blockSize < top.toNat := by
  have hpos := t.blockSize_pos
  have hlt := top.toNat_lt
  have h1 : (i + 1) * t.blockSize ≤ top.toNat - bottom.toNat + (t.blockSize - 1) :=
    (Nat.le_div_iff_mul_le hpos).1 hi
  rw [Nat.succ_mul] at h1
  have h2 : bottom.toNat + i * t.blockSize < top.toNat := by omega
  have h3 : i ≤ i * t.blockSize := Nat.le_mul_of_pos_right i hpos
  have h4 : i.toUInt64.toNat = i := by
    rw [UInt64.toNat_ofNat']
    omega
  refine ⟨?_, h2⟩
  rw [UInt64.toNat_add, UInt64.toNat_mul, h4, hg.toNat_blockBytes]
  omega

/-! ### Tables that are filled in -/

/-- The blocks of the table `t'` are those of `t`. -/
structure SameBlocks (t t' : BlockOffsets) : Prop where
  base : t'.base = t.base
  shift : t'.blockShift = t.blockShift
  size : t'.entries.size = t.entries.size

theorem SameBlocks.refl (t : BlockOffsets) : t.SameBlocks t := ⟨rfl, rfl, rfl⟩

theorem SameBlocks.trans {t' t'' : BlockOffsets} (h : t.SameBlocks t') (h' : t'.SameBlocks t'') :
    t.SameBlocks t'' :=
  ⟨h'.base.trans h.base, h'.shift.trans h.shift, h'.size.trans h.size⟩

theorem sameBlocks_withEntry (t : BlockOffsets) (k : Nat) (e : Option Address) :
    t.SameBlocks (t.withEntry k e) :=
  ⟨rfl, rfl, Array.size_setIfInBounds⟩

namespace SameBlocks

variable {t' : BlockOffsets} (h : t.SameBlocks t')
include h

theorem blockOf (a : Address) : t'.blockOf a = t.blockOf a := by
  unfold BlockOffsets.blockOf
  rw [h.base, h.shift]

theorem blockSize : t'.blockSize = t.blockSize := by
  unfold BlockOffsets.blockSize
  rw [h.shift]

theorem blockBytes : t'.blockBytes = t.blockBytes := by
  unfold BlockOffsets.blockBytes blockWords
  rw [h.shift]

theorem blockStarts (bottom top : Address) : t'.blockStarts bottom top = t.blockStarts bottom top := by
  unfold BlockOffsets.blockStarts
  rw [h.blockBytes]

theorem sized (hg : t.Sized) : t'.Sized :=
  ⟨by rw [h.shift]; exact hg.greatest⟩

end SameBlocks

namespace Filling

theorem table_makeRoom {f f' : Filling} {words : WordCount} {block : Nat}
    (hrun : f.makeRoom words block = .ok f') : f'.table = f.table := by
  fun_induction makeRoom f words block with
  | case1 f _ => rw [← Except.ok.inj hrun]
  | case2 f _ _ ih => exact ih hrun
  | case3 f _ _ => cases hrun

theorem sameBlocks_addBlock {top start : Address} {f f' : Filling}
    (hrun : addBlock b top f start = .ok f') : f.table.SameBlocks f'.table := by
  unfold addBlock at hrun
  dsimp only at hrun
  split at hrun
  · rw [← Except.ok.inj hrun]
    exact sameBlocks_withEntry ..
  · obtain ⟨f₁, hroom, hrun⟩ := exists_of_bind_eq_ok hrun
    rw [← Except.ok.inj hrun]
    dsimp only
    rw [table_makeRoom hroom]
    exact sameBlocks_withEntry ..

end Filling

/-- The blocks of some sources, each with the end of its source. -/
def blocksOf (t : BlockOffsets) (sources : List (Address × Address)) : List (Address × Address) :=
  sources.flatMap fun s => (t.blockStarts s.1 s.2).map fun start => (start, s.2)

/-- The blocks of all sources are filled in one after the other. -/
theorem build_eq (t : BlockOffsets) (b : Bitmap) (sources : List (Address × Address))
    (spaces : Array Space) : t.build b sources spaces
      = (t.blocksOf sources).foldlM (fun f q => Filling.addBlock b q.2 f q.1) ⟨t, spaces, 0⟩ := by
  unfold build blocksOf
  suffices hall : ∀ (f : Filling), t.SameBlocks f.table → sources.foldlM (fun f s =>
      (f.table.blockStarts s.1 s.2).foldlM (Filling.addBlock b s.2) f) f
        = (sources.flatMap fun s => (t.blockStarts s.1 s.2).map fun start => (start, s.2)).foldlM
          (fun f q => Filling.addBlock b q.2 f q.1) f from hall _ (.refl t)
  induction sources with
  | nil => exact fun f _ => rfl
  | cons s sources ih =>
    intro f hf
    rw [List.foldlM_cons, List.flatMap_cons, List.foldlM_append, List.foldlM_map, hf.blockStarts]
    cases hrun : (t.blockStarts s.1 s.2).foldlM (Filling.addBlock b s.2) f with
    | error e => rfl
    | ok f₁ =>
      exact ih f₁ (foldlM_keeps (fun f => t.SameBlocks f.table)
        (fun _ _ _ hsame hrun => hsame.trans (Filling.sameBlocks_addBlock hrun)) hf hrun)

theorem sameBlocks_build {sources : List (Address × Address)} {spaces : Array Space} {f : Filling}
    (hrun : t.build b sources spaces = .ok f) : t.SameBlocks f.table := by
  rw [build_eq] at hrun
  exact foldlM_keeps (fun f => t.SameBlocks f.table)
    (fun _ _ _ hsame hrun => hsame.trans (Filling.sameBlocks_addBlock hrun)) (.refl t) hrun

end BlockOffsets

/-! ### One block -/

namespace BlockOffsets.Filling

variable {b : Bitmap} {l : Layout} {live : Address → Prop} {words : Address → Nat} {f : Filling}
  {start top : Address}

/-- A block inside a source that ends at `top`, in which no object is cut off. -/
structure Block (f : Filling) (l : Layout) (live : Address → Prop) (words : Address → Nat)
    (start top : Address) : Prop where
  sized : f.table.Sized
  startEdge : l.IsEdge start
  topEdge : l.IsEdge top
  lt : start.toNat < top.toNat
  fromBase : f.table.base.toNat ≤ start.toNat
  aligned : (start.toNat - f.table.base.toNat) % f.table.blockSize = 0
  fits : start.toNat + f.table.blockSize < 2 ^ 64
  inBounds : f.table.blockOf start < f.table.entries.size
  whole : ∀ a, live a → start.toNat ≤ a.toNat → a.toNat < top.toNat → a.toNat + 8 * words a ≤ top.toNat

/-- It is a block of every table with the same blocks. -/
theorem Block.congr {f' : Filling} (hb : f.Block l live words start top)
    (h : f.table.SameBlocks f'.table) : f'.Block l live words start top :=
  ⟨h.sized hb.sized, hb.startEdge, hb.topEdge, hb.lt, by rw [h.base]; exact hb.fromBase,
    by rw [h.base, h.blockSize]; exact hb.aligned,
    by rw [h.blockSize]; exact hb.fits, by rw [h.blockOf, h.size]; exact hb.inBounds, hb.whole⟩

/-- Where a block ends: at the next one or with the source. -/
def blockStop (f : Filling) (start top : Address) : Address := min (start + f.table.blockBytes) top

/-- The live objects that begin in a block. -/
def group (f : Filling) (b : Bitmap) (start top : Address) : List Address :=
  b.markedIn start (f.blockStop start top)

theorem Block.toNat_blockStop (hb : f.Block l live words start top) :
    (f.blockStop start top).toNat = min (start.toNat + f.table.blockSize) top.toNat := by
  unfold blockStop
  have hfits := hb.fits
  rw [toNat_min, UInt64.toNat_add, hb.sized.toNat_blockBytes]
  omega

theorem Block.isEdge_blockStop (hb : f.Block l live words start top) :
    l.IsEdge (f.blockStop start top) := by
  have h1 := hb.toNat_blockStop
  obtain ⟨s1, s2, s3⟩ := hb.startEdge
  obtain ⟨t1, t2, t3⟩ := hb.topEdge
  have h2 : f.table.blockSize % 8 = 0 := by
    unfold BlockOffsets.blockSize
    omega
  exact ⟨by omega, by omega, by omega⟩

theorem Block.mem_group (hl : l.Spans) (hs : b.Shows l live words) (hd : Bitmap.Spread l live words)
    (hb : f.Block l live words start top) (a : Address) :
    a ∈ f.group b start top ↔ live a ∧ start.toNat ≤ a.toNat ∧
      a.toNat < min (start.toNat + f.table.blockSize) top.toNat := by
  unfold group
  rw [hs.mem_markedIn hl hd.isWord hb.startEdge (hb.isEdge_blockStop), hb.toNat_blockStop]

theorem Block.pairwise_group (hl : l.Spans) (hs : b.Shows l live words)
    (hb : f.Block l live words start top) :
    (f.group b start top).Pairwise fun a c => a.toNat < c.toNat :=
  hs.fits.pairwise_markedIn hl (hb.isEdge_blockStop)

/-- The first object of a block, if one begins in it. -/
theorem Block.nextMarked (hl : l.Spans) (hs : b.Shows l live words)
    (hd : Bitmap.Spread l live words) (hb : f.Block l live words start top) :
    match f.group b start top with
    | [] => b.nextMarked start (f.blockStop start top) = f.blockStop start top
    | first :: _ => b.nextMarked start (f.blockStop start top) = first ∧
        first.toNat < (f.blockStop start top).toNat := by
  have hstop := hb.toNat_blockStop
  have hlt := hb.lt
  have hpos := f.table.blockSize_pos
  obtain ⟨h1, h2, h3, h4, h5⟩ := hs.nextMarked_spec hl hd hb.startEdge (hb.isEdge_blockStop) (by omega)
  have hmem := hb.mem_group hl hs hd
  have hasc := hb.pairwise_group hl hs
  cases hg : f.group b start top with
  | nil =>
    show b.nextMarked start (f.blockStop start top) = f.blockStop start top
    rw [hg] at hmem
    by_contra hne
    have hlt' : (b.nextMarked start (f.blockStop start top)).toNat
        < (f.blockStop start top).toNat := by
      have : (b.nextMarked start (f.blockStop start top)).toNat
          ≠ (f.blockStop start top).toNat := fun hh => hne (UInt64.toNat_inj.1 hh)
      omega
    have := (hmem _).2 ⟨h5 hlt', h2, by omega⟩
    simp at this
  | cons first rest =>
    rw [hg] at hmem hasc
    obtain ⟨hlive, h6, h7⟩ := (hmem first).1 (by simp)
    have h8 := h4 first hlive h6
    refine ⟨?_, by omega⟩
    -- the object found is in the block, and it is not a later one
    have hin := (hmem _).2 ⟨h5 (by omega), h2, by omega⟩
    rcases List.mem_cons.1 hin with heq | hrest
    · exact heq
    · have := (List.pairwise_cons.1 hasc).1 _ hrest
      omega

theorem addBlock_of_empty (hl : l.Spans) (hs : b.Shows l live words)
    (hd : Bitmap.Spread l live words) (hb : f.Block l live words start top)
    (hgroup : f.group b start top = []) :
    addBlock b top f start
      = .ok { f with table := f.table.withEntry (f.table.blockOf start) none } := by
  have hnext := hb.nextMarked hl hs hd
  rw [hgroup] at hnext
  unfold addBlock
  dsimp only
  rw [show min (start + f.table.blockBytes) top = f.blockStop start top from rfl, hnext,
    if_pos (UInt64.le_refl _)]
  rfl

/-- No object of a block begins before the first one. -/
theorem Block.first_le (hl : l.Spans) (hs : b.Shows l live words) (hb : f.Block l live words start top)
    {first a : Address} {rest : List Address} (hgroup : f.group b start top = first :: rest)
    (ha : a ∈ f.group b start top) : first.toNat ≤ a.toNat := by
  have hasc := hb.pairwise_group hl hs
  rw [hgroup] at hasc ha
  rcases List.mem_cons.1 ha with rfl | ha
  · exact le_refl _
  · exact ((List.pairwise_cons.1 hasc).1 a ha).le

/-- The words that are reserved for a block are those of the objects that begin in it. -/
theorem Block.countWords_group (hl : l.Spans) (hs : b.Shows l live words)
    (hd : Bitmap.Spread l live words) (hb : f.Block l live words start top) {first : Address}
    {rest : List Address} (hgroup : f.group b start top = first :: rest) :
    b.countWords first (b.nextMarked (f.blockStop start top) top)
      = ((f.group b start top).map words).sum := by
  have hstop := hb.toNat_blockStop
  have hlt := hb.lt
  have hpos := f.table.blockSize_pos
  obtain ⟨h1, h2, h3, h4, h5⟩ :=
    hs.nextMarked_spec hl hd (hb.isEdge_blockStop) hb.topEdge (by omega)
  have hmem := hb.mem_group hl hs hd
  have hasc := hb.pairwise_group hl hs
  have hfirst : first ∈ f.group b start top := by simp [hgroup]
  obtain ⟨hlive, h6, h7⟩ := (hmem first).1 hfirst
  refine hs.countWords_eq_sum hl hd _ (hd.isWord first hlive).isEdge h1 (by omega) hasc ?_ ?_ ?_
  · intro a
    rw [hmem a]
    constructor
    · rintro ⟨ha, h8, h9⟩
      exact ⟨ha, hb.first_le hl hs hgroup ((hmem a).2 ⟨ha, h8, h9⟩), by omega⟩
    · rintro ⟨ha, h8, h9⟩
      refine ⟨ha, by omega, ?_⟩
      -- the object found behind the block is the next one, so `a` would be it or a later one
      by_contra hge
      have := h4 a ha (by omega)
      omega
  · intro a ha hlt'
    exact hd.disjoint a first ha hlive hlt'
  · intro a ha
    obtain ⟨hla, h8, h9⟩ := (hmem a).1 ha
    by_cases htop : (b.nextMarked (f.blockStop start top) top).toNat < top.toNat
    · exact hd.disjoint a _ hla (h5 htop) (by omega)
    · have := hb.whole a hla h8 (by omega)
      omega

/-- The live words of a block before one of its objects. -/
theorem Block.countWords_before (hl : l.Spans) (hs : b.Shows l live words)
    (hd : Bitmap.Spread l live words) (hb : f.Block l live words start top) {first a : Address}
    {rest before after : List Address} (hgroup : f.group b start top = first :: rest)
    (hsplit : f.group b start top = before ++ a :: after) :
    b.countWords start a = b.countWords start first + (before.map words).sum := by
  have hmem := hb.mem_group hl hs hd
  have hasc := hb.pairwise_group hl hs
  have hfirst : first ∈ f.group b start top := by simp [hgroup]
  have ha : a ∈ f.group b start top := by simp [hsplit]
  obtain ⟨hlive, h1, h2⟩ := (hmem first).1 hfirst
  obtain ⟨hlivea, h3, h4⟩ := (hmem a).1 ha
  have hle : first.toNat ≤ a.toNat := hb.first_le hl hs hgroup ha
  have hbefore : before.Pairwise (fun a c => a.toNat < c.toNat) ∧ ∀ c ∈ before, c.toNat < a.toNat := by
    rw [hsplit] at hasc
    exact ⟨(List.pairwise_append.1 hasc).1, fun c hc => (List.pairwise_append.1 hasc).2.2 c hc a (by simp)⟩
  rw [Bitmap.countWords_add hl hs.fits hb.startEdge (hd.isWord first hlive).isEdge
    (hd.isWord a hlivea).isEdge h1 hle]
  congr 1
  refine hs.countWords_eq_sum hl hd before (hd.isWord first hlive).isEdge
    (hd.isWord a hlivea).isEdge hle hbefore.1 ?_ ?_ ?_
  · intro c
    constructor
    · intro hc
      have hcg : c ∈ f.group b start top := by simp [hsplit, hc]
      obtain ⟨hlc, h5, h6⟩ := (hmem c).1 hcg
      exact ⟨hlc, hb.first_le hl hs hgroup hcg, hbefore.2 c hc⟩
    · rintro ⟨hlc, h5, h6⟩
      -- an object of the block that begins before `a` stands before it in the list
      have hcg := (hmem c).2 ⟨hlc, by omega, by omega⟩
      rw [hsplit] at hcg hasc
      rcases List.mem_append.1 hcg with hc | hc
      · exact hc
      · rcases List.mem_cons.1 hc with rfl | hc
        · omega
        · have := (List.pairwise_cons.1 (List.pairwise_append.1 hasc).2.1).1 c hc
          omega
  · intro c hc hlt
    exact hd.disjoint c first hc hlive hlt
  · intro c hc
    have hcg : c ∈ f.group b start top := by simp [hsplit, hc]
    exact hd.disjoint c a ((hmem c).1 hcg).1 hlivea (hbefore.2 c hc)

/-- A block in which objects begin asks for room for them, and its entry makes up for the live words
before the first one. -/
theorem addBlock_eq (hl : l.Spans) (hs : b.Shows l live words)
    (hd : Bitmap.Spread l live words) (hb : f.Block l live words start top)
    (hgroup : f.group b start top ≠ []) :
    ∃ tail, (∀ before a after, f.group b start top = before ++ a :: after →
        b.countWords start a = tail + (before.map words).sum) ∧
      addBlock b top f start
        = f.makeRoom ((f.group b start top).map words).sum.toUInt64 (f.table.blockOf start) >>=
          fun f' => .ok { f' with
            table := f'.table.withEntry (f.table.blockOf start)
              (f'.target.top - tail.toUInt64 * wordBytes).asEntry
            spaces := f'.spaces.modify f'.space fun s =>
              { s with top := f'.target.top.nth ((f.group b start top).map words).sum } } := by
  have hnext := hb.nextMarked hl hs hd
  obtain ⟨first, rest, hg⟩ := List.exists_cons_of_ne_nil hgroup
  rw [hg] at hnext
  obtain ⟨hfirst, hlt⟩ := hnext
  refine ⟨b.countWords start first, fun before a after hsplit =>
    hb.countWords_before hl hs hd hg hsplit, ?_⟩
  unfold addBlock
  dsimp only
  rw [show min (start + f.table.blockBytes) top = f.blockStop start top from rfl, hfirst,
    if_neg (UInt64.not_le.2 (UInt64.lt_iff_toNat_lt.2 hlt)), hb.countWords_group hl hs hd hg]
  rfl

/-- A block in which objects begin gets an entry that lays them out as a row, at the top of the
space that has been found for them. -/
theorem addBlock_spec (hl : l.Spans) (hs : b.Shows l live words)
    (hd : Bitmap.Spread l live words) (hb : f.Block l live words start top)
    (hgroup : f.group b start top ≠ []) {f' : Filling}
    (hroom : f.makeRoom ((f.group b start top).map words).sum.toUInt64 (f.table.blockOf start) = .ok f')
    (htable : f'.table = f.table)
    (hfits : f'.target.top.toNat + 8 * ((f.group b start top).map words).sum < 2 ^ 64) :
    ∃ e, addBlock b top f start = .ok { f' with
        table := f.table.withEntry (f.table.blockOf start) e
        spaces := f'.spaces.modify f'.space fun s =>
          { s with top := f'.target.top.nth ((f.group b start top).map words).sum } } ∧
      ∀ p ∈ Berth.row words f'.space f'.target.top (f.group b start top),
        (f.table.withEntry (f.table.blockOf start) e).forwardee b p.object = p.target := by
  have hstop := hb.toNat_blockStop
  obtain ⟨tail, hbefore, heq⟩ := addBlock_eq hl hs hd hb hgroup
  refine ⟨(f'.target.top - tail.toUInt64 * wordBytes).asEntry, ?_, ?_⟩
  · rw [heq, hroom, ← htable]
    rfl
  · intro p hp
    obtain ⟨-, -, before, after, hsplit, htarget⟩ := Berth.mem_row hp hfits
    obtain ⟨-, h1, h2⟩ := (hb.mem_group hl hs hd p.object).1 (by simp [hsplit])
    have hgr := (f.table.sameBlocks_withEntry (f.table.blockOf start)
      (f'.target.top - tail.toUInt64 * wordBytes).asEntry).sized hb.sized
    rw [htarget]
    refine hgr.forwardee_of_entry hb.fromBase hb.aligned h1 ?_ ?_
      (hbefore before p.object after hsplit) ?_
    · show p.object.toNat < start.toNat + f.table.blockSize
      omega
    · exact (entry_withEntry _ hb.inBounds _ _).trans (if_pos rfl)
    · rw [hsplit, List.map_append, List.sum_append] at hfits
      omega

end BlockOffsets.Filling

end MarkCompact
