/-
MarkCompact/Proofs/Filling.lean

The regions of a serial collection never run out.

The regions that take part are sources and destinations in one order.  The cursor
of the filling never overtakes the objects that are still to come: what has been
placed so far is no more than what has been passed, so when the objects of a block
are to be placed there is room for them in their own region at the latest.
`Filled` is the invariant; it also says that every space is filled without gaps, that the
objects of a block stay together, and that a space is left only for a block that does not fit
in it any more (`Opens`).

Main results: `Spaced.makeRoom` (room is found), `Spaced.makeRoom_next` (no space is passed
over), `Filled.addBlock` (one block) and `build_spec` (all blocks of all sources).
-/
import MarkCompact.Proofs.BlockOffsets

namespace MarkCompact

/-- The start of a block of the region `i`. -/
structure Heap.BlockOf (h : Heap) (table : BlockOffsets) (i : Nat) (start : Address) : Prop where
  bottom : (h.layout.bottom i).toNat ≤ start.toNat
  top : start.toNat < (h.region i).top.toNat
  aligned : (start.toNat - (h.layout.bottom i).toNat) % table.blockSize = 0

namespace BlockOffsets

variable {h : Heap} {t : ClassTable} {b : Bitmap} {live : Address → Prop} {part : List Nat}

/-- A space by its number. -/
def Filling.spaceAt (f : Filling) (j : Nat) : Space := f.spaces[j]?.getD default

/-- The spaces are those of the regions that take part. -/
structure Spaced (h : Heap) (part : List Nat) (f : Filling) : Prop where
  count : f.spaces.size = part.length
  current : f.space < part.length
  extent : ∀ j i, part[j]? = some i →
    (f.spaceAt j).bottom = h.layout.bottom i ∧ (f.spaceAt j).stop = h.layout.regionStop i
  top : ∀ j i, part[j]? = some i → (h.layout.bottom i).toNat ≤ (f.spaceAt j).top.toNat ∧
    (f.spaceAt j).top.toNat ≤ (h.layout.regionStop i).toNat ∧ (f.spaceAt j).top.toNat % 8 = 0
  /-- Nothing has been placed yet in a later space. -/
  later : ∀ j, f.space < j → j < part.length → (f.spaceAt j).top = (f.spaceAt j).bottom

/-- The words of the placed objects that begin in one block. -/
def groupWords (table : BlockOffsets) (bs : List Berth) (block : Nat) : Nat :=
  ((bs.filter fun p => table.blockOf p.object == block).map Berth.words).sum

theorem groupWords_append (table : BlockOffsets) (bs bs' : List Berth) (block : Nat) :
    groupWords table (bs ++ bs') block = groupWords table bs block + groupWords table bs' block := by
  simp [groupWords]

/-- The berth `p` opens the space `s'` with number `j`: the block of its object does not fit in
the space `s` before. -/
structure Opens (table : BlockOffsets) (bs : List Berth) (s s' : Space) (j : Nat) (p : Berth) :
    Prop where
  mem : p ∈ bs
  space : p.space = j
  target : p.target = s'.bottom
  full : s.stop.toNat < s.top.toNat + 8 * groupWords table bs (table.blockOf p.object)

/-- Later berths change nothing about that. -/
theorem Opens.append {table : BlockOffsets} {bs : List Berth} {s s' : Space} {j : Nat} {p : Berth}
    (ho : Opens table bs s s' j p) (bs' : List Berth) : Opens table (bs ++ bs') s s' j p := by
  refine ⟨List.mem_append_left _ ho.mem, ho.space, ho.target, ?_⟩
  have hfull := ho.full
  rw [groupWords_append]
  omega

/-- The filling `f` has placed the objects of the part for which `past` holds at `bs`. -/
structure Filled (h : Heap) (t : ClassTable) (b : Bitmap) (live : Address → Prop) (part : List Nat)
    (table : BlockOffsets) (past : Address → Prop) (f : Filling) (bs : List Berth) : Prop
    extends Spaced h part f where
  base : f.table.base = table.base
  shift : f.table.blockShift = table.blockShift
  entries : f.table.entries.size = table.entries.size
  seen : ∀ a, a ∈ bs.map Berth.object ↔ live a ∧ h.layout.indexOf a ∈ part ∧ past a
  places : ∀ p ∈ bs, f.table.forwardee b p.object = p.target
  size : ∀ p ∈ bs, p.words = h.wordsAt t p.object
  left : ∀ p ∈ bs, p.target.toNat ≤ p.object.toNat
  space : ∀ p ∈ bs, p.space < part.length
  ascending : Berth.Ascending (h.wordsAt t) bs f.target.top.toNat
  tiled : ∀ j i, part[j]? = some i → Tiles (h.layout.bottom i).toNat (f.spaceAt j).top.toNat
    ((bs.filter fun p => p.space == j).map Berth.run)
  /-- The cursor is not past an object that is still to come. -/
  cursor : ∀ a, live a → h.layout.indexOf a ∈ part → ¬ past a → f.target.top.toNat ≤ a.toNat
  /-- The objects of a block go to one space. -/
  together : ∀ p ∈ bs, ∀ q ∈ bs, table.blockOf p.object = table.blockOf q.object →
    p.space = q.space
  /-- A space is left only when the next block does not fit in it. -/
  tight : ∀ j < f.space, ∃ p, Opens table bs (f.spaceAt j) (f.spaceAt (j + 1)) (j + 1) p

variable {table : BlockOffsets} {past : Address → Prop} {f : Filling} {bs : List Berth}

theorem Filled.congr {past' : Address → Prop} (hf : Filled h t b live part table past f bs)
    (hpast : ∀ a, live a → h.layout.indexOf a ∈ part → (past a ↔ past' a)) :
    Filled h t b live part table past' f bs := by
  refine ⟨hf.toSpaced, hf.base, hf.shift, hf.entries, ?_, hf.places, hf.size, hf.left, hf.space,
    hf.ascending, hf.tiled, ?_, hf.together, hf.tight⟩
  · intro a
    rw [hf.seen a]
    constructor
    · rintro ⟨h1, h2, h3⟩
      exact ⟨h1, h2, (hpast a h1 h2).1 h3⟩
    · rintro ⟨h1, h2, h3⟩
      exact ⟨h1, h2, (hpast a h1 h2).2 h3⟩
  · intro a h1 h2 h3
    exact hf.cursor a h1 h2 fun hp => h3 ((hpast a h1 h2).1 hp)

/-! ### Finding room -/

/-- How much room there is in a space, in bytes. -/
theorem Spaced.le_freeWords_iff (hg : h.Gridded) (hp : h.Part part) (hf : Spaced h part f) {j : Nat}
    (hj : j < part.length) {n : Nat} (hn : n < 2 ^ 64) : n.toUInt64 ≤ (f.spaceAt j).freeWords ↔
      (f.spaceAt j).top.toNat + 8 * n ≤ (f.spaceAt j).stop.toNat := by
  have hget : part[j]? = some part[j] := List.getElem?_eq_getElem hj
  obtain ⟨-, hstop⟩ := hf.extent _ _ hget
  obtain ⟨-, h2, h3⟩ := hf.top _ _ hget
  have hin : part[j] < h.layout.numRegions := by
    rw [← hg.count]
    exact hp.inside _ (List.getElem_mem _)
  have hmod : (h.layout.regionStop part[j]).toNat % 8 = 0 := hg.layout.bottom_mod hin
  rw [UInt64.le_iff_toNat_le, UInt64.toNat_ofNat', Nat.mod_eq_of_lt hn, Space.freeWords,
    Address.toNat_wordsTo (by rw [hstop]; exact h2), hstop]
  omega

/-- The next space becomes the current one. -/
theorem Spaced.next (hf : Spaced h part f) (hnext : f.space + 1 < part.length) :
    Spaced h part { f with space := f.space + 1 } :=
  ⟨hf.count, hnext, hf.extent, hf.top, fun j h1 h2 => hf.later j (Nat.lt_of_succ_lt h1) h2⟩

/-- The next space is filled from its bottom on. -/
theorem Spaced.top_next (hf : Spaced h part f) (hnext : f.space + 1 < part.length) :
    (f.spaceAt (f.space + 1)).top = h.layout.bottom part[f.space + 1] := by
  rw [hf.later _ (Nat.lt_succ_self _) hnext, (hf.extent _ _ (List.getElem?_eq_getElem hnext)).1]

/-- The next space lies behind the current one. -/
theorem Spaced.target_le_next (hg : h.Gridded) (hp : h.Part part) (hf : Spaced h part f)
    (hnext : f.space + 1 < part.length) :
    f.target.top.toNat ≤ (h.layout.bottom part[f.space + 1]).toNat := by
  have hcur : part[f.space]? = some part[f.space] := List.getElem?_eq_getElem hf.current
  have hless := pairwise_lt_getElem? hp.ascending hcur (List.getElem?_eq_getElem hnext)
    (Nat.lt_succ_self _)
  have hin : part[f.space + 1] < h.layout.numRegions := by
    rw [← hg.count]
    exact hp.inside _ (List.getElem_mem _)
  have hstop : f.target.top.toNat ≤ _ := (hf.top _ _ hcur).2.1
  rw [hg.layout.toNat_regionStop (hless.trans hin)] at hstop
  exact hstop.trans (hg.layout.regionStop_le_bottom hless hin.le)

/-- Room for so many words is found at `first`, in the region number `pos`, or before. -/
theorem Spaced.makeRoom (hg : h.Gridded) (hp : h.Part part) (hf : Spaced h part f) {pos i : Nat}
    (hpos : part[pos]? = some i) (hle : f.space ≤ pos) {first : Address} {n : Nat}
    (htop : f.target.top.toNat ≤ first.toNat) (hfirst : (h.layout.bottom i).toNat ≤ first.toNat)
    (hfits : first.toNat + 8 * n ≤ (h.layout.regionStop i).toNat) (block : Nat) :
    ∃ s, f.makeRoom n.toUInt64 block = .ok { f with space := s } ∧ f.space ≤ s ∧ s ≤ pos ∧
      f.target.top.toNat ≤ (f.spaceAt s).top.toNat ∧ (f.spaceAt s).top.toNat ≤ first.toNat ∧
      (f.spaceAt s).top.toNat + 8 * n ≤ (f.spaceAt s).stop.toNat := by
  obtain ⟨hposlt, -⟩ := List.getElem?_eq_some_iff.1 hpos
  have hlt := (h.layout.regionStop i).toNat_lt
  have hn : n < 2 ^ 64 := by omega
  -- the distance to the region number `pos` shrinks
  obtain ⟨k, hk⟩ : ∃ k, pos = f.space + k := ⟨pos - f.space, by omega⟩
  induction k generalizing f with
  | zero =>
    obtain rfl : pos = f.space := by omega
    have hroom : (f.spaceAt f.space).top.toNat + 8 * n ≤ (f.spaceAt f.space).stop.toNat := by
      rw [(hf.extent _ _ hpos).2]
      exact (Nat.add_le_add_right htop _).trans hfits
    have hfree : n.toUInt64 ≤ f.target.freeWords :=
      (hf.le_freeWords_iff hg hp hf.current hn).2 hroom
    refine ⟨f.space, ?_, le_refl _, le_refl _, le_refl _, htop, hroom⟩
    unfold Filling.makeRoom
    rw [if_pos hfree]
  | succ k ih =>
    by_cases hfree : n.toUInt64 ≤ f.target.freeWords
    · refine ⟨f.space, ?_, le_refl _, hle, le_refl _, htop,
        (hf.le_freeWords_iff hg hp hf.current hn).1 hfree⟩
      unfold Filling.makeRoom
      rw [if_pos hfree]
    · have hnext : f.space + 1 < part.length := by omega
      have hget : part[f.space + 1]? = some part[f.space + 1] := List.getElem?_eq_getElem hnext
      have hbottom : ({ f with space := f.space + 1 } : Filling).target.top
          = h.layout.bottom part[f.space + 1] := hf.top_next hnext
      have hin : i < h.layout.numRegions := by
        rw [← hg.count]
        exact hp.inside i (List.mem_of_getElem? hpos)
      have hlow : (h.layout.bottom part[f.space + 1]).toNat ≤ (h.layout.bottom i).toNat := by
        refine hg.layout.bottom_mono ?_ hin.le
        rcases Nat.lt_or_ge (f.space + 1) pos with hlt' | hge
        · exact (pairwise_lt_getElem? hp.ascending hget hpos hlt').le
        · obtain rfl : f.space + 1 = pos := by omega
          rw [hget] at hpos
          exact (Option.some.inj hpos).le
      obtain ⟨s, hrun, hs, h3, h4, h5, h6⟩ := ih (hf.next hnext) (by show f.space + 1 ≤ pos; omega)
        (by rw [hbottom]; omega) (by show pos = f.space + 1 + k; omega)
      rw [hbottom] at h4
      refine ⟨s, ?_, (Nat.le_succ _).trans hs, h3, (hf.target_le_next hg hp hnext).trans h4, h5, h6⟩
      unfold Filling.makeRoom
      rw [if_neg hfree, if_pos (by rw [hf.count]; exact hnext)]
      exact hrun

/-- No space is passed over: what fits in a region fits in the next space, which is empty. -/
theorem Spaced.makeRoom_next (hg : h.Gridded) (hp : h.Part part) (hf : Spaced h part f) {n s : Nat}
    (hn : 8 * n ≤ h.layout.stride) {block : Nat}
    (hrun : f.makeRoom n.toUInt64 block = .ok { f with space := s }) :
    s = f.space ∨
      s = f.space + 1 ∧ (f.spaceAt f.space).stop.toNat < (f.spaceAt f.space).top.toNat + 8 * n := by
  have hl := hg.layout
  have hspaces : ∀ (g : Filling) s', g = { f with space := s' } → s' = g.space := by
    rintro g s' rfl
    rfl
  have hstride := hl.stride_le
  have hlt : n < 2 ^ 64 := by omega
  unfold Filling.makeRoom at hrun
  split at hrun
  · injection hrun with heq
    exact .inl (hspaces _ _ heq)
  · rename_i hfull
    have hfull' := mt (hf.le_freeWords_iff hg hp hf.current hlt).2 hfull
    split at hrun
    · rename_i hnext
      rw [hf.count] at hnext
      have hget : part[f.space + 1]? = some part[f.space + 1] := List.getElem?_eq_getElem hnext
      have hin : part[f.space + 1] < h.layout.numRegions := by
        rw [← hg.count]
        exact hp.inside _ (List.getElem_mem _)
      have hfits : n.toUInt64 ≤ ({ f with space := f.space + 1 } : Filling).target.freeWords := by
        refine (hf.le_freeWords_iff hg hp hnext hlt).2 ?_
        rw [hf.top_next hnext, (hf.extent _ _ hget).2, hl.toNat_regionStop hin]
        omega
      unfold Filling.makeRoom at hrun
      rw [if_pos hfits] at hrun
      injection hrun with heq
      exact .inr ⟨(hspaces _ _ heq).trans rfl, by omega⟩
    · cases hrun

/-! ### One block -/

/-- A table with blocks that regions are made of, over all regions. -/
structure Serves (table : BlockOffsets) (l : Layout) : Prop extends table.Grounded l where
  divides : table.blockSize ∣ l.stride
  covers : l.numRegions * l.stride ≤ table.entries.size * table.blockSize

theorem Filled.grounded {l : Layout} (hf : Filled h t b live part table past f bs)
    (hv : table.Serves l) : f.table.Grounded l ∧ f.table.blockSize = table.blockSize := by
  refine ⟨⟨hf.base.trans hv.base, ?_⟩, ?_⟩
  · rw [hf.shift]
    exact hv.greatest
  · unfold BlockOffsets.blockSize
    rw [hf.shift]

theorem Filled.block (hs : Surveyed h t b live) (hp : h.Part part)
    (hf : Filled h t b live part table past f bs) (hv : table.Serves h.layout) {i : Nat}
    (hi : i ∈ part) {start : Address} (hb : h.BlockOf table i start) :
    f.Block h.layout live (h.wordsAt t) start (h.region i).top := by
  obtain ⟨hg, hsize⟩ := hf.grounded hv
  have hl := hs.tabled.layout
  have hlt := hp.inside i hi
  have hi' : i < h.layout.numRegions := by rwa [← hs.tabled.count]
  obtain ⟨h1, h2, h3⟩ := hb
  have htop := (hs.tabled.top i hlt).2.1
  rw [hs.tabled.stop i hlt, hl.toNat_regionStop hi'] at htop
  have hbottom := hl.toNat_bottom hi'.le
  have hstop := hl.bottom_le_stop (i := i + 1) hi'
  rw [hl.toNat_bottom hi', Nat.succ_mul] at hstop
  have hfits := hl.fits
  have hend := hl.toNat_stop
  have hmod := hl.bottom_mod hi'.le
  have hpos := table.blockSize_pos
  have height : table.blockSize % 8 = 0 := by
    unfold BlockOffsets.blockSize
    omega
  obtain ⟨m, hm⟩ := hv.divides
  obtain ⟨k, hk⟩ := Nat.dvd_of_mod_eq_zero h3
  -- a block that begins in a region ends in it
  have hkm : k < m := by
    have : table.blockSize * k < table.blockSize * m := by omega
    exact Nat.lt_of_mul_lt_mul_left this
  have hnext : table.blockSize * (k + 1) ≤ table.blockSize * m := Nat.mul_le_mul_left _ hkm
  rw [Nat.mul_succ] at hnext
  have hk8 : table.blockSize * k % 8 = 0 := by rw [Nat.mul_mod, height]; simp
  have hfromBase : start.toNat - h.layout.base.toNat = table.blockSize * (i * m + k) := by
    rw [Nat.mul_add, ← Nat.mul_left_comm, ← hm]
    omega
  have hbase : h.layout.base.toNat ≤ start.toNat := by omega
  refine ⟨hg.sized, ⟨hbase, by omega, by omega⟩, hs.isEdge_top hlt, h2, by rwa [hg.base], ?_, ?_, ?_,
    ?_⟩
  · rw [hsize, hg.base, hfromBase]
    exact Nat.mul_mod_right ..
  · rw [hsize]
    omega
  · have hcov := hv.covers
    rw [hg.blockOf_eq hbase, hsize, hf.entries, Nat.div_lt_iff_lt_mul hpos]
    omega
  · intro a ha h4 h5
    have hidx : h.layout.indexOf a = i := hl.indexOf_eq hi' (by omega) (by omega)
    have hk' := hp.regular i hi
    rw [← hidx] at hk' ⊢
    exact hs.end_le_top ha hk'

/-- The filling with a row of so many words placed in the space `s`. -/
def Filling.placed (f : Filling) (table : BlockOffsets) (s n : Nat) : Filling :=
  { table, spaces := f.spaces.modify s fun sp => { sp with top := (f.spaceAt s).top.nth n }, space := s }

theorem Filling.spaceAt_placed (f : Filling) (table : BlockOffsets) {s : Nat} (n : Nat)
    (hs : s < f.spaces.size) (j : Nat) :
    (f.placed table s n).spaceAt j
      = if s = j then { f.spaceAt s with top := (f.spaceAt s).top.nth n } else f.spaceAt j := by
  unfold Filling.placed Filling.spaceAt
  dsimp only
  rw [Array.getElem?_modify]
  by_cases h : s = j
  · subst h
    simp [hs]
  · simp [h]

theorem Filling.bottom_placed (f : Filling) (table : BlockOffsets) {s : Nat} (n : Nat)
    (hs : s < f.spaces.size) (j : Nat) :
    ((f.placed table s n).spaceAt j).bottom = (f.spaceAt j).bottom := by
  rw [f.spaceAt_placed table n hs]
  split
  · rename_i heq
    rw [heq]
  · rfl

theorem Filling.target_placed (f : Filling) (table : BlockOffsets) {s : Nat} (n : Nat)
    (hs : s < f.spaces.size) : (f.placed table s n).target.top = (f.spaceAt s).top.nth n := by
  show ((f.placed table s n).spaceAt s).top = _
  rw [f.spaceAt_placed table n hs, if_pos rfl]

theorem Spaced.placed (hf : Spaced h part f) (table : BlockOffsets) {s n : Nat}
    (hs : s < part.length) (hle : f.space ≤ s)
    (hroom : (f.spaceAt s).top.toNat + 8 * n ≤ (f.spaceAt s).stop.toNat) :
    Spaced h part (f.placed table s n) := by
  have hsize : s < f.spaces.size := by rwa [hf.count]
  have hstop := (f.spaceAt s).stop.toNat_lt
  have hend : ((f.spaceAt s).top.nth n).toNat = (f.spaceAt s).top.toNat + 8 * n :=
    Address.toNat_nth (by omega)
  refine ⟨by simpa [Filling.placed] using hf.count, hs, ?_, ?_, ?_⟩
  · intro j i hj
    rw [f.spaceAt_placed table n hsize]
    by_cases hjs : s = j
    · subst hjs
      rw [if_pos rfl]
      exact hf.extent s i hj
    · rw [if_neg hjs]
      exact hf.extent j i hj
  · intro j i hj
    obtain ⟨h1, h2, h3⟩ := hf.top j i hj
    rw [f.spaceAt_placed table n hsize]
    by_cases hjs : s = j
    · subst hjs
      rw [(hf.extent _ _ hj).2] at hroom
      rw [if_pos rfl]
      show _ ≤ ((f.spaceAt s).top.nth n).toNat ∧ ((f.spaceAt s).top.nth n).toNat ≤ _ ∧
        ((f.spaceAt s).top.nth n).toNat % 8 = 0
      omega
    · rw [if_neg hjs]
      exact ⟨h1, h2, h3⟩
  · intro j h1 h2
    have h1' : s < j := h1
    rw [f.spaceAt_placed table n hsize, if_neg (by omega)]
    exact hf.later j (by omega) h2

/-- A list of objects that come next: they are passed now and were not passed before. -/
structure Next (h : Heap) (t : ClassTable) (live : Address → Prop) (part : List Nat)
    (past past' : Address → Prop) (as : List Address) : Prop where
  known : ∀ a ∈ as, live a ∧ h.layout.indexOf a ∈ part
  apart : as.Pairwise fun a c => a.toNat + 8 * h.wordsAt t a ≤ c.toNat
  passed : ∀ a, live a → h.layout.indexOf a ∈ part → (past' a ↔ past a ∨ a ∈ as)
  before : ∀ c, live c → past c → ∀ a ∈ as, c.toNat < a.toNat
  after : ∀ c, live c → ¬ past' c → ∀ a ∈ as, a.toNat < c.toNat

/-- After a row has been placed each space is still filled without gaps. -/
theorem Filled.tiled_placed (hf : Filled h t b live part table past f bs) (table' : BlockOffsets)
    {s : Nat} {as : List Address} (hlt : s < part.length)
    (hroom : (f.spaceAt s).top.toNat + 8 * (as.map (h.wordsAt t)).sum ≤ (f.spaceAt s).stop.toNat)
    {j i : Nat} (hj : part[j]? = some i) :
    Tiles (h.layout.bottom i).toNat
      ((f.placed table' s (as.map (h.wordsAt t)).sum).spaceAt j).top.toNat
      (((bs ++ Berth.row (h.wordsAt t) s (f.spaceAt s).top as).filter
        fun p => p.space == j).map Berth.run) := by
  have hstop := (f.spaceAt s).stop.toNat_lt
  have hfits : (f.spaceAt s).top.toNat + 8 * (as.map (h.wordsAt t)).sum < 2 ^ 64 := by omega
  rw [f.spaceAt_placed table' _ (by rwa [hf.count]), List.filter_append, List.map_append,
    Berth.filter_space_row]
  by_cases hjs : s = j
  · subst hjs
    rw [if_pos rfl, if_pos rfl]
    show Tiles _ ((f.spaceAt s).top.nth _).toNat _
    rw [Address.toNat_nth hfits]
    exact (hf.tiled s i hj).append (Berth.tiles_row s hfits)
  · rw [if_neg hjs, if_neg hjs, List.map_nil, List.append_nil]
    exact hf.tiled j i hj

/-- The words of a row whose objects begin in one block. -/
theorem groupWords_row {table : BlockOffsets} (size : Address → Nat) (space : Nat) (target : Address)
    {as : List Address} {block : Nat} (hblock : ∀ a ∈ as, table.blockOf a = block) :
    groupWords table (Berth.row size space target as) block = (as.map size).sum := by
  unfold groupWords
  rw [List.filter_eq_self.2 fun p hp => ?_, Berth.map_words_row]
  refine beq_iff_eq.2 (hblock _ ?_)
  rw [← Berth.map_object_row size space target as]
  exact List.mem_map_of_mem hp

/-- A row whose block does not fit in the current space opens the next one. -/
theorem Spaced.opens (hf : Spaced h part f) {as : List Address} (hne : as ≠ [])
    (hnext : f.space + 1 < part.length) {block : Nat} (hblock : ∀ a ∈ as, table.blockOf a = block)
    {size : Address → Nat} (hfull : (f.spaceAt f.space).stop.toNat
      < (f.spaceAt f.space).top.toNat + 8 * (as.map size).sum) :
    ∃ p, Opens table (bs ++ Berth.row size (f.space + 1) (f.spaceAt (f.space + 1)).top as)
      (f.spaceAt f.space) (f.spaceAt (f.space + 1)) (f.space + 1) p := by
  obtain ⟨a, rest, rfl⟩ := List.exists_cons_of_ne_nil hne
  refine ⟨⟨a, (f.spaceAt (f.space + 1)).top, size a, f.space + 1⟩,
    List.mem_append_right _ (by simp [Berth.row]), rfl,
    hf.later _ (Nat.lt_succ_self _) hnext, ?_⟩
  show _ < _ + 8 * groupWords table _ (table.blockOf a)
  rw [groupWords_append, hblock a List.mem_cons_self, groupWords_row _ _ _ hblock]
  omega

/-- A row of objects that come next is placed in a space with room for it. -/
theorem Filled.placed (hs : Surveyed h t b live) {past' : Address → Prop}
    (hf : Filled h t b live part table past f bs) {table' : BlockOffsets} {s : Nat}
    {as : List Address} (hnext : Next h t live part past past' as) (hne : as ≠ [])
    (hlt : s < part.length) (hle : f.space ≤ s) (hfrom : f.target.top.toNat ≤ (f.spaceAt s).top.toNat)
    (hleft : ∀ a ∈ as, (f.spaceAt s).top.toNat ≤ a.toNat)
    (hroom : (f.spaceAt s).top.toNat + 8 * (as.map (h.wordsAt t)).sum ≤ (f.spaceAt s).stop.toNat)
    (hbase : table'.base = table.base) (hshift : table'.blockShift = table.blockShift)
    (hentries : table'.entries.size = table.entries.size)
    (hkept : ∀ p ∈ bs, table'.forwardee b p.object = p.target)
    (hnew : ∀ p ∈ Berth.row (h.wordsAt t) s (f.spaceAt s).top as,
      table'.forwardee b p.object = p.target)
    {block : Nat} (hblock : ∀ a ∈ as, table.blockOf a = block)
    (hother : ∀ p ∈ bs, table.blockOf p.object ≠ block)
    (hnext' : s = f.space ∨ s = f.space + 1 ∧ (f.spaceAt f.space).stop.toNat
      < (f.spaceAt f.space).top.toNat + 8 * (as.map (h.wordsAt t)).sum) :
    Filled h t b live part table past' (f.placed table' s (as.map (h.wordsAt t)).sum)
      (bs ++ Berth.row (h.wordsAt t) s (f.spaceAt s).top as) := by
  have hsize : s < f.spaces.size := by rwa [hf.count]
  have hstop := (f.spaceAt s).stop.toNat_lt
  have hfits : (f.spaceAt s).top.toNat + 8 * (as.map (h.wordsAt t)).sum < 2 ^ 64 := by omega
  have hend := Address.toNat_nth hfits
  obtain ⟨hrow, hrowFrom⟩ := Berth.ascending_row s hfits hnext.apart
  have hmem := fun p (hp : p ∈ Berth.row (h.wordsAt t) s (f.spaceAt s).top as) => Berth.mem_row hp hfits
  have hobjects := Berth.map_object_row (h.wordsAt t) s (f.spaceAt s).top as
  have hobject : ∀ p ∈ Berth.row (h.wordsAt t) s (f.spaceAt s).top as, p.object ∈ as := by
    intro p hp
    rw [← hobjects]
    exact List.mem_map_of_mem hp
  refine ⟨hf.toSpaced.placed table' hlt hle hroom, hbase, hshift, hentries, ?_,
    List.forall_mem_append.2 ⟨hkept, hnew⟩,
    List.forall_mem_append.2 ⟨hf.size, fun p hp => (hmem p hp).1⟩,
    List.forall_mem_append.2 ⟨hf.left, fun p hp => Berth.row_left hp hfits hnext.apart hleft⟩,
    List.forall_mem_append.2 ⟨hf.space, fun p hp => (hmem p hp).2.1 ▸ hlt⟩, ?_,
    fun j i hj => hf.tiled_placed table' hlt hroom hj, ?_, ?_, ?_⟩
  · intro a
    rw [List.map_append, List.mem_append, hobjects, hf.seen a]
    constructor
    · rintro (⟨h1, h2, h3⟩ | h1)
      · exact ⟨h1, h2, (hnext.passed a h1 h2).2 (.inl h3)⟩
      · obtain ⟨h2, h3⟩ := hnext.known a h1
        exact ⟨h2, h3, (hnext.passed a h2 h3).2 (.inr h1)⟩
    · rintro ⟨h1, h2, h3⟩
      exact ((hnext.passed a h1 h2).1 h3).imp (fun h4 => ⟨h1, h2, h4⟩) id
  · rw [f.target_placed table' _ hsize, hend]
    refine hf.ascending.append hrow (by omega) ?_ fun p hp => hfrom.trans (hrowFrom p hp)
    intro p hp q hq
    obtain ⟨h1, -, h2⟩ := (hf.seen p.object).1 (List.mem_map_of_mem hp)
    have hq' := hobject q hq
    exact hs.populated.disjoint _ _ h1 (hnext.known _ hq').1 (hnext.before _ h1 h2 _ hq')
  · intro a h1 h2 h3
    obtain ⟨c, hc⟩ := List.exists_mem_of_ne_nil as hne
    rw [f.target_placed table' _ hsize, hend]
    exact Berth.packed_le hnext.apart ((hleft c hc).trans (hnext.after a h1 h3 c hc).le) fun d hd =>
      ⟨hleft d hd, hs.populated.disjoint d a (hnext.known d hd).1 h1 (hnext.after a h1 h3 d hd)⟩
  · -- a block is placed all at once
    intro p hp q hq heq
    rcases List.mem_append.1 hp with hp | hp <;> rcases List.mem_append.1 hq with hq | hq
    · exact hf.together p hp q hq heq
    · exact absurd (heq.trans (hblock _ (hobject q hq))) (hother p hp)
    · exact absurd (heq.symm.trans (hblock _ (hobject p hp))) (hother q hq)
    · rw [(hmem p hp).2.1, (hmem q hq).2.1]
  · intro j hj
    have hjs : j < s := hj
    have hbottom := f.bottom_placed table' (as.map (h.wordsAt t)).sum hsize (j + 1)
    rw [f.spaceAt_placed table' _ hsize j, if_neg (by omega)]
    -- either the space has been left before, or just now
    obtain ⟨p, hin, hspace, htarget, hfull⟩ : ∃ p, Opens table
        (bs ++ Berth.row (h.wordsAt t) s (f.spaceAt s).top as) (f.spaceAt j) (f.spaceAt (j + 1))
        (j + 1) p := by
      rcases Nat.lt_or_ge j f.space with hlt' | hge
      · exact (hf.tight j hlt').imp fun p hp => hp.append _
      · rcases hnext' with rfl | ⟨rfl, hfull⟩
        · omega
        · obtain rfl : j = f.space := by omega
          exact hf.toSpaced.opens hne hlt hblock hfull
    exact ⟨p, hin, hspace, htarget.trans hbottom.symm, hfull⟩

/-- The objects of a block come next once everything before it has been passed. -/
theorem Filled.next (hs : Surveyed h t b live) (hp : h.Part part)
    (hf : Filled h t b live part table past f bs) (hv : table.Serves h.layout) {i : Nat}
    (hi : i ∈ part) {start : Address} (hb : h.BlockOf table i start) :
    Next h t live part (fun a => a.toNat < start.toNat)
      (fun a => a.toNat < min (start.toNat + table.blockSize) (h.region i).top.toNat)
      (f.group b start (h.region i).top) := by
  have hl := hs.tabled.layout
  have hlt := hp.inside i hi
  have hi' : i < h.layout.numRegions := by rwa [← hs.tabled.count]
  have hblock := hf.block hs hp hv hi hb
  have hmem := hblock.mem_group hl.spans hs.shows hs.spread
  rw [(hf.grounded hv).2] at hmem
  obtain ⟨h1, h2, -⟩ := hb
  have hpos := table.blockSize_pos
  refine ⟨?_, ?_, ?_, ?_, ?_⟩
  · intro a ha
    obtain ⟨h3, h4, h5⟩ := (hmem a).1 ha
    have htop := (hs.tabled.top i hlt).2.1
    rw [hs.tabled.stop i hlt, hl.toNat_regionStop hi'] at htop
    rw [hl.indexOf_eq hi' (by omega) (by omega)]
    exact ⟨h3, hi⟩
  · exact (hblock.pairwise_group hl.spans hs.shows).imp_of_mem fun ha hc hlt =>
      hs.populated.disjoint _ _ ((hmem _).1 ha).1 ((hmem _).1 hc).1 hlt
  · intro a h3 h4
    rw [hmem a]
    constructor
    · intro h5
      by_cases h6 : a.toNat < start.toNat
      · exact .inl h6
      · exact .inr ⟨h3, by omega, h5⟩
    · rintro (h5 | ⟨-, -, h5⟩)
      · omega
      · exact h5
  · intro c _ h4 a ha
    have h5 := ((hmem a).1 ha).2.1
    omega
  · intro c _ h4 a ha
    have h5 := ((hmem a).1 ha).2.2
    omega

/-- Filling in a table changes none of its blocks. -/
theorem Filled.blockOf_eq (hf : Filled h t b live part table past f bs) (a : Address) :
    f.table.blockOf a = table.blockOf a := by
  unfold BlockOffsets.blockOf
  rw [hf.base, hf.shift]

/-- No object placed before begins in the block that comes next. -/
theorem Filled.blockOf_ne (hs : Surveyed h t b live) (hp : h.Part part) {start : Address}
    (hf : Filled h t b live part table (fun a => a.toNat < start.toNat) f bs)
    (hv : table.Serves h.layout) {i : Nat} (hi : i ∈ part) (hb : h.BlockOf table i start)
    {p : Berth} (hmem : p ∈ bs) : f.table.blockOf start ≠ f.table.blockOf p.object := by
  obtain ⟨hg, hsize⟩ := hf.grounded hv
  have hblock := hf.block hs hp hv hi hb
  obtain ⟨h1, -, h2⟩ := (hf.seen p.object).1 (List.mem_map_of_mem hmem)
  have h3 := (hs.isWord h1).bottom
  intro heq
  have haligned := hblock.aligned
  rw [hsize, hg.base] at haligned
  rw [hg.blockOf_eq hblock.startEdge.bottom, hg.blockOf_eq h3, hsize] at heq
  have h4 := Nat.div_mul_cancel (Nat.dvd_of_mod_eq_zero haligned)
  have h5 := Nat.div_mul_le_self (p.object.toNat - h.layout.base.toNat) table.blockSize
  rw [← heq, h4] at h5
  have h6 := hblock.startEdge.bottom
  omega

/-- The entry of a block is that of no object placed before. -/
theorem Filled.kept (hs : Surveyed h t b live) (hp : h.Part part) {start : Address}
    (hf : Filled h t b live part table (fun a => a.toNat < start.toNat) f bs)
    (hv : table.Serves h.layout) {i : Nat} (hi : i ∈ part) (hb : h.BlockOf table i start)
    (e : Option Address) {p : Berth} (hmem : p ∈ bs) :
    (f.table.withEntry (f.table.blockOf start) e).forwardee b p.object = p.target := by
  rw [forwardee_withEntry_of_ne _ _ (hf.blockOf_ne hs hp hv hi hb hmem), hf.places p hmem]

/-- Filling in a block places the objects that begin in it. -/
theorem Filled.addBlock (hs : Surveyed h t b live) (hp : h.Part part) {start : Address}
    (hf : Filled h t b live part table (fun a => a.toNat < start.toNat) f bs)
    (hv : table.Serves h.layout) {pos i : Nat} (hpos : part[pos]? = some i)
    (hb : h.BlockOf table i start) :
    ∃ f' bs', Filling.addBlock b (h.region i).top f start = .ok f' ∧
      Filled h t b live part table
        (fun a => a.toNat < min (start.toNat + table.blockSize) (h.region i).top.toNat) f' bs' := by
  have hl := hs.tabled.layout
  have hi := List.mem_of_getElem? hpos
  have hlt := hp.inside i hi
  have hblock := hf.block hs hp hv hi hb
  have hnext := hf.next hs hp hv hi hb
  have hkept := fun e p => hf.kept hs hp hv hi hb e (p := p)
  by_cases hgroup : f.group b start (h.region i).top = []
  · refine ⟨_, bs, Filling.addBlock_of_empty hl.spans hs.shows hs.spread hblock hgroup, ?_⟩
    rw [hgroup] at hnext
    have hf' := hf.congr (fun a h1 h2 => ((hnext.passed a h1 h2).trans (by simp)).symm)
    exact ⟨⟨hf.count, hf.current, hf.extent, hf.top, hf.later⟩, hf.base, hf.shift,
      by simp [withEntry, hf.entries], hf'.seen, hkept none, hf.size, hf.left, hf.space,
      hf.ascending, hf.tiled, hf'.cursor, hf.together, hf.tight⟩
  · have hmem := hblock.mem_group hl.spans hs.shows hs.spread
    have hasc := hblock.pairwise_group hl.spans hs.shows
    obtain ⟨first, rest, hcons⟩ := List.exists_cons_of_ne_nil hgroup
    have hfirst : first ∈ f.group b start (h.region i).top := by simp [hcons]
    have hleast : ∀ a ∈ f.group b start (h.region i).top, first.toNat ≤ a.toNat := by
      rw [hcons] at hasc ⊢
      intro a ha
      rcases List.mem_cons.1 ha with rfl | ha
      · exact le_refl _
      · exact ((List.pairwise_cons.1 hasc).1 a ha).le
    obtain ⟨hlive, h1, h2⟩ := (hmem first).1 hfirst
    have hcursor := hf.cursor first hlive (hnext.known first hfirst).2 (Nat.not_lt.2 h1)
    -- from the first object on there are at least as many words as the objects take
    have hsum := Berth.packed_le hnext.apart (m := first.toNat) (n := (h.region i).top.toNat)
      (by omega) fun a ha => by
        obtain ⟨h3, h4, h5⟩ := (hmem a).1 ha
        exact ⟨hleast a ha, hblock.whole a h3 h4 (by omega)⟩
    have hbottom := hb.bottom
    have hi' : i < h.layout.numRegions := by rwa [← hs.tabled.count]
    have htop := (hs.tabled.top i hlt).2.1
    rw [hs.tabled.stop i hlt] at htop
    have hle : f.space ≤ pos := by
      by_contra hgt
      have hcur := hf.current
      have hget : part[f.space]? = some part[f.space] := List.getElem?_eq_getElem hcur
      have h3 : _ ≤ f.target.top.toNat := (hf.top _ _ hget).1
      have h4 := pairwise_lt_getElem? hp.ascending hpos hget (by omega)
      have hin : part[f.space] ≤ h.layout.numRegions := by
        rw [← hs.tabled.count]
        exact (hp.inside _ (List.getElem_mem _)).le
      have h5 := hl.regionStop_le_bottom h4 hin
      rw [hl.toNat_regionStop hi'] at htop
      omega
    obtain ⟨s, hroom, hs1, hs2, hs3, hs4, hs5⟩ := hf.toSpaced.makeRoom hs.tabled.toGridded hp hpos
      hle hcursor (by omega) (hsum.trans htop) (f.table.blockOf start)
    have hslt : s < part.length := hs2.trans_lt (List.getElem?_eq_some_iff.1 hpos).1
    have hstop := (f.spaceAt s).stop.toNat_lt
    obtain ⟨e, hrun, hplaces⟩ := Filling.addBlock_spec hl.spans hs.shows hs.spread hblock hgroup hroom rfl
      (by show (f.spaceAt s).top.toNat + _ < _; omega)
    have hnext' := hf.toSpaced.makeRoom_next hs.tabled.toGridded hp (by
      rw [hl.toNat_regionStop hi'] at htop
      omega) hroom
    have hinBlock : ∀ a ∈ f.group b start (h.region i).top,
        table.blockOf a = f.table.blockOf start := by
      intro a ha
      obtain ⟨-, h3, h4⟩ := (hmem a).1 ha
      rw [← hf.blockOf_eq]
      exact (hblock.sized.blockStart_blockOf hblock.fromBase hblock.aligned h3 (by omega)).1
    exact ⟨_, _, hrun, hf.placed hs hnext hgroup hslt hs1 hs3 (fun a ha => hs4.trans (hleast a ha)) hs5
      hf.base hf.shift (by simp [withEntry, hf.entries]) (hkept e) hplaces hinBlock
      (fun p hp' => by rw [← hf.blockOf_eq]; exact (hf.blockOf_ne hs hp hv hi hb hp').symm) hnext'⟩

/-! ### All blocks -/

/-- Filling in the blocks of a region places its objects. -/
theorem Filled.addRegion (hs : Surveyed h t b live) (hp : h.Part part) {pos i : Nat}
    (hpos : part[pos]? = some i)
    (hf : Filled h t b live part table (fun a => a.toNat < (h.region i).bottom.toNat) f bs)
    (hv : table.Serves h.layout) :
    ∃ f' bs', (f.table.blockStarts (h.region i).bottom (h.region i).top).foldlM
        (Filling.addBlock b (h.region i).top) f = .ok f' ∧
      Filled h t b live part table (fun a => a.toNat < (h.region i).top.toNat) f' bs' := by
  have hlt := hp.inside i (List.mem_of_getElem? hpos)
  obtain ⟨hle, -, -⟩ := hs.tabled.top i hlt
  obtain ⟨hg, hsize⟩ := hf.grounded hv
  have hbpos := table.blockSize_pos
  rw [hg.sized.blockStarts_eq hle]
  obtain ⟨f', hrun, bs', hf'⟩ := foldlM_induct
    (f := Filling.addBlock b (h.region i).top)
    (fun done f' => ∃ bs', Filled h t b live part table (fun a => a.toNat
      < min ((h.region i).bottom.toNat + done.length * table.blockSize) (h.region i).top.toNat) f' bs')
    ((List.range (f.table.blockCount (h.region i).bottom (h.region i).top)).map fun k =>
      (h.region i).bottom + k.toUInt64 * f.table.blockBytes) f
    ⟨bs, hf.congr fun a _ _ => by
      rw [List.length_nil, Nat.zero_mul]
      omega⟩ (by
      rintro done start rest f1 heq ⟨bs1, hf1⟩
      have hget : ((List.range (f.table.blockCount (h.region i).bottom (h.region i).top)).map fun k =>
          (h.region i).bottom + k.toUInt64 * f.table.blockBytes)[done.length]? = some start := by
        rw [heq]
        simp
      rw [List.getElem?_map] at hget
      obtain ⟨k, hk, rfl⟩ := Option.map_eq_some_iff.1 hget
      obtain ⟨hlen, hk⟩ := List.getElem?_eq_some_iff.1 hk
      rw [List.getElem_range] at hk
      subst hk
      rw [List.length_range] at hlen
      obtain ⟨hat, hbelow⟩ := hg.sized.toNat_blockStart hlen
      rw [hsize] at hat hbelow
      have hblock : h.BlockOf table i
          ((h.region i).bottom + done.length.toUInt64 * f.table.blockBytes) := by
        refine ⟨?_, by omega, ?_⟩ <;> rw [hat, hs.tabled.bottom i hlt]
        · omega
        · rw [Nat.add_sub_cancel_left, Nat.mul_mod_left]
      obtain ⟨f2, bs2, hstep, hf2⟩ := Filled.addBlock hs hp (hf1.congr fun a _ _ => by
        rw [hat]
        omega) hv hpos hblock
      refine ⟨f2, hstep, bs2, hf2.congr fun a _ _ => ?_⟩
      rw [hat, List.length_append, List.length_singleton, Nat.succ_mul, Nat.add_assoc])
  refine ⟨f', bs', hrun, hf'.congr fun a _ _ => ?_⟩
  rw [List.length_map, List.length_range]
  have hall : (h.region i).top.toNat ≤ (h.region i).bottom.toNat
      + f.table.blockCount (h.region i).bottom (h.region i).top * table.blockSize := by
    unfold blockCount
    rw [hsize]
    have := Nat.lt_div_mul_add hbpos (a := (h.region i).top.toNat - (h.region i).bottom.toNat
      + (table.blockSize - 1))
    omega
  omega

/-- The filling before the first block. -/
theorem filled_start (hs : Surveyed h t b live) (hp : h.Part part) (hne : part ≠ [])
    (table : BlockOffsets) :
    Filled h t b live part table (fun _ => False)
      ⟨table, (part.map fun i => Space.new (h.region i).bottom (h.region i).stop).toArray, 0⟩ [] := by
  have hl := hs.tabled.layout
  have hspace : ∀ j i, part[j]? = some i → Filling.spaceAt
      ⟨table, (part.map fun i => Space.new (h.region i).bottom (h.region i).stop).toArray, 0⟩ j
      = Space.new (h.layout.bottom i) (h.layout.regionStop i) := by
    intro j i hj
    have hlt := hp.inside i (List.mem_of_getElem? hj)
    unfold Filling.spaceAt
    rw [List.getElem?_toArray, List.getElem?_map, hj, ← hs.tabled.bottom i hlt, ← hs.tabled.stop i hlt]
    rfl
  have hpos : 0 < part.length := List.length_pos_of_ne_nil hne
  have hfirst : part[0]? = some part[0] := List.getElem?_eq_getElem hpos
  refine ⟨⟨by simp, hpos, ?_, ?_, ?_⟩, rfl, rfl, rfl, by simp, by simp, by simp, by simp, by simp,
    Berth.ascending_nil _ _, ?_, ?_, by simp, fun j hj => absurd hj (Nat.not_lt_zero j)⟩
  · intro j i hj
    rw [hspace j i hj]
    exact ⟨rfl, rfl⟩
  · intro j i hj
    have hi : i < h.layout.numRegions := by
      rw [← hs.tabled.count]
      exact hp.inside i (List.mem_of_getElem? hj)
    have hmod := hl.bottom_mod hi.le
    rw [hspace j i hj, hl.toNat_regionStop hi]
    show _ ≤ (h.layout.bottom i).toNat ∧ (h.layout.bottom i).toNat ≤ _ ∧
      (h.layout.bottom i).toNat % 8 = 0
    omega
  · intro j _ hj
    rw [hspace j _ (List.getElem?_eq_getElem hj)]
    rfl
  · intro j i hj
    rw [hspace j i hj]
    exact rfl
  · intro a ha hin _
    show (Filling.spaceAt _ 0).top.toNat ≤ _
    rw [hspace 0 _ hfirst]
    show (h.layout.bottom part[0]).toNat ≤ _
    have hlt := hp.inside _ (List.getElem_mem hpos)
    rw [← hs.tabled.bottom _ hlt]
    by_contra hgt
    have hbefore := (hs.lt_bottom_iff ha hlt).1 (Nat.not_le.1 hgt)
    have := (mem_take_iff_lt hp.ascending hfirst hin).2 hbefore
    simp at this

/-- The table is filled in without running out of space. -/
theorem build_spec (hs : Surveyed h t b live) (hp : h.Part part) (hne : part ≠ [])
    (hv : table.Serves h.layout) :
    ∃ f bs, table.build b (part.map fun i => ((h.region i).bottom, (h.region i).top))
        (part.map fun i => Space.new (h.region i).bottom (h.region i).stop).toArray = .ok f ∧
      Filled h t b live part table (fun _ => True) f bs := by
  unfold build
  rw [List.foldlM_map]
  obtain ⟨f, hrun, bs, hf⟩ := foldlM_induct
    (f := fun f i => (f.table.blockStarts (h.region i).bottom (h.region i).top).foldlM
      (Filling.addBlock b (h.region i).top) f)
    (fun done f => ∃ bs, Filled h t b live part table
      (fun a => h.layout.indexOf a ∈ part.take done.length) f bs) part
    ⟨table, (part.map fun i => Space.new (h.region i).bottom (h.region i).stop).toArray, 0⟩
    ⟨[], (filled_start hs hp hne table).congr (by simp)⟩ (by
      rintro done i rest f1 heq ⟨bs1, hf1⟩
      have hpos : part[done.length]? = some i := by simp [heq]
      have hlt := hp.inside i (List.mem_of_getElem? hpos)
      obtain ⟨f2, bs2, hstep, hf2⟩ := Filled.addRegion hs hp hpos (hf1.congr fun a ha hin => by
        rw [hs.lt_bottom_iff ha hlt, mem_take_iff_lt hp.ascending hpos hin]) hv
      refine ⟨f2, hstep, bs2, hf2.congr fun a ha hin => ?_⟩
      rw [List.length_append, List.length_singleton, mem_take_succ_iff_le hp.ascending hpos hin]
      -- an object below the top of the region lies in it or below it
      have hnext := hs.lt_bottom_iff ha hlt
      have htop := (hs.tabled.top i hlt).1
      have hreg := (hs.region ha).2
      constructor
      · intro hbelow
        by_contra hgt
        have hin' := (hs.region ha).1
        have hl := hs.tabled.layout
        have h1 := hl.regionStop_le_bottom (Nat.not_le.1 hgt)
          (by rw [← hs.tabled.count]; exact hin'.le)
        have hi' : i < h.layout.numRegions := by rwa [← hs.tabled.count]
        have h2 := (hs.tabled.top i hlt).2.1
        rw [hs.tabled.stop i hlt, hl.toNat_regionStop hi'] at h2
        rw [hs.tabled.bottom _ hin'] at hreg
        omega
      · intro hle
        rcases Nat.lt_or_ge (h.layout.indexOf a) i with hlt' | hge
        · have := hnext.2 hlt'
          omega
        · obtain rfl : h.layout.indexOf a = i := by omega
          exact hreg.2)
  refine ⟨f, bs, hrun, hf.congr fun a _ hin => ?_⟩
  rw [List.take_length]
  exact iff_true_intro hin

end BlockOffsets

end MarkCompact
