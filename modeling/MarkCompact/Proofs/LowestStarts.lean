/-
MarkCompact/Proofs/LowestStarts.lean

Which start a block answers with.

Once some regions have been forgotten and the starts in them recorded anew, every block of
theirs answers with the lowest of these starts, in whichever order they have been recorded
(`Lowest`).  No other block is touched.  So a table that answers like that already is not
changed by forgetting and recording (`foldl_record_forget`).

Main results: `lowest_foldl_forget` and `foldl_record_forget`.
-/
import MarkCompact.Proofs.Loops
import MarkCompact.Proofs.StartTables

namespace MarkCompact

/-- The answer is the lowest of some addresses, and none if there are none. -/
def Lowest (q : Address → Prop) : Option Address → Prop
  | none => ∀ z, ¬ q z
  | some y => q y ∧ ∀ z, q z → y.toNat ≤ z.toNat

namespace Lowest

variable {q q' : Address → Prop} {o o' : Option Address}

/-- There is one lowest address at most. -/
theorem unique (h : Lowest q o) (h' : Lowest q o') : o = o' := by
  cases o with
  | none =>
    cases o' with
    | none => rfl
    | some y => exact absurd h'.1 (h y)
  | some x =>
    cases o' with
    | none => exact absurd h.1 (h' x)
    | some y => exact congrArg some (UInt64.toNat_inj.1 (Nat.le_antisymm (h.2 y h'.1) (h'.2 x h.1)))

theorem congr (h : Lowest q o) (hq : ∀ a, q' a ↔ q a) : Lowest q' o := by
  cases o with
  | none => exact fun z hz => h z ((hq z).1 hz)
  | some y => exact ⟨(hq y).2 h.1, fun z hz => h.2 z ((hq z).1 hz)⟩

/-- One more address. -/
theorem lower (h : Lowest q o) (a : Address) :
    Lowest (fun z => q z ∨ z = a) (some (StartTable.lower o a)) := by
  cases o with
  | none => exact ⟨.inr rfl, fun z hz => (hz.resolve_left (h z)) ▸ Nat.le_refl _⟩
  | some y =>
    have hmin : (StartTable.lower (some y) a).toNat = min a.toNat y.toNat := toNat_min a y
    refine ⟨?_, fun z hz => ?_⟩
    · show q (if a ≤ y then a else y) ∨ (if a ≤ y then a else y) = a
      split
      · exact .inr rfl
      · exact .inl h.1
    · rw [hmin]
      rcases hz with hz | rfl
      · have := h.2 z hz
        omega
      · exact Nat.min_le_left ..

end Lowest

namespace StartTable

variable {s s' : StartTable} {l : Layout} {i : Nat} {x : Address}

/-! ### One block -/

theorem startInBlock_record {a : Address} (ha : a ≠ Address.greatest)
    (hx : s.blockOf x < s.entries.size) : (s.record a).startInBlock x
      = if s.blockOf a = s.blockOf x then some (lower (s.startInBlock x) a)
        else s.startInBlock x := by
  unfold startInBlock
  rw [blockOf_record, entry_record]
  by_cases hblock : s.blockOf a = s.blockOf x
  · rw [if_pos ⟨hblock, hx⟩, if_pos hblock]
    refine Address.asEntry_of_ne (ne_greatest_of_le ?_ ha)
    cases s.entry (s.blockOf x) with
    | none => exact Nat.le_refl _
    | some y =>
      show (min a y).toNat ≤ a.toNat
      rw [toNat_min]
      exact Nat.min_le_left ..
  · rw [if_neg fun h => hblock h.1, if_neg hblock]

/-- The table `s'` has the blocks of `s`. -/
structure SameBlocks (s s' : StartTable) : Prop where
  base : s'.base = s.base
  shift : s'.byteShift = s.byteShift
  size : s'.entries.size = s.entries.size

namespace SameBlocks

theorem refl (s : StartTable) : SameBlocks s s := ⟨rfl, rfl, rfl⟩

theorem trans {s'' : StartTable} (h : SameBlocks s s') (h' : SameBlocks s' s'') :
    SameBlocks s s'' :=
  ⟨h'.base.trans h.base, h'.shift.trans h.shift, h'.size.trans h.size⟩

theorem blockOf (h : SameBlocks s s') (a : Address) : s'.blockOf a = s.blockOf a := by
  unfold StartTable.blockOf
  rw [h.base, h.shift]

theorem record (s : StartTable) (a : Address) : SameBlocks s (s.record a) :=
  ⟨rfl, rfl, Array.size_modify ..⟩

theorem foldl_record (s : StartTable) (as : List Address) :
    SameBlocks s (as.foldl StartTable.record s) :=
  foldl_induct (fun _ s' => SameBlocks s s') as s (refl s)
    fun _ a _ s' _ hs => hs.trans (record s' a)

theorem clearRange (s : StartTable) (start stop : Address) :
    SameBlocks s (s.clearRange start stop) := by
  unfold StartTable.clearRange
  split
  · exact refl s
  · exact ⟨rfl, rfl, foldl_induct
      (f := fun (es : Array (Option Address)) b => es.modify b fun _ => none)
      (fun _ es => es.size = s.entries.size) _ _ rfl
      fun _ _ _ _ _ hes => (Array.size_modify ..).trans hes⟩

theorem forget (s : StartTable) (l : Layout) (is : List Nat) : SameBlocks s (s.forget l is) :=
  foldl_induct (f := fun (s : StartTable) i => s.clearRange (l.bottom i) (l.regionStop i))
    (fun _ s' => SameBlocks s s') is s (refl s) fun _ _ _ s' _ hs => hs.trans (clearRange s' ..)

/-- A table with the same blocks serves the same layout. -/
theorem serves (h : SameBlocks s s') (hs : s.Serves l) : s'.Serves l := by
  refine ⟨h.base.trans hs.base, ?_, ?_, ?_⟩
  · rw [h.shift]
    exact hs.shift
  · rw [h.shift]
    exact hs.divides
  · rw [h.shift, h.size]
    exact hs.covers

/-- Tables with the same blocks and the same entries are the same. -/
theorem eq_of_entry (h : SameBlocks s s') (hentry : ∀ k, s'.entry k = s.entry k) : s' = s := by
  have hentries : s'.entries = s.entries := by
    refine Array.ext h.size fun k hk hk' => ?_
    have hjoin := hentry k
    unfold entry at hjoin
    rwa [Array.getElem?_eq_getElem hk, Array.getElem?_eq_getElem hk'] at hjoin
  obtain ⟨base, shift, -⟩ := h
  cases s
  cases s'
  dsimp only at base shift hentries
  rw [base, shift, hentries]

end SameBlocks

/-- In a block that answers with nothing the lowest of the recorded addresses is found. -/
theorem lowest_foldl_record (hx : s.blockOf x < s.entries.size) (hbare : s.startInBlock x = none)
    (as : List Address) (has : ∀ a ∈ as, a ≠ Address.greatest) :
    Lowest (fun a => a ∈ as ∧ s.blockOf a = s.blockOf x)
      ((as.foldl StartTable.record s).startInBlock x) := by
  induction as using List.reverseRecOn with
  | nil =>
    rw [List.foldl_nil, hbare]
    exact fun z hz => List.not_mem_nil hz.1
  | append_singleton as a ih =>
    have hsame := SameBlocks.foldl_record s as
    have hrest := ih fun z hz => has z (List.mem_append_left _ hz)
    rw [List.foldl_append, List.foldl_cons, List.foldl_nil,
      startInBlock_record (has a (by simp)) (by rw [hsame.blockOf, hsame.size]; exact hx),
      hsame.blockOf, hsame.blockOf]
    by_cases hblock : s.blockOf a = s.blockOf x
    · rw [if_pos hblock]
      refine (hrest.lower a).congr fun z => ?_
      rw [List.mem_append, List.mem_singleton]
      constructor
      · rintro ⟨hz | rfl, hzx⟩
        · exact .inl ⟨hz, hzx⟩
        · exact .inr rfl
      · rintro (⟨hz, hzx⟩ | rfl)
        · exact ⟨.inl hz, hzx⟩
        · exact ⟨.inr rfl, hblock⟩
    · rw [if_neg hblock]
      refine hrest.congr fun z => ?_
      rw [List.mem_append, List.mem_singleton]
      constructor
      · rintro ⟨hz | rfl, hzx⟩
        · exact ⟨hz, hzx⟩
        · exact absurd hzx hblock
      · rintro ⟨hz, hzx⟩
        exact ⟨.inl hz, hzx⟩

/-! ### Other blocks -/

theorem startInBlock_clearRange (hs : s.Serves l) (hl : l.Sound) {j : Nat} (hij : i ≤ j)
    (hj : j < l.numRegions) (hx : l.base.toNat ≤ x.toNat) :
    (s.clearRange (l.bottom i) (l.regionStop j)).startInBlock x
      = if (l.bottom i).toNat ≤ x.toNat ∧ x.toNat < (l.regionStop j).toNat then none
        else s.startInBlock x := by
  have hlt := hl.bottom_lt_regionStop hij hj
  unfold startInBlock
  rw [blockOf_clearRange, entry_clearRange s hlt]
  simp only [hs.block_iff hl hij hj hx]

theorem startInBlock_forget (hs : s.Serves l) (hl : l.Sound) {is : List Nat}
    (hin : ∀ i ∈ is, i < l.numRegions) (hx : l.contains x = true) :
    (s.forget l is).startInBlock x = if l.indexOf x ∈ is then none else s.startInBlock x := by
  induction is generalizing s with
  | nil => rfl
  | cons i is ih =>
    have hi := hin i List.mem_cons_self
    obtain ⟨h1, h2⟩ := hl.bottom_indexOf hx
    have hindex := hl.indexOf_lt hx
    have hstop := hl.toNat_regionStop hi
    show ((s.clearRange _ _).forget l is).startInBlock x = _
    rw [ih (hs.clearRange ..) fun j hj => hin j (List.mem_cons_of_mem _ hj),
      startInBlock_clearRange hs hl (Nat.le_refl i) hi ((hl.contains_iff x).1 hx).1]
    by_cases hrest : l.indexOf x ∈ is
    · rw [if_pos hrest, if_pos (List.mem_cons_of_mem _ hrest)]
    · rw [if_neg hrest]
      by_cases hfirst : l.indexOf x = i
      · rw [hfirst] at h1 h2
        rw [if_pos (⟨h1, by omega⟩ : _ ∧ _), if_pos (List.mem_cons.2 (.inl hfirst))]
      · have hnot : l.indexOf x ∉ i :: is := fun hmem => (List.mem_cons.1 hmem).elim hfirst hrest
        rw [if_neg hnot, if_neg]
        rintro ⟨h3, h4⟩
        exact hfirst (hl.indexOf_eq hi h3 (by omega))

/-! ### The whole table -/

/-- A block between the first and the last one of a region is that of an address in it. -/
theorem Serves.exists_of_block (hs : s.Serves l) (hl : l.Sound) (hi : i < l.numRegions) {k : Nat}
    (h1 : s.blockOf (l.bottom i) ≤ k) (h2 : k ≤ s.blockOf (l.regionStop i - 1)) :
    ∃ x, l.contains x = true ∧ l.indexOf x = i ∧ s.blockOf x = k := by
  have hstride := l.stride_pos
  have hbottom := hl.toNat_bottom hi.le
  have hbase := hl.base_le_bottom hi.le
  have hstop := hl.toNat_regionStop hi
  have hlast : (l.regionStop i - 1).toNat = (l.regionStop i).toNat - 1 :=
    UInt64.toNat_sub_of_le _ _ (by
      rw [UInt64.le_iff_toNat_le]
      show 1 ≤ _
      omega)
  obtain ⟨q, hq⟩ := hs.divides
  have hpos : 0 < 2 ^ s.byteShift.toNat := Nat.two_pow_pos _
  have hlt := (l.regionStop i).toNat_lt
  rw [hs.blockOf_eq hbase] at h1
  rw [hs.blockOf_eq (by omega), hlast, Nat.le_div_iff_mul_le hpos] at h2
  have hfirst : (l.bottom i).toNat - l.base.toNat = i * q * 2 ^ s.byteShift.toNat := by
    rw [hbottom, hq, Nat.add_sub_cancel_left]
    ring
  rw [hfirst, Nat.mul_div_cancel _ hpos] at h1
  have hmul := Nat.mul_le_mul_right (2 ^ s.byteShift.toNat) h1
  -- the first address of the block
  obtain ⟨x, hx⟩ : ∃ x : Address, x.toNat = l.base.toNat + k * 2 ^ s.byteShift.toNat :=
    ⟨(l.base.toNat + k * 2 ^ s.byteShift.toNat).toUInt64, by
      rw [UInt64.toNat_ofNat']
      omega⟩
  obtain ⟨hin, hindex⟩ := (hl.mem_region_iff hi (a := x)).1 ⟨by omega, by omega⟩
  refine ⟨x, hin, hindex, ?_⟩
  rw [hs.blockOf_eq (by omega), hx, Nat.add_sub_cancel_left, Nat.mul_div_cancel _ hpos]

/-- An address of the grid is not the greatest one. -/
theorem ne_greatest_of_contains (hl : l.Sound) {a : Address} (ha : l.contains a = true) :
    a ≠ Address.greatest := by
  rintro rfl
  have hmax : Address.greatest.toNat = 2 ^ 64 - 1 := rfl
  have hstop := ((hl.contains_iff _).1 ha).2
  have hlt := l.stop.toNat_lt
  omega

/-- A block of a region that has been forgotten answers with the lowest start that has been
recorded in it since. -/
theorem lowest_foldl_forget (hs : s.Serves l) (hl : l.Sound) {is : List Nat}
    (hin : ∀ i ∈ is, i < l.numRegions) {as : List Address} (has : ∀ a ∈ as, l.contains a = true)
    (hx : l.contains x = true) (hix : l.indexOf x ∈ is) :
    Lowest (fun a => a ∈ as ∧ s.blockOf a = s.blockOf x)
      ((as.foldl StartTable.record (s.forget l is)).startInBlock x) := by
  have hblocks := SameBlocks.forget s l is
  obtain ⟨h1, h2⟩ := (hl.contains_iff x).1 hx
  have hbare := startInBlock_forget hs hl hin hx
  rw [if_pos hix] at hbare
  have hlowest := lowest_foldl_record ((hs.forget is).blockOf_lt hl h1 h2) hbare as
    fun a ha => ne_greatest_of_contains hl (has a ha)
  simp only [hblocks.blockOf] at hlowest
  exact hlowest

/-- A table that answers for some regions with what is recorded there does not change when the
regions are forgotten and recorded anew. -/
theorem foldl_record_forget (hs : s.Serves l) (hl : l.Sound) {is : List Nat}
    (hin : ∀ i ∈ is, i < l.numRegions) {as : List Address}
    (has : ∀ a ∈ as, l.contains a = true ∧ l.indexOf a ∈ is)
    (hanswers : ∀ x, l.contains x = true → l.indexOf x ∈ is →
      Lowest (fun a => a ∈ as ∧ s.blockOf a = s.blockOf x) (s.startInBlock x)) :
    as.foldl StartTable.record (s.forget l is) = s := by
  have hblocks := (SameBlocks.forget s l is).trans (SameBlocks.foldl_record (s.forget l is) as)
  refine hblocks.eq_of_entry fun k => ?_
  by_cases hk : ∃ i ∈ is, s.blockOf (l.bottom i) ≤ k ∧ k ≤ s.blockOf (l.regionStop i - 1)
  · obtain ⟨i, hi, h1, h2⟩ := hk
    obtain ⟨x, hx, rfl, rfl⟩ := hs.exists_of_block hl (hin i hi) h1 h2
    have hanswer := (lowest_foldl_forget hs hl hin (fun a ha => (has a ha).1) hx hi).unique
      (hanswers x hx hi)
    unfold startInBlock at hanswer
    rwa [hblocks.blockOf] at hanswer
  · -- a block of none of the regions
    push Not at hk
    have hforget : (s.forget l is).entry k = s.entry k := by
      refine (foldl_induct
        (f := fun (s : StartTable) i => s.clearRange (l.bottom i) (l.regionStop i))
        (fun _ s' => SameBlocks s s' ∧ s'.entry k = s.entry k) is s
        ⟨SameBlocks.refl s, rfl⟩ ?_).2
      rintro done i rest s' heq ⟨hs', hentry⟩
      have hi : i ∈ is := by simp [heq]
      refine ⟨hs'.trans (SameBlocks.clearRange ..), ?_⟩
      have hlt := hl.bottom_lt_regionStop (Nat.le_refl i) (hin i hi)
      rw [entry_clearRange _ hlt, hs'.blockOf, hs'.blockOf, if_neg, hentry]
      rintro ⟨h1, h2⟩
      exact Nat.not_lt.2 h2 (hk i hi h1)
    rw [← hforget]
    refine (foldl_induct (f := StartTable.record) (fun _ s' => SameBlocks s s' ∧
      s'.entry k = (s.forget l is).entry k) as _ ⟨SameBlocks.forget s l is, rfl⟩ ?_).2
    rintro done a rest s' heq ⟨hs', hentry⟩
    obtain ⟨hcontains, hregion⟩ := has a (by simp [heq])
    refine ⟨hs'.trans (SameBlocks.record s' a), ?_⟩
    rw [entry_record, hs'.blockOf, if_neg, hentry]
    rintro ⟨rfl, -⟩
    obtain ⟨h1, h2⟩ := hl.bottom_indexOf hcontains
    have hi := hin _ hregion
    rw [← hl.toNat_regionStop hi] at h2
    obtain ⟨h3, h4⟩ := (hs.block_iff hl (Nat.le_refl _) hi
      ((hl.contains_iff a).1 hcontains).1).2 ⟨h1, h2⟩
    exact Nat.not_lt.2 h4 (hk _ hregion h3)

end StartTable

end MarkCompact
