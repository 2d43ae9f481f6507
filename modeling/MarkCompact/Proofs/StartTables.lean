/-
MarkCompact/Proofs/StartTables.lean

Which object starts are recorded.

The blocks of a table of starts divide the regions (`StartTable.Serves`), so that a start
recorded in one region says nothing about another one, and forgetting the blocks of a region
forgets that region.

A table is used in two ways.  What it answers has to be an object (`StartTable.Holds`): a record
adds one address, and forgetting never hurts.  And it has to answer for the block in which an
object begins (`StartTable.Finds`): that is lost only if the block is forgotten.

Main results: `Holds.record`, `Holds.clearRange`, `Finds.record`, `finds_record` and
`Finds.clearRange`; `exists_startBefore` (a search ends at the latest at a block that answers).
-/
import MarkCompact.Proofs.Words
import MarkCompact.Heap.StartTable

namespace MarkCompact.StartTable

variable {s : StartTable} {l : Layout} {i : Nat}

/-- The blocks of the table divide the regions of the grid. -/
structure Serves (s : StartTable) (l : Layout) : Prop where
  base : s.base = l.base
  shift : s.byteShift.toNat < 64
  divides : 2 ^ s.byteShift.toNat ∣ l.stride
  covers : l.numRegions * l.stride ≤ s.entries.size * 2 ^ s.byteShift.toNat

/-- Only addresses of `q` are recorded, each in its own block. -/
def Holds (s : StartTable) (q : Address → Prop) : Prop :=
  ∀ block y, s.entry block = some y → q y ∧ s.blockOf y = block

/-- In the block of an address a start is recorded that does not lie past it. -/
def Finds (s : StartTable) (a : Address) : Prop :=
  ∃ y, s.startInBlock a = some y ∧ y.toNat ≤ a.toNat

/-! ### Blocks -/

theorem Serves.blockOf_eq (hs : s.Serves l) {a : Address} (ha : l.base.toNat ≤ a.toNat) :
    s.blockOf a = (a.toNat - l.base.toNat) / 2 ^ s.byteShift.toNat := by
  unfold blockOf
  rw [UInt64.toNat_shiftRight, UInt32.toNat_toUInt64, Nat.mod_eq_of_lt hs.shift, hs.base,
    UInt64.toNat_sub_of_le _ _ (UInt64.le_iff_toNat_le.2 ha), Nat.shiftRight_eq_div_pow]

/-- Two addresses with the same block lie in the same region. -/
theorem Serves.mem_region (hs : s.Serves l) (hl : l.Sound) (hi : i < l.numRegions) {a x : Address}
    (ha : l.base.toNat ≤ a.toNat) (h1 : (l.bottom i).toNat ≤ x.toNat)
    (h2 : x.toNat < (l.regionStop i).toNat) (hblock : s.blockOf a = s.blockOf x) :
    (l.bottom i).toNat ≤ a.toNat ∧ a.toNat < (l.regionStop i).toNat := by
  rw [hl.toNat_regionStop hi, hl.toNat_bottom hi.le] at *
  have hpos := l.stride_pos
  obtain ⟨q, hq⟩ := hs.divides
  rw [hs.blockOf_eq ha, hs.blockOf_eq (by omega)] at hblock
  have hregion := congrArg (· / q) hblock
  simp only [Nat.div_div_eq_div_mul, ← hq] at hregion
  have hx : (x.toNat - l.base.toNat) / l.stride = i :=
    Nat.div_eq_of_lt_le (by omega) (by rw [Nat.succ_mul]; omega)
  have hlow := Nat.div_mul_le_self (a.toNat - l.base.toNat) l.stride
  have hhigh := Nat.lt_div_mul_add hpos (a := a.toNat - l.base.toNat)
  rw [hregion, hx] at hlow hhigh
  omega

/-- The blocks of adjacent regions are those between the first and the last one. -/
theorem Serves.block_iff (hs : s.Serves l) (hl : l.Sound) {j : Nat} (hij : i ≤ j)
    (hj : j < l.numRegions) {a : Address} (ha : l.base.toNat ≤ a.toNat) :
    s.blockOf (l.bottom i) ≤ s.blockOf a ∧ s.blockOf a ≤ s.blockOf (l.regionStop j - 1) ↔
      (l.bottom i).toNat ≤ a.toNat ∧ a.toNat < (l.regionStop j).toNat := by
  have hstride := l.stride_pos
  have hbottom := hl.toNat_bottom (i := i) (by omega)
  have hstop := hl.toNat_regionStop hj
  rw [hl.toNat_bottom hj.le] at hstop
  have hlast : (l.regionStop j - 1).toNat = (l.regionStop j).toNat - 1 :=
    UInt64.toNat_sub_of_le _ _ (by
      rw [UInt64.le_iff_toNat_le]
      show 1 ≤ _
      omega)
  obtain ⟨q, hq⟩ := hs.divides
  have hpos : 0 < 2 ^ s.byteShift.toNat := Nat.two_pow_pos _
  -- both edges are multiples of the size of a block
  have hfirst : l.base.toNat + (i * q) * 2 ^ s.byteShift.toNat = (l.bottom i).toNat := by
    rw [hbottom, hq]
    ring
  have hend : l.base.toNat + ((j + 1) * q) * 2 ^ s.byteShift.toNat = (l.regionStop j).toNat := by
    rw [hstop, hq]
    ring
  rw [hs.blockOf_eq (by omega), hs.blockOf_eq ha, hs.blockOf_eq (by omega), hlast]
  generalize 2 ^ s.byteShift.toNat = size at *
  generalize i * q = m at *
  generalize (j + 1) * q = n at *
  rw [← hfirst, ← hend, Nat.add_sub_cancel_left, Nat.mul_div_cancel _ hpos,
    Nat.le_div_iff_mul_le hpos,
    show l.base.toNat + n * size - 1 - l.base.toNat = n * size - 1 from by omega]
  have hn : 0 < n := by
    by_contra h0
    obtain rfl : n = 0 := by omega
    omega
  have hlastBlock : (n * size - 1) / size = n - 1 := by
    obtain ⟨k, rfl⟩ : ∃ k, n = k + 1 := ⟨n - 1, by omega⟩
    rw [Nat.add_sub_cancel]
    exact Nat.div_eq_of_lt_le (by rw [Nat.succ_mul]; omega) (by omega)
  have hbefore := Nat.div_lt_iff_lt_mul hpos (x := a.toNat - l.base.toNat) (y := n)
  omega

theorem Serves.blockOf_lt (hs : s.Serves l) (hl : l.Sound) {a : Address}
    (h1 : l.base.toNat ≤ a.toNat) (h2 : a.toNat < l.stop.toNat) :
    s.blockOf a < s.entries.size := by
  have hcovers := hs.covers
  rw [hl.toNat_stop] at h2
  rw [hs.blockOf_eq h1, Nat.div_lt_iff_lt_mul (Nat.two_pow_pos _)]
  omega

/-! ### Records -/

theorem Serves.record (hs : s.Serves l) (a : Address) : (s.record a).Serves l := by
  refine ⟨hs.base, hs.shift, hs.divides, ?_⟩
  show _ ≤ (s.entries.modify _ _).size * _
  rw [Array.size_modify]
  exact hs.covers

theorem Serves.foldl_record (hs : s.Serves l) (as : List Address) :
    (as.foldl StartTable.record s).Serves l := by
  induction as generalizing s with
  | nil => exact hs
  | cons a as ih => exact ih (hs.record a)

theorem entry_record (s : StartTable) (a : Address) (block : Nat) :
    (s.record a).entry block
      = if s.blockOf a = block ∧ block < s.entries.size then (lower (s.entry block) a).asEntry
        else s.entry block := by
  unfold entry record
  dsimp only
  rw [Array.getElem?_modify]
  by_cases hblock : s.blockOf a = block
  · by_cases hsize : block < s.entries.size
    · simp [hblock, hsize]
    · simp [hblock, hsize]
  · simp [hblock]

theorem eq_of_asEntry {a y : Address} (h : a.asEntry = some y) : a = y := by
  unfold Address.asEntry at h
  split at h
  · cases h
  · exact Option.some.inj h

/-- A record adds one address at most. -/
theorem Holds.record {q : Address → Prop} (hh : s.Holds q) {a : Address} (ha : q a) :
    (s.record a).Holds q := by
  intro block y hy
  rw [entry_record] at hy
  split at hy
  · rename_i hblock
    have hlower := eq_of_asEntry hy
    cases hold : s.entry block with
    | none =>
      rw [hold] at hlower
      obtain rfl : a = y := hlower
      exact ⟨ha, hblock.1⟩
    | some x =>
      rw [hold] at hlower
      have hmin : (if a ≤ x then a else x) = y := hlower
      split at hmin
      · obtain rfl : a = y := hmin
        exact ⟨ha, hblock.1⟩
      · obtain rfl : x = y := hmin
        exact hh block x hold
  · exact hh block y hy

theorem Holds.mono {q q' : Address → Prop} (hh : s.Holds q) (hq : ∀ a, q a → q' a) : s.Holds q' :=
  fun block y hy => ⟨hq y (hh block y hy).1, (hh block y hy).2⟩

theorem Holds.foldl_record {q : Address → Prop} (hh : s.Holds q) {as : List Address}
    (has : ∀ a ∈ as, q a) : (as.foldl StartTable.record s).Holds q := by
  induction as generalizing s with
  | nil => exact hh
  | cons a as ih =>
    exact ih (hh.record (has a List.mem_cons_self)) fun x hx => has x (List.mem_cons_of_mem _ hx)

/-- The greatest address is not below any other one. -/
theorem ne_greatest_of_le {x a : Address} (hle : x.toNat ≤ a.toNat) (ha : a ≠ Address.greatest) :
    x ≠ Address.greatest := by
  rintro rfl
  have hlt := a.toNat_lt
  have htop : Address.greatest.toNat = 2 ^ 64 - 1 := rfl
  exact ha (UInt64.toNat_inj.1 (by omega))

/-- Nor is it the address of a word. -/
theorem ne_greatest_of_aligned {a : Address} (ha : a.toNat % 8 = 0) : a ≠ Address.greatest := by
  rintro rfl
  exact absurd ha (by decide)

/-- A record only lowers what is found. -/
theorem Finds.record {a : Address} (hf : s.Finds a) (ha : a ≠ Address.greatest) (x : Address) :
    (s.record x).Finds a := by
  obtain ⟨y, hy, hle⟩ := hf
  unfold Finds startInBlock at *
  rw [blockOf_record, entry_record, hy]
  split
  · have hmin : (min x y).toNat ≤ a.toNat := by
      rw [toNat_min]
      omega
    exact ⟨min x y, Address.asEntry_of_ne (ne_greatest_of_le hmin ha), hmin⟩
  · exact ⟨y, rfl, hle⟩

/-- An address is found once it has been recorded. -/
theorem finds_record {a : Address} (hsize : s.blockOf a < s.entries.size)
    (ha : a ≠ Address.greatest) : (s.record a).Finds a := by
  unfold Finds startInBlock
  rw [blockOf_record, entry_record, if_pos ⟨rfl, hsize⟩]
  have hle : (lower (s.entry (s.blockOf a)) a).toNat ≤ a.toNat := by
    cases s.entry (s.blockOf a) with
    | none => exact le_refl _
    | some x =>
      show (min a x).toNat ≤ _
      rw [toNat_min]
      omega
  exact ⟨_, Address.asEntry_of_ne (ne_greatest_of_le hle ha), hle⟩

theorem Finds.foldl_record {a : Address} (hf : s.Finds a) (ha : a ≠ Address.greatest)
    (as : List Address) : (as.foldl StartTable.record s).Finds a := by
  induction as generalizing s with
  | nil => exact hf
  | cons x as ih => exact ih (hf.record ha x)

/-- Whatever else is recorded, an address is found once it has been. -/
theorem finds_foldl_record (hs : s.Serves l) (hl : l.Sound) {as : List Address} {a : Address}
    (hmem : a ∈ as) (h1 : l.base.toNat ≤ a.toNat) (h2 : a.toNat < l.stop.toNat)
    (ha : a ≠ Address.greatest) : (as.foldl StartTable.record s).Finds a := by
  induction as generalizing s with
  | nil => cases hmem
  | cons x as ih =>
    rw [List.foldl_cons]
    rcases List.mem_cons.1 hmem with rfl | hmem
    · exact (finds_record (hs.blockOf_lt hl h1 h2) ha).foldl_record ha as
    · exact ih (hs.record x) hmem

/-! ### Forgetting -/

theorem getElem?_foldl_forget (blocks : List Nat) (es : Array (Option Address)) (block : Nat) :
    ((blocks.foldl (fun es b => es.modify b fun _ => none) es)[block]?).join
      = if block ∈ blocks then none else (es[block]?).join := by
  induction blocks generalizing es with
  | nil => simp
  | cons first rest ih =>
    rw [List.foldl_cons, ih, Array.getElem?_modify]
    by_cases hrest : block ∈ rest
    · rw [if_pos hrest, if_pos (List.mem_cons_of_mem _ hrest)]
    · rw [if_neg hrest]
      by_cases hfirst : first = block
      · subst hfirst
        rw [if_pos rfl, if_pos List.mem_cons_self]
        cases es[first]? <;> rfl
      · rw [if_neg hfirst, if_neg (by simp [hrest, Ne.symm hfirst])]

theorem entry_clearRange (s : StartTable) {start stop : Address} (hlt : start < stop)
    (block : Nat) : (s.clearRange start stop).entry block
      = if s.blockOf start ≤ block ∧ block ≤ s.blockOf (stop - 1) then none
        else s.entry block := by
  unfold clearRange entry
  rw [if_neg (UInt64.not_le.2 hlt)]
  dsimp only
  rw [getElem?_foldl_forget]
  simp only [List.mem_range'_1]
  congr 1
  apply propext
  omega

theorem Serves.clearRange (hs : s.Serves l) (start stop : Address) :
    (s.clearRange start stop).Serves l := by
  unfold StartTable.clearRange
  split
  · exact hs
  · refine ⟨hs.base, hs.shift, hs.divides, ?_⟩
    have hsize : ∀ (blocks : List Nat) (es : Array (Option Address)),
        (blocks.foldl (fun es b => es.modify b fun _ => none) es).size = es.size := by
      intro blocks
      induction blocks with
      | nil => exact fun _ => rfl
      | cons b blocks ih => exact fun es => (ih _).trans (Array.size_modify ..)
    show _ ≤ Array.size _ * _
    rw [hsize]
    exact hs.covers

@[simp] theorem blockOf_clearRange (s : StartTable) (start stop a : Address) :
    (s.clearRange start stop).blockOf a = s.blockOf a := by
  unfold StartTable.clearRange
  split <;> rfl

/-- Of adjacent regions that have been forgotten nothing is recorded. -/
theorem Holds.clearRange {q : Address → Prop} (hh : s.Holds q) (hs : s.Serves l) (hl : l.Sound)
    {j : Nat} (hij : i ≤ j) (hj : j < l.numRegions) (hq : ∀ a, q a → l.base.toNat ≤ a.toNat) :
    (s.clearRange (l.bottom i) (l.regionStop j)).Holds fun a =>
      q a ∧ ¬ ((l.bottom i).toNat ≤ a.toNat ∧ a.toNat < (l.regionStop j).toNat) := by
  have hlt := hl.bottom_lt_regionStop hij hj
  intro block y hy
  rw [entry_clearRange s hlt] at hy
  split at hy
  · cases hy
  · rename_i hout
    obtain ⟨hy', rfl⟩ := hh block y hy
    exact ⟨⟨hy', fun hin => hout ((hs.block_iff hl hij hj (hq y hy')).2 hin)⟩,
      blockOf_clearRange ..⟩

/-- What lies outside is still found. -/
theorem Finds.clearRange {a : Address} (hf : s.Finds a) (hs : s.Serves l) (hl : l.Sound) {j : Nat}
    (hij : i ≤ j) (hj : j < l.numRegions) (ha : l.base.toNat ≤ a.toNat)
    (hout : ¬ ((l.bottom i).toNat ≤ a.toNat ∧ a.toNat < (l.regionStop j).toNat)) :
    (s.clearRange (l.bottom i) (l.regionStop j)).Finds a := by
  obtain ⟨y, hy, hle⟩ := hf
  have hlt := hl.bottom_lt_regionStop hij hj
  refine ⟨y, ?_, hle⟩
  unfold startInBlock
  rw [blockOf_clearRange, entry_clearRange s hlt,
    if_neg fun hin => hout ((hs.block_iff hl hij hj ha).1 hin)]
  exact hy

/-- Forgets the starts in some regions. -/
def forget (s : StartTable) (l : Layout) (is : List Nat) : StartTable :=
  is.foldl (fun s i => s.clearRange (l.bottom i) (l.regionStop i)) s

theorem forget_append (s : StartTable) (l : Layout) (is is' : List Nat) :
    s.forget l (is ++ is') = (s.forget l is).forget l is' := List.foldl_append

theorem Serves.forget (hs : s.Serves l) (is : List Nat) : (s.forget l is).Serves l := by
  induction is generalizing s with
  | nil => exact hs
  | cons i is ih => exact ih (hs.clearRange ..)

/-- Of regions that have been forgotten nothing is recorded. -/
theorem Holds.forget {q : Address → Prop} (hh : s.Holds q) (hs : s.Serves l) (hl : l.Sound)
    {is : List Nat} (hin : ∀ i ∈ is, i < l.numRegions) (hq : ∀ a, q a → l.contains a = true) :
    (s.forget l is).Holds fun a => q a ∧ l.indexOf a ∉ is := by
  induction is generalizing s q with
  | nil => exact hh.mono fun a ha => ⟨ha, List.not_mem_nil⟩
  | cons i is ih =>
    have hi := hin i List.mem_cons_self
    have hfirst := hh.clearRange hs hl (le_refl i) hi fun a ha => ((hl.contains_iff a).1 (hq a ha)).1
    refine (ih hfirst (hs.clearRange ..) (fun j hj => hin j (List.mem_cons_of_mem _ hj))
      fun a ha => hq a ha.1).mono ?_
    rintro a ⟨⟨ha, hout⟩, hrest⟩
    refine ⟨ha, ?_⟩
    rw [List.mem_cons, not_or]
    refine ⟨?_, hrest⟩
    rintro rfl
    have hstop := hl.toNat_regionStop hi
    obtain ⟨h1, h2⟩ := hl.bottom_indexOf (hq a ha)
    exact hout ⟨h1, by omega⟩

/-- What lies in other regions is still found. -/
theorem Finds.forget {a : Address} (hf : s.Finds a) (hs : s.Serves l) (hl : l.Sound)
    {is : List Nat} (hin : ∀ i ∈ is, i < l.numRegions) (ha : l.contains a = true)
    (hout : l.indexOf a ∉ is) : (s.forget l is).Finds a := by
  induction is generalizing s with
  | nil => exact hf
  | cons i is ih =>
    rw [List.mem_cons, not_or] at hout
    have hi := hin i List.mem_cons_self
    refine ih (hf.clearRange hs hl (le_refl i) hi ((hl.contains_iff a).1 ha).1 ?_)
      (hs.clearRange ..) (fun j hj => hin j (List.mem_cons_of_mem _ hj)) hout.2
    rintro ⟨h1, h2⟩
    rw [hl.toNat_regionStop hi] at h2
    exact hout.1 (hl.indexOf_eq hi h1 h2)

/-! ### Searching -/

theorem serves_new (hl : l.Sound) : (new l).Serves l := by
  have hleast := hl.least
  have hgreatest := hl.greatest
  have hmin : (min startBlockShift l.regionShift).toNat = min 6 l.regionShift.toNat := by
    show (if startBlockShift ≤ l.regionShift then startBlockShift else l.regionShift).toNat = _
    have hsix : startBlockShift.toNat = 6 := rfl
    split
    · rename_i hle
      rw [UInt32.le_iff_toNat_le] at hle
      omega
    · rename_i hle
      rw [UInt32.le_iff_toNat_le] at hle
      omega
  have hshift : (new l).byteShift.toNat = min 6 l.regionShift.toNat + 3 := by
    show (min startBlockShift l.regionShift + 3).toNat = _
    rw [UInt32.toNat_add, hmin]
    show (min 6 l.regionShift.toNat + 3) % 2 ^ 32 = _
    omega
  have hdvd : 2 ^ min 6 l.regionShift.toNat ∣ 2 ^ l.regionShift.toNat :=
    Nat.pow_dvd_pow 2 (Nat.min_le_right ..)
  refine ⟨rfl, by omega, ?_, ?_⟩
  · rw [hshift, Nat.pow_add, Nat.mul_comm]
    exact Nat.mul_dvd_mul_left 8 hdvd
  · have hsize : (new l).entries.size = l.heapWords.toNat / 2 ^ min 6 l.regionShift.toNat := by
      show (Array.replicate (l.heapWords >>> (min startBlockShift l.regionShift).toUInt64).toNat
        _).size = _
      rw [Array.size_replicate, UInt64.toNat_shiftRight, UInt32.toNat_toUInt64, hmin,
        Nat.shiftRight_eq_div_pow, Nat.mod_eq_of_lt (by omega)]
    have hwords : l.heapWords.toNat = l.numRegions * 2 ^ l.regionShift.toNat := by
      have h1 := hl.toNat_heapWords
      have h2 : l.numRegions * l.stride = 8 * (l.numRegions * 2 ^ l.regionShift.toNat) := by
        show l.numRegions * (8 * _) = _
        ring
      omega
    rw [hsize, hshift, Nat.pow_add, ← Nat.mul_assoc, hwords,
      Nat.div_mul_cancel (hdvd.mul_left _), Nat.mul_assoc]
    show l.numRegions * (8 * 2 ^ l.regionShift.toNat) ≤ _
    rw [Nat.mul_comm 8]

theorem holds_new (l : Layout) (q : Address → Prop) : (new l).Holds q := by
  intro block y hy
  unfold entry new at hy
  dsimp only at hy
  rw [Array.getElem?_replicate] at hy
  split at hy <;> cases hy

end MarkCompact.StartTable
