/-
MarkCompact/Proofs/DenseTables.lean

What a dense table answers.

Slots are numbered around the end of the table (`RegionTable.around`), so that a search
goes up by one without an end.  `RegionTable.Holds t es` is the invariant of a table:
its slots hold the entries `es`, each of them once, and from the home of an entry up to
its slot every slot is taken.  So a search for it meets no vacant slot before.

The short cut for addresses that come in order starts right behind the last such
address.  The slots that it jumps over are taken, for homes ascend with the addresses.

Main results: `RegionTable.Holds.lookup_of_mem`, `lookup_of_notMem` and `insert` (one
more entry, in whatever order they come), and the same for the tables of all regions.
-/
import MarkCompact.Proofs.Bitmaps
import MarkCompact.Proofs.LoadFactors
import MarkCompact.Proofs.Loops

namespace MarkCompact

namespace RegionTable

/-- The slot with a number, around the end of the table. -/
def around (t : RegionTable) (i : Nat) : DenseSlot := t.slots[i % t.capacity]?.getD default

/-- A table that is small enough for the arithmetic on its slots. -/
structure Sized (t : RegionTable) : Prop where
  power : t.capacity.isPowerOfTwo
  small : t.capacity ≤ 2 ^ 59
  words : 0 < t.regionWords.toNat
  scale : t.regionWords.toNat * t.capacity ≤ 2 ^ 64

/-- An address of the region of a table. -/
def Inside (t : RegionTable) (a : Address) : Prop :=
  t.bottom.toNat ≤ a.toNat ∧ a.toNat < t.bottom.toNat + 8 * t.regionWords.toNat

variable {t : RegionTable}

theorem capacity_pos (ht : t.Sized) : 0 < t.capacity := by
  obtain ⟨k, hk⟩ := ht.power
  rw [hk]
  exact Nat.two_pow_pos k

theorem toNat_capacity (ht : t.Sized) : t.capacity.toUInt64.toNat = t.capacity := by
  have := ht.small
  rw [UInt64.toNat_ofNat']
  omega

/-- The mask goes around the end of the table. -/
theorem toNat_and_mask (ht : t.Sized) (i : UInt64) :
    (i &&& t.mask).toNat = i.toNat % t.capacity := by
  have hpos := capacity_pos ht
  have hmask : t.mask.toNat = t.capacity - 1 := by
    unfold mask
    rw [UInt64.toNat_sub_of_le _ _ (UInt64.le_iff_toNat_le.2 (by
      rw [toNat_capacity ht]
      exact hpos)), toNat_capacity ht]
    rfl
  obtain ⟨k, hk⟩ := ht.power
  rw [UInt64.toNat_and, hmask, hk, Nat.and_two_pow_sub_one_eq_mod]

theorem slot_eq_around {i : UInt64} {n : Nat} (h : i.toNat = n % t.capacity) :
    t.slot i = t.around n := by
  unfold slot around
  rw [h]

theorem around_add_capacity (i : Nat) : t.around (i + t.capacity) = t.around i := by
  unfold around
  rw [Nat.add_mod_right]

/-! ### Homes -/

theorem toNat_home (ht : t.Sized) {a : Address} (ha : t.Inside a) :
    (t.home a).toNat = (a.toNat - t.bottom.toNat) / 8 * t.capacity / t.regionWords.toNat := by
  obtain ⟨h1, h2⟩ := ha
  have hword : (a.toNat - t.bottom.toNat) / 8 < t.regionWords.toNat := by omega
  have hbound : (a.toNat - t.bottom.toNat) / 8 * t.capacity < 2 ^ 64 :=
    (Nat.mul_lt_mul_of_pos_right hword (capacity_pos ht)).trans_le ht.scale
  unfold home
  rw [UInt64.toNat_div, UInt64.toNat_mul, Address.toNat_wordsTo h1, toNat_capacity ht,
    Nat.mod_eq_of_lt hbound]

theorem home_lt (ht : t.Sized) {a : Address} (ha : t.Inside a) :
    (t.home a).toNat < t.capacity := by
  rw [toNat_home ht ha, Nat.div_lt_iff_lt_mul ht.words, Nat.mul_comm t.capacity]
  refine Nat.mul_lt_mul_of_pos_right ?_ (capacity_pos ht)
  obtain ⟨h1, h2⟩ := ha
  omega

theorem home_mono (ht : t.Sized) {a b : Address} (ha : t.Inside a) (hb : t.Inside b)
    (hle : a.toNat ≤ b.toNat) : (t.home a).toNat ≤ (t.home b).toNat := by
  rw [toNat_home ht ha, toNat_home ht hb]
  exact Nat.div_le_div_right (Nat.mul_le_mul_right _ (Nat.div_le_div_right (by omega)))

/-! ### Searching -/

/-- A search stops at the first slot that holds the address or is vacant. -/
theorem probe_eq (ht : t.Sized) {a : Address} {steps k : Nat} {i : UInt64} (hk : k < steps)
    (hsmall : i.toNat + steps < 2 ^ 64)
    (hstop : (t.around (i.toNat + k)).source = a ∨ (t.around (i.toNat + k)).source = 0)
    (hgo : ∀ j < k, (t.around (i.toNat + j)).source ≠ a ∧
      (t.around (i.toNat + j)).source ≠ 0) :
    ∃ index, t.probe a steps i = some index ∧
      index.toNat = (i.toNat + k) % t.capacity := by
  induction k generalizing steps i with
  | zero =>
    obtain ⟨n, rfl⟩ : ∃ n, steps = n + 1 := ⟨steps - 1, by omega⟩
    have hhere := toNat_and_mask ht i
    refine ⟨i &&& t.mask, ?_, hhere⟩
    unfold probe
    dsimp only
    rw [slot_eq_around hhere]
    rw [if_pos (by simpa using hstop)]
  | succ k ih =>
    obtain ⟨n, rfl⟩ : ∃ n, steps = n + 1 := ⟨steps - 1, by omega⟩
    have hhere := toNat_and_mask ht i
    have hnext : (i + 1).toNat = i.toNat + 1 := by
      rw [UInt64.toNat_add]
      show (i.toNat + 1) % 2 ^ 64 = _
      omega
    obtain ⟨index, hindex, hval⟩ := @ih n (i + 1) (by omega) (by omega) (by
      rw [hnext, show i.toNat + 1 + k = i.toNat + (k + 1) by omega]
      exact hstop) (by
      intro j hj
      rw [hnext, show i.toNat + 1 + j = i.toNat + (j + 1) by omega]
      exact hgo (j + 1) (by omega))
    refine ⟨index, ?_, ?_⟩
    · obtain ⟨h1, h2⟩ := hgo 0 (by omega)
      unfold probe
      dsimp only
      rw [slot_eq_around hhere]
      rw [if_neg (by simpa using ⟨h1, h2⟩)]
      exact hindex
    · rw [hval, hnext, show i.toNat + 1 + k = i.toNat + (k + 1) by omega]

/-- The slot `index` lies `k` after the home of an address and is the first vacant one there. -/
structure Vacancy (t : RegionTable) (a : Address) (index : UInt64) (k : Nat) : Prop where
  turn : k < t.capacity
  slot : index.toNat = ((t.home a).toNat + k) % t.capacity
  vacant : (t.around ((t.home a).toNat + k)).source = 0
  taken : ∀ j < k, (t.around ((t.home a).toNat + j)).source ≠ 0

/-! ### What a table holds -/

/-- The slots hold the given entries, each where a search for it arrives. -/
structure Holds (t : RegionTable) (es : List (Address × Address)) : Prop where
  sized : t.Sized
  count : t.entries = es.length
  room : es.length ≤ t.expected ∧ t.expected < t.capacity
  inside : ∀ e ∈ es, t.Inside e.1 ∧ e.1 ≠ 0
  only : ∀ i, (t.around i).source = 0 ∨ ((t.around i).source, (t.around i).target) ∈ es
  distinct : ∀ i < t.capacity, ∀ j < t.capacity, (t.around i).source = (t.around j).source →
    (t.around i).source ≠ 0 → i = j
  found : ∀ e ∈ es, ∃ k < t.capacity, t.around ((t.home e.1).toNat + k) = ⟨e.1, e.2⟩ ∧
    ∀ j < k, (t.around ((t.home e.1).toNat + j)).source ≠ 0
  /-- An address that lies past the last one in order has not been entered. -/
  greatest : ∀ e ∈ es, e.1.toNat ≤ t.lastAddress.toNat
  /-- The slots from the home of the last address in order up to its slot are taken. -/
  last : t.lastAddress = 0 ∨ t.Inside t.lastAddress ∧ ∃ k < t.capacity,
    t.lastSlot.toNat = ((t.home t.lastAddress).toNat + k) % t.capacity ∧
    ∀ j ≤ k, (t.around ((t.home t.lastAddress).toNat + j)).source ≠ 0

/-- A table in which nothing has been entered. -/
theorem holds_new {bottom : Address} {regionWords : WordCount} {expected : Nat} {lf : Float}
    (hwords : 0 < regionWords.toNat) (hsmall : capacityFor expected lf ≤ 2 ^ 59)
    (hscale : regionWords.toNat * capacityFor expected lf ≤ 2 ^ 64) :
    (new bottom regionWords expected lf).Holds [] := by
  have hcap : (new bottom regionWords expected lf).capacity = capacityFor expected lf :=
    Array.size_replicate
  have hvacant : ∀ i, ((new bottom regionWords expected lf).around i).source = 0 := by
    intro i
    unfold around new
    dsimp only
    rw [Array.getElem?_replicate]
    split <;> rfl
  refine ⟨⟨?_, ?_, hwords, ?_⟩, rfl, ⟨Nat.zero_le _, ?_⟩, by simp, fun i => .inl (hvacant i), ?_,
    by simp, by simp, .inl rfl⟩
  · rw [hcap]
    exact isPowerOfTwo_capacityFor expected lf
  · rw [hcap]
    exact hsmall
  · rw [hcap]
    exact hscale
  · rw [hcap]
    exact expected_lt_capacityFor expected lf
  · intro i _ j _ _ hne
    exact absurd (hvacant i) hne

namespace Holds

variable {es : List (Address × Address)}

theorem source_mem (h : t.Holds es) {i : Nat} (hne : (t.around i).source ≠ 0) :
    (t.around i).source ∈ es.map Prod.fst := by
  rcases h.only i with hz | hmem
  · exact absurd hz hne
  · exact List.mem_map_of_mem (f := Prod.fst) hmem

/-- Two numbers less than a turn apart are those of different slots. -/
theorem mod_ne {n i j : Nat} (hij : i < j) (hj : j < t.capacity) :
    (n + i) % t.capacity ≠ (n + j) % t.capacity := by
  intro heq
  have h1 : (n + j - (n + i)) % t.capacity = 0 := Nat.sub_mod_eq_zero_of_mod_eq heq.symm
  rw [show n + j - (n + i) = j - i by omega, Nat.mod_eq_of_lt (by omega)] at h1
  omega

theorem around_mod (t : RegionTable) (i : Nat) : t.around (i % t.capacity) = t.around i := by
  unfold around
  rw [Nat.mod_mod]

/-- Equal sources are in the same slot. -/
theorem slot_unique (h : t.Holds es) {i j : Nat}
    (heq : (t.around i).source = (t.around j).source) (hne : (t.around i).source ≠ 0) :
    i % t.capacity = j % t.capacity := by
  have hpos := capacity_pos h.sized
  rw [← around_mod t i, ← around_mod t j] at heq
  rw [← around_mod t i] at hne
  exact h.distinct _ (Nat.mod_lt _ hpos) _ (Nat.mod_lt _ hpos) heq hne

/-- A vacant slot is left. -/
theorem exists_vacant (h : t.Holds es) : ∃ i < t.capacity, (t.around i).source = 0 := by
  by_contra hfull
  push Not at hfull
  have hnodup : ((List.range t.capacity).map fun i => (t.around i).source).Nodup :=
    List.nodup_range.map_on fun i hi j hj heq =>
      h.distinct i (List.mem_range.1 hi) j (List.mem_range.1 hj) heq (hfull i (List.mem_range.1 hi))
  have hsub : ((List.range t.capacity).map fun i => (t.around i).source) ⊆ es.map Prod.fst := by
    intro a ha
    obtain ⟨i, hi, rfl⟩ := List.mem_map.1 ha
    exact h.source_mem (hfull i (List.mem_range.1 hi))
  have hlen := (hnodup.subperm hsub).length_le
  have hroom := h.room
  rw [List.length_map, List.length_range, List.length_map] at hlen
  omega

/-- A vacant slot is met from every slot on, before the turn is over. -/
theorem exists_next_vacant (h : t.Holds es) (n : Nat) :
    ∃ k < t.capacity, (t.around (n + k)).source = 0 ∧
      ∀ j < k, (t.around (n + j)).source ≠ 0 := by
  obtain ⟨i, hi, hvacant⟩ := h.exists_vacant
  have hpos := capacity_pos h.sized
  have hexists : ∃ k, (t.around (n + k)).source = 0 := by
    refine ⟨i + (t.capacity - n % t.capacity), ?_⟩
    have hlt := Nat.mod_lt n hpos
    have : (n + (i + (t.capacity - n % t.capacity))) % t.capacity = i % t.capacity := by
      have h1 := Nat.div_add_mod n t.capacity
      rw [show n + (i + (t.capacity - n % t.capacity))
        = i + t.capacity * (n / t.capacity + 1) by rw [Nat.mul_add]; omega,
        Nat.add_mul_mod_self_left]
    unfold around at hvacant ⊢
    rw [this]
    exact hvacant
  have hfirst := Nat.find_spec hexists
  have hmin : ∀ j < Nat.find hexists, (t.around (n + j)).source ≠ 0 := fun j hj =>
    Nat.find_min hexists hj
  refine ⟨Nat.find hexists, ?_, hfirst, hmin⟩
  by_contra hge
  have hback := hmin (Nat.find hexists - t.capacity) (by omega)
  rw [← around_add_capacity, show n + (Nat.find hexists - t.capacity) + t.capacity
    = n + Nat.find hexists by omega] at hback
  exact hback hfirst

/-! ### Looking up -/

theorem home_add_lt (h : t.Holds es) {a : Address} (ha : t.Inside a) :
    (t.home a).toNat + t.capacity < 2 ^ 64 := by
  have h1 := home_lt h.sized ha
  have h2 := h.sized.small
  omega

/-- An entry is found. -/
theorem lookup_of_mem (h : t.Holds es) {a v : Address} (hmem : (a, v) ∈ es) :
    t.lookup a = some v := by
  obtain ⟨k, hk, hslot, hpath⟩ := h.found _ hmem
  obtain ⟨hin, hne⟩ := h.inside _ hmem
  obtain ⟨index, hprobe, hindex⟩ := probe_eq h.sized (a := a) hk (h.home_add_lt hin)
    (.inl (by rw [hslot])) (by
      intro j hj
      refine ⟨?_, hpath j hj⟩
      intro heq
      -- the address is in one slot only
      exact mod_ne hj hk (h.slot_unique (by rw [heq, hslot]) (hpath j hj)))
  unfold lookup
  rw [hprobe]
  dsimp only
  rw [slot_eq_around hindex, hslot]
  exact if_neg hne

/-- Nothing else is found. -/
theorem lookup_of_notMem (h : t.Holds es) {a : Address} (hin : t.Inside a)
    (hnew : a ∉ es.map Prod.fst) : t.lookup a = none := by
  obtain ⟨k, hk, hvacant, hpath⟩ := h.exists_next_vacant (t.home a).toNat
  obtain ⟨index, hprobe, hindex⟩ := probe_eq h.sized (a := a) hk (h.home_add_lt hin)
    (.inr hvacant) (by
      intro j hj
      refine ⟨?_, hpath j hj⟩
      intro heq
      apply hnew
      rw [← heq]
      exact h.source_mem (hpath j hj))
  unfold lookup
  rw [hprobe]
  dsimp only
  rw [slot_eq_around hindex, hvacant]
  exact if_pos rfl

/-! ### Inserting -/

/-- The slots that the short cut jumps over are taken. -/
theorem insertionStart_spec (h : t.Holds es) {a : Address} (hin : t.Inside a) :
    ∃ d, (t.insertionStart a).toNat = (t.home a).toNat + d ∧
      (t.home a).toNat + d ≤ t.capacity ∧
      ∀ j < d, (t.around ((t.home a).toNat + j)).source ≠ 0 := by
  have hhome := home_lt h.sized hin
  unfold insertionStart
  split
  · rename_i hcond
    rw [Bool.and_eq_true, Bool.and_eq_true, bne_iff_ne, decide_eq_true_eq, decide_eq_true_eq,
      UInt64.lt_iff_toNat_lt, UInt64.le_iff_toNat_le] at hcond
    obtain ⟨⟨hne, hlt⟩, hle⟩ := hcond
    rcases h.last with hz | ⟨hlast, k, hk, hslot, hpath⟩
    · exact absurd hz hne
    · have hmono := home_mono h.sized hlast hin hlt.le
      have hbound : t.lastSlot.toNat < t.capacity := by
        rw [hslot]
        exact Nat.mod_lt _ (capacity_pos h.sized)
      -- the last slot does not lie beyond the end, for the home lies before it
      have hplain : t.lastSlot.toNat = (t.home t.lastAddress).toNat + k := by
        rcases Nat.lt_or_ge ((t.home t.lastAddress).toNat + k) t.capacity with hlt' | hge
        · rw [hslot, Nat.mod_eq_of_lt hlt']
        · rw [Nat.mod_eq_sub_mod hge, Nat.mod_eq_of_lt (by omega)] at hslot
          omega
      have hsucc : (t.lastSlot + 1).toNat = t.lastSlot.toNat + 1 := by
        have := h.sized.small
        rw [UInt64.toNat_add]
        show (t.lastSlot.toNat + 1) % 2 ^ 64 = _
        omega
      refine ⟨t.lastSlot.toNat + 1 - (t.home a).toNat, by omega, by omega, ?_⟩
      intro j hj
      have := hpath ((t.home a).toNat + j - (t.home t.lastAddress).toNat) (by omega)
      rwa [show (t.home t.lastAddress).toNat
        + ((t.home a).toNat + j - (t.home t.lastAddress).toNat) = (t.home a).toNat + j by omega]
        at this
  · exact ⟨0, rfl, hhome.le, by simp⟩

theorem capacity_setSlot (t : RegionTable) (index : UInt64) (entry : DenseSlot) :
    (t.setSlot index entry).capacity = t.capacity :=
  Array.size_setIfInBounds

theorem home_setSlot (t : RegionTable) (index : UInt64) (entry : DenseSlot) (b : Address) :
    (t.setSlot index entry).home b = t.home b := by
  unfold home
  rw [capacity_setSlot]
  rfl

theorem sized_setSlot (ht : t.Sized) (index : UInt64) (entry : DenseSlot) :
    (t.setSlot index entry).Sized := by
  obtain ⟨hpower, hsmall, hwords, hscale⟩ := ht
  rw [← capacity_setSlot t index entry] at hpower hsmall hscale
  exact ⟨hpower, hsmall, hwords, hscale⟩

theorem around_setSlot (t : RegionTable) {index : UInt64} (hindex : index.toNat < t.capacity)
    (entry : DenseSlot) (n : Nat) :
    (t.setSlot index entry).around n
      = if n % t.capacity = index.toNat then entry else t.around n := by
  unfold around
  rw [capacity_setSlot]
  unfold setSlot
  dsimp only
  rw [Array.getElem?_setIfInBounds]
  by_cases heq : index.toNat = n % t.capacity
  · rw [if_pos heq, if_pos heq.symm, if_pos (show index.toNat < t.slots.size from hindex)]
    rfl
  · rw [if_neg heq, if_neg fun hh => heq hh.symm]

/-- The table with another entry in a slot that was vacant. -/
def entered (t : RegionTable) (index : UInt64) (a v : Address) : RegionTable :=
  { t.setSlot index ⟨a, v⟩ with
    entries := t.entries + 1
    maxScan := max t.maxScan (((index - t.home a) &&& t.mask) + 1)
    lastAddress := if t.isInOrder a then a else t.lastAddress
    lastSlot := if t.isInOrder a then index else t.lastSlot }

theorem capacity_entered (t : RegionTable) (index : UInt64) (a v : Address) :
    (entered t index a v).capacity = t.capacity :=
  capacity_setSlot ..

theorem home_entered (t : RegionTable) (index : UInt64) (a v b : Address) :
    (entered t index a v).home b = t.home b := by
  unfold home
  rw [capacity_entered]
  rfl

theorem entered_lastAddress (t : RegionTable) (index : UInt64) (a v : Address) :
    (entered t index a v).lastAddress = if t.isInOrder a then a else t.lastAddress :=
  rfl

theorem isInOrder_iff {a : Address} :
    t.isInOrder a = true ↔ t.lastAddress = 0 ∨ t.lastAddress.toNat < a.toNat := by
  unfold isInOrder
  rw [Bool.or_eq_true, beq_iff_eq, decide_eq_true_eq, UInt64.lt_iff_toNat_lt]

theorem sized_entered (ht : t.Sized) (index : UInt64) (a v : Address) :
    (entered t index a v).Sized :=
  have hs := sized_setSlot ht index ⟨a, v⟩
  ⟨hs.power, hs.small, hs.words, hs.scale⟩

section Vacancy

variable {a : Address} {index : UInt64} {k : Nat}

theorem around_entered (hv : t.Vacancy a index k) (v : Address) (n : Nat) :
    (entered t index a v).around n
      = if n % t.capacity = index.toNat then ⟨a, v⟩ else t.around n := by
  refine around_setSlot t ?_ ⟨a, v⟩ n
  rw [hv.slot]
  exact Nat.mod_lt _ (Nat.zero_lt_of_lt hv.turn)

theorem around_entered_self (hv : t.Vacancy a index k) (v : Address) :
    (entered t index a v).around ((t.home a).toNat + k) = ⟨a, v⟩ := by
  rw [around_entered hv, if_pos hv.slot.symm]

/-- Slots that are taken stay as they are. -/
theorem around_entered_of_taken (hv : t.Vacancy a index k) (v : Address) {n : Nat}
    (hn : (t.around n).source ≠ 0) : (entered t index a v).around n = t.around n := by
  rw [around_entered hv, if_neg]
  intro heq
  rw [hv.slot] at heq
  rw [← around_mod, heq, around_mod] at hn
  exact hn hv.vacant

theorem taken_entered (hv : t.Vacancy a index k) (v : Address) {b : Address} {j : Nat}
    (hj : (t.around ((t.home b).toNat + j)).source ≠ 0) :
    ((entered t index a v).around (((entered t index a v).home b).toNat + j)).source ≠ 0 := by
  rw [home_entered, around_entered_of_taken hv v hj]
  exact hj

/-- The new address is in no other slot. -/
theorem distinct_entered (h : t.Holds es) (hv : t.Vacancy a index k) (hne : a ≠ 0)
    (hnew : a ∉ es.map Prod.fst) (v : Address) {i j : Nat} (hi : i < t.capacity)
    (hj : j < t.capacity)
    (heq : ((entered t index a v).around i).source = ((entered t index a v).around j).source)
    (htaken : ((entered t index a v).around i).source ≠ 0) : i = j := by
  rw [around_entered hv, around_entered hv, Nat.mod_eq_of_lt hi, Nat.mod_eq_of_lt hj] at heq
  rw [around_entered hv, Nat.mod_eq_of_lt hi] at htaken
  by_cases hii : i = index.toNat <;> by_cases hjj : j = index.toNat
  · rw [hii, hjj]
  · rw [if_pos hii, if_neg hjj] at heq
    change a = _ at heq
    refine absurd ?_ hnew
    rw [heq]
    exact h.source_mem (by rw [← heq]; exact hne)
  · rw [if_neg hii, if_pos hjj] at heq
    rw [if_neg hii] at htaken
    change _ = a at heq
    refine absurd ?_ hnew
    rw [← heq]
    exact h.source_mem htaken
  · rw [if_neg hii, if_neg hjj] at heq
    rw [if_neg hii] at htaken
    exact h.distinct i hi j hj heq htaken

/-- The last address in order goes up with the entries. -/
theorem le_lastAddress_entered (h : t.Holds es) (index : UInt64) (v : Address)
    {e : Address × Address} (he : e ∈ es ++ [(a, v)]) :
    e.1.toNat ≤ (entered t index a v).lastAddress.toNat := by
  rw [entered_lastAddress]
  rcases List.mem_append.1 he with he | he
  · have hle := h.greatest e he
    split
    · rename_i horder
      rcases isInOrder_iff.1 horder with hz | hlt
      · rw [hz] at hle
        exact hle.trans (Nat.zero_le _)
      · omega
    · exact hle
  · obtain rfl := List.mem_singleton.1 he
    split
    · exact le_refl _
    · rename_i horder
      exact Nat.not_lt.1 fun hlt => horder (isInOrder_iff.2 (.inr hlt))

/-- A vacant slot `k` after the home of an address, no slot between them being vacant, takes
the entry of the address. -/
theorem entered_holds (h : t.Holds es) (hv : t.Vacancy a index k) (hin : t.Inside a) (hne : a ≠ 0)
    (hnew : a ∉ es.map Prod.fst) (hroom : es.length < t.expected) (v : Address) :
    (entered t index a v).Holds (es ++ [(a, v)]) := by
  refine ⟨sized_entered h.sized index a v, ?_, ⟨?_, ?_⟩, ?_, ?_, ?_, ?_,
    fun e he => le_lastAddress_entered h index v he, ?_⟩
  · show t.entries + 1 = _
    rw [h.count, List.length_append]
    rfl
  · rw [List.length_append]
    exact hroom
  · rw [capacity_entered]
    exact h.room.2
  · intro e he
    rcases List.mem_append.1 he with he | he
    · exact h.inside e he
    · obtain rfl := List.mem_singleton.1 he
      exact ⟨hin, hne⟩
  · intro n
    rw [around_entered hv]
    split
    · exact .inr (by simp)
    · exact (h.only n).imp_right (List.mem_append_left _)
  · intro i hi j hj
    rw [capacity_entered] at hi hj
    exact distinct_entered h hv hne hnew v hi hj
  · intro e he
    rw [capacity_entered]
    rcases List.mem_append.1 he with he | he
    · obtain ⟨i, hi, hat, hpath⟩ := h.found e he
      refine ⟨i, hi, ?_, fun j hj => taken_entered hv v (hpath j hj)⟩
      rw [home_entered, around_entered_of_taken hv v (by rw [hat]; exact (h.inside e he).2), hat]
    · obtain rfl := List.mem_singleton.1 he
      refine ⟨k, hv.turn, ?_, fun j hj => taken_entered hv v (hv.taken j hj)⟩
      rw [home_entered]
      exact around_entered_self hv v
  · rw [capacity_entered]
    by_cases horder : t.isInOrder a = true
    · have hlast : (entered t index a v).lastAddress = a := if_pos horder
      have hslot : (entered t index a v).lastSlot = index := if_pos horder
      rw [hlast, hslot]
      refine .inr ⟨hin, k, hv.turn, ?_, ?_⟩
      · rw [home_entered]
        exact hv.slot
      · intro j hj
        rcases Nat.eq_or_lt_of_le hj with rfl | hlt
        · rw [home_entered, around_entered_self hv]
          exact hne
        · exact taken_entered hv v (hv.taken j hlt)
    · have hlast : (entered t index a v).lastAddress = t.lastAddress := if_neg horder
      have hslot : (entered t index a v).lastSlot = t.lastSlot := if_neg horder
      rw [hlast, hslot]
      rcases h.last with hz | ⟨hinside, i, hi, hat, hpath⟩
      · exact .inl hz
      · refine .inr ⟨hinside, i, hi, ?_, fun j hj => taken_entered hv v (hpath j hj)⟩
        rw [home_entered]
        exact hat

end Vacancy

/-- The search for an address without an entry ends at a vacant slot. -/
theorem probe_of_notMem (h : t.Holds es) {a : Address} (hin : t.Inside a)
    (hnew : a ∉ es.map Prod.fst) :
    ∃ index k, t.probe a t.capacity (t.insertionStart a) = some index ∧
      t.Vacancy a index k := by
  obtain ⟨d, hstart, hend, hskip⟩ := h.insertionStart_spec hin
  obtain ⟨k, hk, hvacant, hpath⟩ := h.exists_next_vacant ((t.home a).toNat + d)
  -- from the home of the address on every slot up to the vacant one is taken
  have htaken : ∀ j < d + k, (t.around ((t.home a).toNat + j)).source ≠ 0 := by
    intro j hj
    rcases Nat.lt_or_ge j d with hlt | hge
    · exact hskip j hlt
    · have := hpath (j - d) (by omega)
      rwa [show (t.home a).toNat + d + (j - d) = (t.home a).toNat + j by omega] at this
  have hturn : d + k < t.capacity := by
    by_contra hge
    have := htaken (d + k - t.capacity) (by have := capacity_pos h.sized; omega)
    rw [← around_add_capacity, show (t.home a).toNat + (d + k - t.capacity) + t.capacity
      = (t.home a).toNat + d + k by omega] at this
    exact this hvacant
  have hsmall := h.sized.small
  obtain ⟨index, hprobe, hindex⟩ := probe_eq h.sized (a := a) hk
    (i := t.insertionStart a) (by omega) (by rw [hstart]; exact .inr hvacant) (by
      rw [hstart]
      intro j hj
      refine ⟨?_, hpath j hj⟩
      intro heq
      apply hnew
      rw [← heq]
      exact h.source_mem (hpath j hj))
  rw [hstart, Nat.add_assoc] at hindex
  rw [Nat.add_assoc] at hvacant
  exact ⟨index, d + k, hprobe, hturn, hindex, hvacant, htaken⟩

/-- One more entry. -/
theorem insert (h : t.Holds es) {a : Address} (hin : t.Inside a) (hne : a ≠ 0)
    (hnew : a ∉ es.map Prod.fst) (hroom : es.length < t.expected) (v : Address) :
    ∃ t', t.insert a v = .ok t' ∧ t'.Holds (es ++ [(a, v)]) ∧ t'.bottom = t.bottom ∧
      t'.regionWords = t.regionWords ∧ t'.expected = t.expected := by
  obtain ⟨index, k, hprobe, hv⟩ := h.probe_of_notMem hin hnew
  refine ⟨entered t index a v, ?_, entered_holds h hv hin hne hnew hroom v, rfl, rfl, rfl⟩
  unfold RegionTable.insert insertFrom
  rw [hprobe]
  dsimp only
  rw [slot_eq_around hv.slot, if_neg (by rw [hv.vacant]; exact fun hh => hne hh.symm),
    if_pos (by rw [h.count]; exact hroom)]
  rfl

end Holds

end RegionTable

/-! ### All regions -/

/-- Those of some new addresses that objects of one region have. -/
def movesOf (l : Layout) (moves : List (Address × Address)) (region : Nat) :
    List (Address × Address) :=
  moves.filter fun e => l.indexOf e.1 == region

theorem mem_movesOf {l : Layout} {moves : List (Address × Address)} {region : Nat}
    {e : Address × Address} :
    e ∈ movesOf l moves region ↔ e ∈ moves ∧ l.indexOf e.1 = region := by
  unfold movesOf
  rw [List.mem_filter, beq_iff_eq]

theorem movesOf_snoc (l : Layout) (moves : List (Address × Address)) (a v : Address)
    (region : Nat) :
    movesOf l (moves ++ [(a, v)]) region
      = movesOf l moves region ++ if l.indexOf a = region then [(a, v)] else [] := by
  unfold movesOf
  rw [List.filter_append]
  congr 1
  by_cases h : l.indexOf a = region
  · simp [h]
  · simp [h]

namespace Dense

/-- The tables hold the given new addresses; `expected` says for how many objects of a region
a table has been made, if one has been made. -/
structure Holds (d : Dense) (l : Layout) (expected : Nat → Option Nat)
    (moves : List (Address × Address)) : Prop where
  layout : d.layout = l
  small : ∀ n < 2 ^ 24, RegionTable.capacityFor n d.loadFactor ≤ 2 ^ 28
  count : d.tables.size = l.numRegions
  absent : ∀ r, expected r = none → d.table r = none
  present : ∀ r < l.numRegions, ∀ n, expected r = some n → ∃ t, d.table r = some t ∧
    t.bottom = l.bottom r ∧ t.regionWords = l.regionWords ∧ t.expected = n ∧
    t.Holds (movesOf l moves r)
  /-- Only objects of regions with a table have been given new addresses. -/
  known : ∀ e ∈ moves, l.IsWord e.1 ∧ (expected (l.indexOf e.1)).isSome

variable {d : Dense} {l : Layout} {expected : Nat → Option Nat}
  {moves : List (Address × Address)}

theorem holds_new (l : Layout) {lf : Float}
    (hsmall : ∀ n < 2 ^ 24, RegionTable.capacityFor n lf ≤ 2 ^ 28) :
    (new l lf).Holds l (fun _ => none) [] := by
  refine ⟨rfl, hsmall, Array.size_replicate, ?_, by simp, by simp⟩
  intro r _
  unfold table new
  dsimp only
  rw [Array.getElem?_replicate]
  split <;> rfl

namespace Holds

theorem table_set (h : d.Holds l expected moves) {r : Nat} (hr : r < l.numRegions)
    (t : RegionTable) (j : Nat) :
    ({ d with tables := d.tables.setIfInBounds r (some t) } : Dense).table j
      = if r = j then some t else d.table j := by
  unfold table
  dsimp only
  rw [Array.getElem?_setIfInBounds]
  by_cases hj : r = j
  · subst hj
    rw [if_pos rfl, if_pos rfl, if_pos (by rw [h.count]; exact hr)]
    rfl
  · rw [if_neg hj, if_neg hj]

/-- A word of a region is inside its table. -/
theorem inside (hl : l.Sound) {t : RegionTable} {a : Address} (ha : l.IsWord a)
    (hb : t.bottom = l.bottom (l.indexOf a)) (hw : t.regionWords = l.regionWords) :
    t.Inside a := by
  have hin := hl.bottom_indexOf ((hl.contains_iff a).2 ⟨ha.bottom, ha.stop⟩)
  have hwords := hl.toNat_regionWords
  unfold RegionTable.Inside
  rw [hb, hw]
  omega

/-- The table of a region without one. -/
theorem beginRegion (h : d.Holds l expected moves) (hl : l.Sound) {r n : Nat}
    (hr : r < l.numRegions) (hnone : expected r = none)
    (hn : RegionTable.capacityFor n d.loadFactor ≤ 2 ^ 36) :
    ∃ d', d.beginRegion r n = .ok d' ∧
      d'.Holds l (Function.update expected r (some n)) moves := by
  have hwords := hl.toNat_regionWords
  have hge := hl.stride_ge
  have hle := hl.stride_le
  refine ⟨{ d with
    tables := d.tables.setIfInBounds r (some (.new (l.bottom r) l.regionWords n d.loadFactor)) },
    ?_, h.layout, h.small, ?_, ?_, ?_, ?_⟩
  · unfold Dense.beginRegion
    rw [h.absent r hnone, h.layout]
  · rw [Array.size_setIfInBounds]
    exact h.count
  · intro j hj
    have hne : r ≠ j := by
      rintro rfl
      rw [Function.update_self] at hj
      cases hj
    rw [Function.update_of_ne hne.symm] at hj
    rw [h.table_set hr, if_neg hne]
    exact h.absent j hj
  · intro j hj k hk
    by_cases hjr : r = j
    · subst hjr
      rw [Function.update_self, Option.some.injEq] at hk
      subst hk
      refine ⟨_, by rw [h.table_set hr, if_pos rfl], rfl, rfl, rfl, ?_⟩
      -- objects of the region have no new addresses yet
      have hnil : movesOf l moves r = [] := by
        rw [List.eq_nil_iff_forall_not_mem]
        intro e he
        obtain ⟨hmem, heq⟩ := mem_movesOf.1 he
        have := (h.known e hmem).2
        rw [heq, hnone] at this
        cases this
      rw [hnil]
      exact RegionTable.holds_new (by omega) (by omega)
        ((Nat.mul_le_mul (show _ ≤ 2 ^ 23 by omega) hn).trans (by decide))
    · rw [Function.update_of_ne fun hh => hjr hh.symm] at hk
      rw [h.table_set hr, if_neg hjr]
      exact h.present j hj k hk
  · intro e he
    obtain ⟨h1, h2⟩ := h.known e he
    refine ⟨h1, ?_⟩
    by_cases hjr : l.indexOf e.1 = r
    · rw [hjr, Function.update_self]
      rfl
    · rw [Function.update_of_ne hjr]
      exact h2

/-- A new address is found. -/
theorem forwardee_of_mem (h : d.Holds l expected moves) (hl : l.Sound) {a v : Address}
    (hmem : (a, v) ∈ moves) : d.forwardee a = some v := by
  obtain ⟨hword, hsome⟩ := h.known _ hmem
  obtain ⟨n, hn⟩ := Option.isSome_iff_exists.1 hsome
  obtain ⟨t, ht, -, -, -, hholds⟩ := h.present (l.indexOf a)
    (hl.indexOf_lt ((hl.contains_iff a).2 ⟨hword.bottom, hword.stop⟩)) n hn
  unfold forwardee
  rw [h.layout, ht]
  exact hholds.lookup_of_mem (mem_movesOf.2 ⟨hmem, rfl⟩)

/-- No other object has one. -/
theorem forwardee_of_notMem (h : d.Holds l expected moves) (hl : l.Sound) {a : Address}
    (hword : l.IsWord a) (hnew : a ∉ moves.map Prod.fst) : d.forwardee a = none := by
  unfold forwardee
  rw [h.layout]
  cases hn : expected (l.indexOf a) with
  | none =>
    rw [h.absent _ hn]
    rfl
  | some n =>
    obtain ⟨t, ht, hb, hw, -, hholds⟩ := h.present (l.indexOf a)
      (hl.indexOf_lt ((hl.contains_iff a).2 ⟨hword.bottom, hword.stop⟩)) n hn
    rw [ht]
    refine hholds.lookup_of_notMem (inside hl hword hb hw) ?_
    intro hmem
    obtain ⟨e, he, rfl⟩ := List.mem_map.1 hmem
    exact hnew (List.mem_map_of_mem (mem_movesOf.1 he).1)

/-- One more new address, as long as fewer have been given than announced. -/
theorem forwardTo (h : d.Holds l expected moves) (hl : l.Sound) {a : Address}
    (hword : l.IsWord a) (hnew : a ∉ moves.map Prod.fst) {n : Nat}
    (hn : expected (l.indexOf a) = some n) (hroom : (movesOf l moves (l.indexOf a)).length < n)
    (v : Address) :
    ∃ d', d.forwardTo a v = .ok d' ∧ d'.Holds l expected (moves ++ [(a, v)]) := by
  have hr := hl.indexOf_lt ((hl.contains_iff a).2 ⟨hword.bottom, hword.stop⟩)
  obtain ⟨t, ht, hb, hw, he, hholds⟩ := h.present (l.indexOf a) hr n hn
  have hne : a ≠ 0 := by
    rintro rfl
    have h1 := hword.bottom
    have h2 := hl.nonzero
    have h3 : (0 : Address).toNat = 0 := rfl
    omega
  obtain ⟨t', hrun, hholds', hb', hw', he'⟩ := hholds.insert (inside hl hword hb hw) hne (by
    intro hmem
    obtain ⟨e, he, rfl⟩ := List.mem_map.1 hmem
    exact hnew (List.mem_map_of_mem (mem_movesOf.1 he).1)) (by rw [he]; exact hroom) v
  refine ⟨{ d with tables := d.tables.setIfInBounds (l.indexOf a) (some t') }, ?_, h.layout,
    h.small, ?_, ?_, ?_, ?_⟩
  · unfold Dense.forwardTo
    rw [h.layout]
    dsimp only
    rw [ht]
    exact bind_eq_ok hrun rfl
  · rw [Array.size_setIfInBounds]
    exact h.count
  · intro j hj
    have hja : l.indexOf a ≠ j := by
      rintro rfl
      rw [hn] at hj
      cases hj
    rw [h.table_set hr, if_neg hja]
    exact h.absent j hj
  · intro j hj k hk
    rw [h.table_set hr, movesOf_snoc]
    by_cases hja : l.indexOf a = j
    · subst hja
      rw [hn, Option.some.injEq] at hk
      rw [if_pos rfl, if_pos rfl]
      exact ⟨t', rfl, hb'.trans hb, hw'.trans hw, (he'.trans he).trans hk, hholds'⟩
    · rw [if_neg hja, if_neg hja, List.append_nil]
      exact h.present j hj k hk
  · intro e he
    rcases List.mem_append.1 he with he | he
    · exact h.known e he
    · obtain rfl := List.mem_singleton.1 he
      exact ⟨hword, by rw [hn]; rfl⟩

end Holds

end Dense

end MarkCompact
