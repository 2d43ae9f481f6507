/-
MarkCompact/Proofs/SpaceUse.lean

Which spaces a serial collection uses.

The regions of the part are filled in their order, and a space is left only for a block that
does not fit in it any more.  So the spaces that are used are the first ones
(`Assigned.used_before`), and the objects that open two of them lie in different regions: all
that lies in one region fits in a space and the rest of the one before
(`Assigned.indexOf_lt_of_opens`).

Main result: `Assigned.indexOf_first_lt` (the objects that open used spaces lie in different
regions).
-/
import MarkCompact.Proofs.SerialFinish

namespace MarkCompact

/-! ### Words of berths -/

theorem sum_filter_or {α : Type} (words : α → Nat) {p q : α → Bool} (l : List α)
    (hpq : ∀ x ∈ l, p x = true → q x = false) :
    ((l.filter fun x => p x || q x).map words).sum
      = ((l.filter p).map words).sum + ((l.filter q).map words).sum := by
  induction l with
  | nil => rfl
  | cons x l ih =>
    have hrest := ih fun y hy => hpq y (List.mem_cons_of_mem _ hy)
    have hx := hpq x List.mem_cons_self
    cases hp : p x with
    | true => simp [hp, hx hp, hrest, Nat.add_assoc]
    | false => cases hq : q x <;> simp [hp, hq, hrest, Nat.add_left_comm]

/-- Objects of one block lie in one region. -/
theorem BlockOffsets.Serves.indexOf_congr {table : BlockOffsets} {l : Layout} (hv : table.Serves l)
    (hl : l.Sound) {a c : Address} (ha : l.IsWord a) (hc : l.IsWord c)
    (heq : table.blockOf a = table.blockOf c) : l.indexOf a = l.indexOf c := by
  obtain ⟨m, hm⟩ := hv.divides
  obtain ⟨h1, h2⟩ := hl.bottom_indexOf ((hl.contains_iff a).2 ⟨ha.bottom, ha.stop⟩)
  have hin := hl.indexOf_lt ((hl.contains_iff a).2 ⟨ha.bottom, ha.stop⟩)
  rw [hv.blockOf_eq ha.bottom, hv.blockOf_eq hc.bottom] at heq
  -- the quotients by the block size agree, and so do those by the region size
  have hquot : (a.toNat - l.base.toNat) / l.stride = (c.toNat - l.base.toNat) / l.stride := by
    rw [hm, ← Nat.div_div_eq_div_mul, ← Nat.div_div_eq_div_mul, heq]
  have hpos := l.stride_pos
  have hbottom := hl.toNat_bottom hin.le
  have hdiv : (a.toNat - l.base.toNat) / l.stride = l.indexOf a :=
    Nat.div_eq_of_lt_le (by omega) (by rw [Nat.succ_mul]; omega)
  have h3 := Nat.div_mul_le_self (c.toNat - l.base.toNat) l.stride
  have h4 := Nat.lt_div_mul_add hpos (a := c.toNat - l.base.toNat)
  have hbase := hc.bottom
  rw [← hquot, hdiv] at h3 h4
  exact (hl.indexOf_eq hin (by omega) (by omega)).symm

/-- Objects that begin within the size of a block from the bottom of a region begin in one block. -/
theorem BlockOffsets.Serves.blockOf_bottom {table : BlockOffsets} {l : Layout}
    (hv : table.Serves l) (hl : l.Sound) {i : Nat} (hi : i < l.numRegions) {a : Address}
    (h1 : (l.bottom i).toNat ≤ a.toNat) (h2 : a.toNat < (l.bottom i).toNat + table.blockSize) :
    table.blockOf a = table.blockOf (l.bottom i) ∧ l.indexOf a = i := by
  have hbase := hl.base_le_bottom hi.le
  have hbottom := hl.toNat_bottom hi.le
  have hpos := table.blockSize_pos
  have hle := Nat.le_of_dvd l.stride_pos hv.divides
  obtain ⟨m, hm⟩ := hv.divides
  refine ⟨?_, hl.indexOf_eq hi h1 (by omega)⟩
  rw [hv.blockOf_eq (hbase.trans h1), hv.blockOf_eq hbase]
  have hfirst : (l.bottom i).toNat - l.base.toNat = i * m * table.blockSize := by
    rw [hbottom, Nat.add_sub_cancel_left, hm]
    ring
  have hmul : (i * m + 1) * table.blockSize = i * m * table.blockSize + table.blockSize := Nat.succ_mul ..
  have hblock : ∀ n, i * m * table.blockSize ≤ n → n < i * m * table.blockSize + table.blockSize →
      n / table.blockSize = i * m := fun n h3 h4 => Nat.div_eq_of_lt_le h3 (by omega)
  rw [hblock _ (by omega) (by omega), hblock _ (by omega) (by omega)]

namespace SerialCycle.Assigned

variable {h : Heap} {t : ClassTable} {b : Bitmap} {live : Address → Prop} {part : List Nat}
  {table : BlockOffsets} {spaces : Array Space} {bs : List Berth}

/-! ### The order of the berths -/

theorem pairwise (ha : Assigned h t b live part table spaces bs) (hs : Surveyed h t b live) :
    bs.Pairwise fun p q => p.object.toNat + 8 * p.words ≤ q.object.toNat ∧
      p.target.toNat < q.target.toNat := by
  obtain ⟨n, hasc⟩ := ha.ascending
  refine (hasc.objects.and hasc.targets).imp_of_mem ?_
  rintro p q hp hq ⟨h1, h2⟩
  have hpos := hs.wordsAt_pos ((ha.seen p.object).1 (List.mem_map_of_mem hp)).1
  have hwords := ha.size p hp
  unfold Berth.stop at h2
  rw [hwords] at h2 ⊢
  exact ⟨h1, by omega⟩

/-- Berths ascend by their objects and by their targets. -/
theorem object_lt_iff (ha : Assigned h t b live part table spaces bs) (hs : Surveyed h t b live)
    {p q : Berth} (hp : p ∈ bs) (hq : q ∈ bs) :
    p.object.toNat < q.object.toNat ↔ p.target.toNat < q.target.toNat := by
  have hasc := ha.pairwise hs
  have hpos : ∀ p ∈ bs, 0 < p.words := fun p hp => by
    rw [ha.size p hp]
    exact hs.wordsAt_pos ((ha.seen p.object).1 (List.mem_map_of_mem hp)).1
  obtain ⟨i, hi, rfl⟩ := List.getElem_of_mem hp
  obtain ⟨j, hj, rfl⟩ := List.getElem_of_mem hq
  rcases Nat.lt_trichotomy i j with hlt | rfl | hlt
  · have := List.pairwise_iff_getElem.1 hasc i j hi hj hlt
    have := hpos _ hp
    omega
  · omega
  · have := List.pairwise_iff_getElem.1 hasc j i hj hi hlt
    have := hpos _ hq
    omega

/-- A berth lies in the region of its space. -/
theorem berth_mem (ha : Assigned h t b live part table spaces bs) {p : Berth} (hp : p ∈ bs) {i : Nat}
    {s : Space} (hi : part[p.space]? = some i) (hspace : spaces[p.space]? = some s) :
    (h.layout.bottom i).toNat ≤ p.target.toNat ∧ p.stop ≤ s.top.toNat :=
  (ha.tiled _ i s hi hspace).mem (List.mem_map_of_mem (List.mem_filter.2 ⟨hp, beq_self_eq_true _⟩))

/-- Berths in a later space come later. -/
theorem target_lt_of_space_lt (ha : Assigned h t b live part table spaces bs)
    (hs : Surveyed h t b live) (hpart : h.Part part) {p q : Berth} (hp : p ∈ bs) (hq : q ∈ bs)
    (hlt : p.space < q.space) : p.target.toNat < q.target.toNat := by
  have hl := hs.tabled.layout
  have hget : ∀ r ∈ bs, ∃ i s, part[r.space]? = some i ∧ spaces[r.space]? = some s := fun r hr => by
    have hr' := ha.space r hr
    exact ⟨_, _, List.getElem?_eq_getElem hr', Array.getElem?_eq_getElem (by rw [ha.count]; exact hr')⟩
  obtain ⟨i, s, hi, hspace⟩ := hget p hp
  obtain ⟨j, s', hj, hspace'⟩ := hget q hq
  have hij := pairwise_lt_getElem? hpart.ascending hi hj hlt
  have hjin : j < h.layout.numRegions := by
    rw [← hs.tabled.count]
    exact hpart.inside j (List.mem_of_getElem? hj)
  have h1 := (ha.berth_mem hp hi hspace).2
  have h2 := (ha.berth_mem hq hj hspace').1
  have h3 := (ha.extent _ i s hi hspace).2.2.1
  have h4 := hl.regionStop_le_bottom hij hjin.le
  have hpos := hs.wordsAt_pos ((ha.seen p.object).1 (List.mem_map_of_mem hp)).1
  have hwords := ha.size p hp
  rw [hl.toNat_regionStop (hij.trans hjin)] at h3
  unfold Berth.stop at h1
  omega

/-! ### Used spaces -/

/-- What lies in one region is no more than a region. -/
theorem packed (ha : Assigned h t b live part table spaces bs) (hs : Surveyed h t b live)
    (hpart : h.Part part) {f : Berth → Bool} {i : Nat}
    (hin : ∀ r ∈ bs.filter f, r ∈ bs ∧ h.layout.indexOf r.object = i) :
    8 * ((bs.filter f).map Berth.words).sum ≤ h.layout.stride := by
  have hl := hs.tabled.layout
  cases hlist : bs.filter f with
  | nil => exact Nat.zero_le _
  | cons r₀ rest =>
    rw [← hlist]
    obtain ⟨hr₀, hi⟩ := hin r₀ (hlist ▸ List.mem_cons_self)
    have hlive : ∀ r ∈ bs, live r.object ∧ h.layout.indexOf r.object ∈ part := fun r hr =>
      (ha.seen r.object).1 (List.mem_map_of_mem hr)
    have hregion := (hs.region (hlive r₀ hr₀).1).1
    have hkind := hpart.regular _ (hlive r₀ hr₀).2
    rw [hi] at hregion hkind
    have hiin : i < h.layout.numRegions := by rwa [← hs.tabled.count]
    have hwords : ((bs.filter f).map Berth.object).map (h.wordsAt t)
        = (bs.filter f).map Berth.words := by
      rw [List.map_map]
      exact List.map_congr_left fun r hr => (ha.size r (hin r hr).1).symm
    have hfits : (h.layout.bottom i).toNat
        + 8 * (((bs.filter f).map Berth.object).map (h.wordsAt t)).sum
          ≤ (h.layout.regionStop i).toNat := by
      refine Berth.packed_le ?_ (by rw [hl.toNat_regionStop hiin]; omega) ?_
      · refine List.pairwise_map.2 (((ha.pairwise hs).filter _).imp_of_mem ?_)
        rintro r r' hr - ⟨hle, -⟩
        rwa [← ha.size r (hin r hr).1]
      · intro a hmem
        obtain ⟨r, hr, rfl⟩ := List.mem_map.1 hmem
        obtain ⟨hrbs, hreq⟩ := hin r hr
        have h1 := (hs.region (hlive r hrbs).1).2.1
        have h2 := hs.end_le_top (hlive r hrbs).1 (by rw [hreq]; exact hkind)
        have h3 := (hs.tabled.top _ hregion).2.1
        rw [hreq, hs.tabled.bottom _ hregion] at h1
        rw [hreq] at h2
        rw [hs.tabled.stop _ hregion] at h3
        exact ⟨h1, h2.trans h3⟩
    rw [hwords, hl.toNat_regionStop hiin] at hfits
    omega

/-- The objects that go to one space and those of a block that goes to the next one do not all
lie in the same region. -/
theorem indexOf_lt_of_opens (ha : Assigned h t b live part table spaces bs)
    (hs : Surveyed h t b live) (hpart : h.Part part) {j i : Nat} {s s' : Space}
    (hi : part[j]? = some i) (hspace : spaces[j]? = some s)
    {p q : Berth} (hp : p ∈ bs) (hpj : p.space = j) (hfirst : p.target = h.layout.bottom i)
    (hq : table.Opens bs s s' (j + 1) q) : h.layout.indexOf p.object < h.layout.indexOf q.object := by
  have hl := hs.tabled.layout
  have hlive : ∀ r ∈ bs, live r.object ∧ h.layout.indexOf r.object ∈ part := fun r hr =>
    (ha.seen r.object).1 (List.mem_map_of_mem hr)
  have hiff := fun {r r' : Berth} (hr : r ∈ bs) (hr' : r' ∈ bs) => ha.object_lt_iff hs hr hr'
  have hpq : p.object.toNat < q.object.toNat := (hiff hp hq.mem).2
    (ha.target_lt_of_space_lt hs hpart hp hq.mem (by rw [hpj, hq.space]; omega))
  -- the regions of objects ascend with the objects
  have hmono : ∀ r ∈ bs, ∀ r' ∈ bs, r.object.toNat ≤ r'.object.toNat →
      h.layout.indexOf r.object ≤ h.layout.indexOf r'.object := by
    intro r hr r' hr' hle
    by_contra hgt
    have := hs.indexOf_lt_indexOf (hlive r' hr').1 (hlive r hr).1 (Nat.not_le.1 hgt)
    omega
  refine lt_of_le_of_ne (hmono p hp q hq.mem hpq.le) fun heq => ?_
  -- otherwise what goes to the space, and the block, would fit in one region
  let both := bs.filter fun r => r.space == j || table.blockOf r.object == table.blockOf q.object
  have hbothmem : ∀ r ∈ both, r ∈ bs ∧ h.layout.indexOf r.object = h.layout.indexOf q.object := by
    intro r hr
    obtain ⟨hr, hor⟩ := List.mem_filter.1 hr
    refine ⟨hr, ?_⟩
    rw [Bool.or_eq_true, beq_iff_eq, beq_iff_eq] at hor
    rcases hor with hrj | hrk
    · have h1 : p.object.toNat ≤ r.object.toNat := by
        by_contra hlt
        have h2 := (hiff hr hp).1 (Nat.not_le.1 hlt)
        have h3 := (ha.berth_mem hr (by rw [hrj]; exact hi) (by rw [hrj]; exact hspace)).1
        rw [hfirst] at h2
        omega
      have h2 := (hiff hr hq.mem).2
        (ha.target_lt_of_space_lt hs hpart hr hq.mem (by rw [hrj, hq.space]; omega))
      have h3 := hmono p hp r hr h1
      have h4 := hmono r hr q hq.mem h2.le
      omega
    · exact ha.serves.indexOf_congr hl (hs.isWord (hlive r hr).1) (hs.isWord (hlive q hq.mem).1) hrk
  have hfits : 8 * (both.map Berth.words).sum ≤ _ := ha.packed hs hpart hbothmem
  have hsum : (both.map Berth.words).sum = ((bs.filter fun r => r.space == j).map Berth.words).sum
      + table.groupWords bs (table.blockOf q.object) := by
    refine sum_filter_or Berth.words bs fun r hr hrj => ?_
    rw [beq_iff_eq] at hrj
    by_contra hrk
    rw [Bool.not_eq_false, beq_iff_eq] at hrk
    have := ha.together r hr q hq.mem hrk
    rw [hq.space] at this
    omega
  -- but then there would have been room for the block
  have htiles := (ha.tiled j i s hi hspace).stop_eq
  rw [List.map_map] at htiles
  change _ = _ + 8 * ((bs.filter fun r => r.space == j).map Berth.words).sum at htiles
  have hfull := hq.full
  have hiin : i < h.layout.numRegions := by
    rw [← hs.tabled.count]
    exact hpart.inside i (List.mem_of_getElem? hi)
  rw [ha.stop j i s hi hspace, hl.toNat_regionStop hiin] at hfull
  omega

/-- The space before one that is used is used. -/
theorem used_before (ha : Assigned h t b live part table spaces bs) (hs : Surveyed h t b live)
    (hpart : h.Part part) {j : Nat} {s s' : Space} (hspace : spaces[j]? = some s)
    (hspace' : spaces[j + 1]? = some s') (hused : s'.top ≠ s'.bottom) : s.top ≠ s.bottom := by
  intro hempty
  have hl := hs.tabled.layout
  obtain ⟨q, hq⟩ := ha.tight j s s' hspace hspace' hused
  have hlive : ∀ r ∈ bs, live r.object := fun r hr =>
    ((ha.seen r.object).1 (List.mem_map_of_mem hr)).1
  -- the objects of a block fit in an empty space
  have hfits := ha.packed hs hpart (f := fun r => table.blockOf r.object == table.blockOf q.object)
    (i := h.layout.indexOf q.object) fun r hr => by
      obtain ⟨hr, heq⟩ := List.mem_filter.1 hr
      rw [beq_iff_eq] at heq
      exact ⟨hr, ha.serves.indexOf_congr hl (hs.isWord (hlive r hr)) (hs.isWord (hlive q hq.mem)) heq⟩
  have hj : j < part.length := by
    rw [← ha.count]
    exact (Array.getElem?_eq_some_iff.1 hspace).1
  have hget := List.getElem?_eq_getElem hj
  have hin : part[j] < h.layout.numRegions := by
    rw [← hs.tabled.count]
    exact hpart.inside _ (List.getElem_mem _)
  have hfull := hq.full
  unfold BlockOffsets.groupWords at hfull
  rw [hempty, (ha.extent j _ s hget hspace).1, ha.stop j _ s hget hspace, hl.toNat_regionStop hin]
    at hfull
  omega

/-- A used space is opened by an object at its bottom. -/
theorem exists_first (ha : Assigned h t b live part table spaces bs) {j i : Nat} {s : Space}
    (hi : part[j]? = some i) (hspace : spaces[j]? = some s) (hused : s.top ≠ s.bottom) :
    ∃ p ∈ bs, p.space = j ∧ p.target = h.layout.bottom i := by
  have htiles := ha.tiled j i s hi hspace
  cases hlist : bs.filter fun p => p.space == j with
  | nil =>
    rw [hlist] at htiles
    rw [(ha.extent j i s hi hspace).1] at hused
    exact absurd (UInt64.toNat_inj.1 htiles).symm hused
  | cons p rest =>
    rw [hlist] at htiles
    obtain ⟨hmem, hj⟩ := List.mem_filter.1 (hlist ▸ List.mem_cons_self : p ∈ bs.filter _)
    exact ⟨p, hmem, eq_of_beq hj, UInt64.toNat_inj.1 htiles.1⟩

/-- The objects that open two used spaces lie in different regions. -/
theorem indexOf_first_lt (ha : Assigned h t b live part table spaces bs) (hs : Surveyed h t b live)
    (hpart : h.Part part) {j j' i i' : Nat} {s' : Space} (hlt : j < j') (hi : part[j]? = some i)
    (hi' : part[j']? = some i') (hspace' : spaces[j']? = some s') (hused : s'.top ≠ s'.bottom)
    {p p' : Berth} (hp : p ∈ bs) (hp' : p' ∈ bs) (hpj : p.space = j) (hpj' : p'.space = j')
    (hfirst : p.target = h.layout.bottom i) :
    h.layout.indexOf p.object < h.layout.indexOf p'.object := by
  have hlen : j' < spaces.size := (Array.getElem?_eq_some_iff.1 hspace').1
  have hget : ∀ k ≤ j', ∃ s, spaces[k]? = some s := fun k hk =>
    ⟨_, Array.getElem?_eq_getElem (by omega)⟩
  -- all spaces before are used, in particular the one after number `j`
  have hall : ∀ n, n ≤ j' → ∀ s, spaces[j' - n]? = some s → s.top ≠ s.bottom := by
    intro n
    induction n with
    | zero =>
      intro _ s hs'
      rw [Nat.sub_zero, hspace'] at hs'
      rwa [← Option.some.inj hs']
    | succ n ih =>
      intro hn s hs'
      obtain ⟨s₁, hs₁⟩ := hget (j' - n) (by omega)
      rw [show j' - n = j' - (n + 1) + 1 by omega] at hs₁ ih
      exact ha.used_before hs hpart hs' hs₁ (ih (by omega) s₁ hs₁)
  obtain ⟨s, hspace⟩ := hget j hlt.le
  obtain ⟨s₁, hs₁⟩ := hget (j + 1) hlt
  obtain ⟨q, hq⟩ := ha.tight j s s₁ hspace hs₁ (hall (j' - (j + 1)) (by omega) s₁ (by
    rw [show j' - (j' - (j + 1)) = j + 1 by omega]
    exact hs₁))
  have hstep := ha.indexOf_lt_of_opens hs hpart hi hspace hp hpj hfirst hq
  refine hstep.trans_le ?_
  -- the object that opens the next space does not come after the one that opens the later one
  by_contra hgt
  have hlive : ∀ r ∈ bs, live r.object := fun r hr =>
    ((ha.seen r.object).1 (List.mem_map_of_mem hr)).1
  have h1 := hs.indexOf_lt_indexOf (hlive p' hp') (hlive q hq.mem) (Nat.not_le.1 hgt)
  have h2 := (ha.object_lt_iff hs hp' hq.mem).1 h1
  rcases Nat.lt_or_ge (j + 1) j' with hlt' | hge
  · have := ha.target_lt_of_space_lt hs hpart hq.mem hp' (by rw [hq.space, hpj']; exact hlt')
    omega
  · obtain rfl : j' = j + 1 := by omega
    rw [hs₁] at hspace'
    obtain rfl := Option.some.inj hspace'
    have h3 := (ha.berth_mem hp' (by rw [hpj']; exact hi') (by rw [hpj']; exact hs₁)).1
    rw [hq.target, (ha.extent _ _ _ hi' hs₁).1] at h2
    omega

end SerialCycle.Assigned

end MarkCompact
