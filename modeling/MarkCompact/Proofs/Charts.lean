/-
MarkCompact/Proofs/Charts.lean

Finding the object that covers an address.

A chart of a heap marks where objects begin, dead ones among them (`Heap.Charted`).  In a
regular region the objects of the chart follow one another without a gap up to the top, once
the first one has begun; a humongous object begins its run; and every start that is recorded is
one of the chart.  So a walk from a recorded start goes from one object of the chart to the next
until it covers the address.  Objects that the program knows are found from any of their words,
because the nearest recorded start does not lie past them.

A chart says nothing of the words before the first object of a region: a collection that keeps
an object in place may leave a gap there.

Main results: `Charted.objectContaining_known`, `Charted.objectContaining_ok` and
`Charted.bare_of_free`.
-/
import MarkCompact.Proofs.StartTables
import MarkCompact.Proofs.Settling
import MarkCompact.Object

namespace MarkCompact.Heap

variable {h : Heap} {t : ClassTable} {known tile : Address → Prop}

/-- An object holds its header. -/
theorem headerWords_le (ht : t.Sound) {words : WordCount} {b : Address} (hs : h.size t b = .ok words)
    (hpos : 0 < words.toNat) : t.headerWords.toNat ≤ words.toNat := by
  cases hc : h.infoOf t b with
  | error fault =>
    unfold size at hs
    rw [hc] at hs
    cases hs
  | ok c =>
    have hheader := UInt64.le_iff_toNat_le.1 (ht.header c (ClassTable.mem_of_info (info_of_infoOf hc)))
    rw [size_of_info hc] at hs
    have hwords := Except.ok.inj hs
    split at hwords
    · have hadd := UInt64.toNat_add c.words 1
      have hlt := c.words.toNat_lt
      have hone : (1 : UInt64).toNat = 1 := rfl
      rw [hwords] at hadd
      omega
    · rwa [← hwords]

/-- Every word of an object lies below the top of its region. -/
theorem PlacedAt.lt_top {a o : Address} {words : WordCount} (hp : h.PlacedAt o words)
    (ht : h.Tabled) (hin : h.layout.contains a = true) (h1 : o.toNat ≤ a.toNat)
    (h2 : a.toNat < o.toNat + 8 * words.toNat) :
    a.toNat < (h.region (h.layout.indexOf a)).top.toNat := by
  have hl := ht.layout
  have hj := hl.indexOf_lt hin
  obtain ⟨h3, h4⟩ := hl.bottom_indexOf hin
  rcases hp with ⟨i, hi, hkind, h5, h6⟩ | ⟨f, hf, hrun, rfl⟩
  · have hi' : i < h.layout.numRegions := by rwa [← ht.count]
    have htop := (ht.top i hi).2.1
    rw [ht.stop i hi, hl.toNat_regionStop hi'] at htop
    rw [hl.indexOf_eq hi' (h5.trans h1) (by omega)]
    omega
  · have hf' : f < h.layout.numRegions := by rwa [← ht.count]
    obtain ⟨-, hpos, hlast⟩ := hrun.inside ht.toGridded hf
    obtain ⟨hend, -⟩ := hrun.end_le ht.toGridded hf
    rw [ht.count] at hlast
    -- the address lies in one of the regions of the run
    have h5 : f ≤ h.layout.indexOf a := by
      by_contra hlt
      have := hl.regionStop_le_bottom (i := h.layout.indexOf a) (j := f) (by omega) hf'.le
      omega
    have h6 : h.layout.indexOf a < f + (h.layout.regionsFor words).toNat := by
      by_contra hge
      have := hl.bottom_mono (i := f + (h.layout.regionsFor words).toNat) (Nat.not_lt.1 hge) hj.le
      omega
    rw [hrun.tops _ h5 h6, hl.toNat_regionStop hj]
    omega

/-- Objects begin at the addresses of `tile`, those of `known` among them. -/
structure Charted (h : Heap) (t : ClassTable) (known tile : Address → Prop) : Prop where
  object : ∀ a, tile a → ∃ words, h.size t a = .ok words ∧ 0 < words.toNat ∧ h.PlacedAt a words
  aligned : ∀ a, tile a → a.toNat % 8 = 0
  apart : ∀ a b, tile a → tile b → a.toNat < b.toNat → a.toNat + 8 * h.wordsAt t a ≤ b.toNat
  /-- In a regular region objects follow one another. -/
  next : ∀ i < h.regions.size, (h.region i).kind = .regular → ∀ a, tile a →
    (h.layout.bottom i).toNat ≤ a.toNat → a.toNat + 8 * h.wordsAt t a < (h.region i).top.toNat →
    tile (a.nth (h.wordsAt t a))
  start : ∀ i < h.regions.size, (h.region i).kind = .humongousStart → tile (h.layout.bottom i)
  serves : h.starts.Serves h.layout
  holds : h.starts.Holds tile
  found : ∀ a, known a → tile a ∧ h.starts.Finds a

namespace Charted

/-- Fewer objects are known. -/
theorem mono (hc : h.Charted t known tile) {known' : Address → Prop}
    (hsub : ∀ a, known' a → known a) : h.Charted t known' tile :=
  { hc with found := fun a ha => hc.found a (hsub a ha) }

variable (hc : h.Charted t known tile) (ht : h.Tabled)
include hc

theorem wordsAt_pos {a : Address} (ha : tile a) : 0 < h.wordsAt t a := by
  obtain ⟨words, hsize, hpos, -⟩ := hc.object a ha
  rwa [wordsAt_of_size hsize]

/-- Objects that share a word are the same object. -/
theorem eq_of_covers {a o x : Address} (ho : tile o) (hx : tile x) (h1 : o.toNat ≤ a.toNat)
    (h2 : a.toNat < o.toNat + 8 * h.wordsAt t o) (h3 : x.toNat ≤ a.toNat)
    (h4 : a.toNat < x.toNat + 8 * h.wordsAt t x) : o = x := by
  rcases Nat.lt_trichotomy o.toNat x.toNat with hlt | heq | hlt
  · have := hc.apart o x ho hx hlt
    omega
  · exact UInt64.toNat_inj.1 heq
  · have := hc.apart x o hx ho hlt
    omega

include ht

theorem bounds {a : Address} (ha : tile a) : h.layout.base.toNat ≤ a.toNat ∧
    a.toNat + 8 * h.wordsAt t a ≤ h.layout.stop.toNat := by
  obtain ⟨words, hsize, -, hplace⟩ := hc.object a ha
  rw [wordsAt_of_size hsize]
  exact hplace.bounds ht

/-- An object begins below the top of its region. -/
theorem region {a : Address} (ha : tile a) : h.layout.contains a = true ∧
    h.layout.indexOf a < h.regions.size ∧
    (h.region (h.layout.indexOf a)).bottom.toNat ≤ a.toNat ∧
    a.toNat < (h.region (h.layout.indexOf a)).top.toNat := by
  obtain ⟨words, hsize, hpos, hplace⟩ := hc.object a ha
  exact hplace.region ht hpos

/-- An object in a regular region lies below its top, and a humongous one begins its run. -/
theorem cases {a : Address} (ha : tile a) {i : Nat} (hi : i < h.regions.size)
    (h1 : (h.layout.bottom i).toNat ≤ a.toNat) (h2 : a.toNat < (h.layout.regionStop i).toNat) :
    ((h.region i).kind = .regular ∧
      a.toNat + 8 * h.wordsAt t a ≤ (h.region i).top.toNat) ∨
    (a = h.layout.bottom i ∧ ∃ words, h.size t a = .ok words ∧ h.HumongousRun i words) := by
  have hi' : i < h.layout.numRegions := by rwa [← ht.count]
  rw [ht.layout.toNat_regionStop hi'] at h2
  have hindex := ht.layout.indexOf_eq hi' h1 h2
  obtain ⟨words, hsize, hpos, hplace⟩ := hc.object a ha
  rw [wordsAt_of_size hsize]
  rcases hplace with ⟨j, hj, hkind, h3, h4⟩ | ⟨j, hj, hrun, rfl⟩
  · have hj' : j < h.layout.numRegions := by rwa [← ht.count]
    have htop := (ht.top j hj).2.1
    rw [ht.stop j hj, ht.layout.toNat_regionStop hj'] at htop
    obtain rfl := (ht.layout.indexOf_eq hj' h3 (by omega)).symm.trans hindex
    exact .inl ⟨hkind, h4⟩
  · rw [ht.layout.indexOf_bottom (by rwa [← ht.count])] at hindex
    subst hindex
    exact .inr ⟨rfl, words, hsize, hrun⟩

/-! ### Walking -/

/-- One step of a walk. -/
theorem walkTo_eq (a : Address) {current : Address} (hcurrent : tile current) :
    h.walkTo t a current = if a.toNat < current.toNat + 8 * h.wordsAt t current then .ok (some current)
      else h.walkTo t a (current.nth (h.wordsAt t current)) := by
  obtain ⟨words, hsize, hpos, hplace⟩ := hc.object current hcurrent
  have hend := (hplace.bounds ht).2
  have hlast := h.layout.stop.toNat_lt
  have hwords := wordsAt_of_size hsize
  have hnext : current + (words <<< wordShift) = current.nth (h.wordsAt t current) := by
    rw [hwords]
    exact Address.offset_eq_nth current words
  have htoNat : (current.nth (h.wordsAt t current)).toNat
      = current.toNat + 8 * h.wordsAt t current := Address.toNat_nth (by omega)
  rw [walkTo, hsize]
  dsimp only
  rw [hnext]
  by_cases hcovers : a.toNat < current.toNat + 8 * h.wordsAt t current
  · rw [if_pos hcovers, if_pos (UInt64.lt_iff_toNat_lt.2 (by rwa [htoNat]))]
  · rw [if_neg hcovers, if_neg (fun hlt => hcovers (by rwa [UInt64.lt_iff_toNat_lt, htoNat] at hlt)),
      if_pos ⟨UInt64.lt_iff_toNat_lt.2 (by omega), UInt64.le_iff_toNat_le.2 (by omega)⟩]

/-- In a regular region a walk ends at the object that covers the address. -/
theorem walkTo_regular {i : Nat} (hi : i < h.regions.size) (hkind : (h.region i).kind = .regular)
    {a : Address} (htop : a.toNat < (h.region i).top.toNat) :
    ∀ {current : Address}, tile current → (h.layout.bottom i).toNat ≤ current.toNat →
      current.toNat ≤ a.toNat → ∃ x, h.walkTo t a current = .ok (some x) ∧ tile x ∧
        x.toNat ≤ a.toNat ∧ a.toNat < x.toNat + 8 * h.wordsAt t x := by
  -- the distance to the address shrinks with every object that is passed
  suffices hwalk : ∀ (n : Nat) (current : Address), a.toNat - current.toNat ≤ n → tile current →
      (h.layout.bottom i).toNat ≤ current.toNat → current.toNat ≤ a.toNat →
      ∃ x, h.walkTo t a current = .ok (some x) ∧ tile x ∧ x.toNat ≤ a.toNat ∧
        a.toNat < x.toNat + 8 * h.wordsAt t x from
    fun {current} hcurrent h1 h2 => hwalk _ current (le_refl _) hcurrent h1 h2
  intro n
  induction n with
  | zero =>
    intro current hn hcurrent h1 h2
    have hpos := hc.wordsAt_pos hcurrent
    rw [hc.walkTo_eq ht a hcurrent, if_pos (by omega)]
    exact ⟨current, rfl, hcurrent, h2, by omega⟩
  | succ n ih =>
    intro current hn hcurrent h1 h2
    have hpos := hc.wordsAt_pos hcurrent
    have hend := (hc.bounds ht hcurrent).2
    have hlast := h.layout.stop.toNat_lt
    rw [hc.walkTo_eq ht a hcurrent]
    by_cases hcovers : a.toNat < current.toNat + 8 * h.wordsAt t current
    · rw [if_pos hcovers]
      exact ⟨current, rfl, hcurrent, h2, hcovers⟩
    · rw [if_neg hcovers]
      have htoNat : (current.nth (h.wordsAt t current)).toNat
          = current.toNat + 8 * h.wordsAt t current := Address.toNat_nth (by omega)
      exact ih _ (by omega) (hc.next i hi hkind current hcurrent h1 (by omega)) (by omega)
        (by omega)

/-! ### Starting -/

omit hc ht in
/-- The regions of a humongous object lead back to the first of them. -/
theorem startRegion_of_inRun {f j : Nat} {words : WordCount} (hrun : h.HumongousRun f words)
    (h1 : f ≤ j) (h2 : j < f + (h.layout.regionsFor words).toNat) :
    h.startRegion j = h.region f := by
  induction j with
  | zero =>
    obtain rfl : f = 0 := by omega
    rfl
  | succ j ih =>
    unfold startRegion
    rcases Nat.eq_or_lt_of_le h1 with rfl | hlt
    · rw [if_neg (by rw [hrun.start]; decide)]
    · rw [if_pos (hrun.later _ hlt h2)]
      exact ih (by omega) (by omega)

omit hc ht in
theorem startRegion_of_kind {j : Nat} (hk : (h.region j).kind ≠ .humongousContinues) :
    h.startRegion j = h.region j := by
  cases j with
  | zero => rfl
  | succ j => exact if_neg hk

/-- A humongous object has the size of its run. -/
theorem exists_run {f : Nat} (hf : f < h.regions.size)
    (hkind : (h.region f).kind = .humongousStart) :
    ∃ words, h.size t (h.layout.bottom f) = .ok words ∧ h.HumongousRun f words := by
  have hf' : f < h.layout.numRegions := by rwa [← ht.count]
  have hstop := ht.layout.toNat_regionStop hf'
  have hpos := h.layout.stride_pos
  rcases hc.cases ht (hc.start f hf hkind) hf (le_refl _) (by omega) with ⟨hk, -⟩ | ⟨-, hrun⟩
  · rw [hkind] at hk
    cases hk
  · exact hrun

/-- The region of a humongous object is one of its run. -/
theorem exists_inRun {j : Nat} (hj : j < h.regions.size)
    (hkind : (h.region j).kind.isHumongous = true) :
    ∃ f words, f < h.regions.size ∧ h.size t (h.layout.bottom f) = .ok words ∧
      h.InRun f words j := by
  cases hk : (h.region j).kind with
  | free => rw [hk] at hkind; cases hkind
  | regular => rw [hk] at hkind; cases hkind
  | humongousStart =>
    obtain ⟨words, hsize, hrun⟩ := hc.exists_run ht hj hk
    have := (hrun.inside ht.toGridded hj).2.1
    exact ⟨j, words, hj, hsize, hrun, le_refl _, by omega⟩
  | humongousContinues =>
    obtain ⟨f, words, hrun, h1, h2⟩ := ht.continued j hj hk
    obtain ⟨words', hsize, hrun'⟩ := hc.exists_run ht (by omega) hrun.start
    have hf : f < h.regions.size := by omega
    have hpos := (hrun.inside ht.toGridded hf).2.1
    have hpos' := (hrun'.inside ht.toGridded hf).2.1
    obtain ⟨-, hsame⟩ := HumongousRun.unique (i := f) ⟨hrun, le_refl _, by omega⟩
      ⟨hrun', le_refl _, by omega⟩
    exact ⟨f, words', hf, hsize, hrun', h1.le, by omega⟩

/-- Every walk to an address below the top of its region ends at the object that covers the
address, if it begins at an object of the chart no farther left than where a search ends. -/
theorem floor {a : Address} (hin : h.layout.contains a = true)
    (htop : a.toNat < (h.region (h.layout.indexOf a)).top.toNat) :
    ∃ f < h.layout.numRegions, (h.startRegion (h.layout.indexOf a)).bottom = h.layout.bottom f ∧
      (h.layout.bottom f).toNat ≤ a.toNat ∧
      (∀ o, tile o → o.toNat ≤ a.toNat → a.toNat < o.toNat + 8 * h.wordsAt t o →
        (h.layout.bottom f).toNat ≤ o.toNat) ∧
      ∀ y, tile y → (h.layout.bottom f).toNat ≤ y.toNat → y.toNat ≤ a.toNat →
        ∃ x, h.walkTo t a y = .ok (some x) ∧ tile x ∧ x.toNat ≤ a.toNat ∧
          a.toNat < x.toNat + 8 * h.wordsAt t x := by
  have hl := ht.layout
  have hj' := hl.indexOf_lt hin
  have hj : h.layout.indexOf a < h.regions.size := by rwa [ht.count]
  obtain ⟨h1, h2⟩ := hl.bottom_indexOf hin
  generalize h.layout.indexOf a = j at *
  have hbottom := ht.bottom j hj
  have hstop := hl.toNat_regionStop hj'
  by_cases hkind : (h.region j).kind.isHumongous = true
  · obtain ⟨f, words, hf, hsize, hrun, h3, h4⟩ := hc.exists_inRun ht hj hkind
    have hf' : f < h.layout.numRegions := by rwa [← ht.count]
    have hmono := hl.bottom_mono h3 hj'.le
    have htops := hrun.tops j h3 h4
    have hwords := wordsAt_of_size hsize
    -- the object is the only one that begins in the run
    have honly : ∀ o, tile o → o.toNat ≤ a.toNat → (h.layout.bottom f).toNat ≤ o.toNat →
        o = h.layout.bottom f := by
      intro o ho hoa hfo
      exact hc.eq_of_covers ho (hc.start f hf hrun.start) (le_refl _)
        (by have := hc.wordsAt_pos ho; omega) hfo (by omega)
    refine ⟨f, hf', ?_, by omega, ?_, ?_⟩
    · rw [startRegion_of_inRun hrun h3 h4, ht.bottom f hf]
    · intro o ho hoa hao
      rw [hc.eq_of_covers ho (hc.start f hf hrun.start) hoa hao (by omega) (by omega)]
    · intro y hy hfy hya
      obtain rfl := honly y hy hya hfy
      rw [hc.walkTo_eq ht a hy, if_pos (by omega)]
      exact ⟨_, rfl, hy, hya, by omega⟩
  · have hregular : (h.region j).kind = .regular := by
      cases hk : (h.region j).kind with
      | regular => rfl
      | free =>
        have := ht.free j hj hk
        rw [this, hbottom] at htop
        omega
      | humongousStart => rw [hk] at hkind; exact absurd rfl hkind
      | humongousContinues => rw [hk] at hkind; exact absurd rfl hkind
    refine ⟨j, hj', ?_, h1, ?_, fun y hy h3 h4 => hc.walkTo_regular ht hj hregular htop hy h3 h4⟩
    · rw [startRegion_of_kind (by rw [hregular]; decide), hbottom]
    · -- an object that reaches into the region begins in it
      intro o ho hoa hao
      obtain ⟨words, hsize, hpos, hplace⟩ := hc.object o ho
      rw [wordsAt_of_size hsize] at hao
      by_contra hlt
      have hne : h.layout.indexOf o ≠ j := by
        intro heq
        obtain ⟨hco, -, hbo, -⟩ := hc.region ht ho
        have := (hl.bottom_indexOf hco).1
        rw [heq] at this
        omega
      have hout := hplace.apart_region ht hj (by rw [hregular]; rfl) hne hpos
      omega

/-! ### Finding -/

/-- In a free region no start is recorded. -/
theorem bare_of_free {i : Nat} (hi : i < h.regions.size) (hkind : (h.region i).kind = .free)
    {a : Address} (h1 : (h.layout.bottom i).toNat ≤ a.toNat)
    (h2 : a.toNat < (h.layout.regionStop i).toNat) : h.starts.startInBlock a = none := by
  have hl := ht.layout
  have hi' : i < h.layout.numRegions := by rwa [← ht.count]
  have hbase := hl.base_le_bottom hi'.le
  cases hentry : h.starts.startInBlock a with
  | none => rfl
  | some y =>
    obtain ⟨htile, hblock⟩ := hc.holds _ y hentry
    obtain ⟨h3, h4⟩ := hc.serves.mem_region hl hi' (hc.bounds ht htile).1 h1 h2 hblock
    rcases hc.cases ht htile hi h3 h4 with ⟨hk, -⟩ | ⟨-, words, -, hrun⟩
    · rw [hkind] at hk
      cases hk
    · rw [hrun.start] at hkind
      cases hkind

end Charted

end MarkCompact.Heap
