/-
MarkCompact/Proofs/RegionRoles.lean

What planning makes of every region.

A bitmap that covers the heap has some objects of the heap marked in it (`Heap.Shown`).  All that
is live then lies between the bottom of a region and its top, so that what is counted region by
region is all that is marked, and a region is full exactly if all its words are live.

Planning gives every region one role: it belongs to the dense prefix, it is compacted, it belongs to
a live humongous object, or it is free afterwards (`Plan.HasRole`).  The regions of a dead humongous
object are freed, and nothing else changes.

* `Plane.sum_count` — ranges that hold all bits of a plane, one after the other, have as many as
  there are;
* `Shown.exists_region` — a live word lies in a region, below its top;
* `Shown.fullyLive_iff` — when a region is full;
* `Planned.existsUnique_role`, `Planned.freed_iff` — the roles, and the regions that are freed.

Main result: `Heap.Tabled.classified_build`.
-/
import MarkCompact.Proofs.Allocation
import MarkCompact.Proofs.Figures
import MarkCompact.Proofs.LowestStarts

namespace MarkCompact

/-! ### Counting by ranges -/

namespace Plane

theorem card_filter_get (p : Plane) (lo hi : Nat) :
    ((Finset.Ico lo hi).filter fun bit => p.get bit = true).card = p.count lo hi := by
  rw [count_eq, List.countP_eq_length_filter, Finset.card_def, Finset.filter_val]
  show Multiset.card (Multiset.filter _ (↑(List.range' lo (hi - lo)) : Multiset Nat)) = _
  rw [Multiset.filter_coe, Multiset.coe_card]
  simp

/-- Ranges that hold the bits up to a place, one after the other, have as many as there are. -/
theorem sum_count {p : Plane} {n k : Nat} {lo hi : Nat → Nat}
    (hapart : ∀ i j, i < j → j < k → hi i ≤ lo j)
    (hin : ∀ bit < n, p.get bit = true → ∃ i < k, lo i ≤ bit ∧ bit < hi i)
    (hout : ∀ i < k, ∀ bit, bit < hi i → p.get bit = true → bit < n) :
    ((List.range k).map fun i => p.count (lo i) (hi i)).sum = p.count 0 n := by
  have hdisjoint : ((Finset.range k : Finset Nat) : Set Nat).PairwiseDisjoint fun i =>
      (Finset.Ico (lo i) (hi i)).filter fun bit => p.get bit = true := by
    intro i hi' j hj' hne
    refine Finset.disjoint_left.2 fun bit hbit hbit' => ?_
    simp only [Finset.mem_filter, Finset.mem_Ico] at hbit hbit'
    simp only [Finset.coe_range, Set.mem_Iio] at hi' hj'
    rcases Nat.lt_or_gt_of_ne hne with hlt | hlt
    · have := hapart i j hlt hj'
      omega
    · have := hapart j i hlt hi'
      omega
  have hunion : (Finset.range k).biUnion (fun i =>
      (Finset.Ico (lo i) (hi i)).filter fun bit => p.get bit = true)
      = (Finset.Ico 0 n).filter fun bit => p.get bit = true := by
    ext bit
    simp only [Finset.mem_biUnion, Finset.mem_filter, Finset.mem_Ico, Finset.mem_range]
    constructor
    · rintro ⟨i, hik, ⟨-, h2⟩, h3⟩
      exact ⟨⟨Nat.zero_le _, hout i hik bit h2 h3⟩, h3⟩
    · rintro ⟨⟨-, h1⟩, h2⟩
      obtain ⟨i, hik, h3⟩ := hin bit h1 h2
      exact ⟨i, hik, h3, h2⟩
  rw [← card_filter_get, ← hunion, Finset.card_biUnion hdisjoint,
    ← List.sum_toFinset _ List.nodup_range, List.toFinset_range]
  exact Finset.sum_congr rfl fun i _ => (card_filter_get p _ _).symm

theorem popCount_chunk (p : Plane) (c : Nat) :
    popCount (p.chunk c) = p.count (c * chunkBits) ((c + 1) * chunkBits) := by
  rw [popCount_eq, count_eq, Nat.add_mul, Nat.one_mul, Nat.add_sub_cancel_left,
    List.range'_eq_map_range, List.countP_map]
  refine List.countP_congr fun i hi => ?_
  have hi := List.mem_range.1 hi
  simp only [chunkBits] at hi ⊢
  show _ ↔ bitSet (p.chunk ((c * 64 + i) / 64)) ((c * 64 + i) % 64) = true
  rw [show (c * 64 + i) / 64 = c from by omega, show (c * 64 + i) % 64 = i from by omega]

/-- The bits of all chunks are those of the whole plane. -/
theorem total_eq (p : Plane) : p.total = p.count 0 (p.size * chunkBits) := by
  have hchunks : p.toList = (List.range p.size).map p.chunk := by
    apply List.ext_getElem
    · simp
    · intro i h1 h2
      rw [Array.length_toList] at h1
      simp [chunk, h1]
  have hsum : ((List.range p.size).map fun c =>
      p.count (c * chunkBits) ((c + 1) * chunkBits)).sum = p.count 0 (p.size * chunkBits) := by
    refine sum_count ?_ ?_ ?_
    · intro i j hij _
      exact Nat.mul_le_mul_right _ hij
    · intro bit hbit _
      simp only [chunkBits] at hbit ⊢
      exact ⟨bit / 64, by omega, by omega, by omega⟩
    · intro i hi bit hbit _
      simp only [chunkBits] at hbit ⊢
      omega
  rw [← hsum]
  unfold total
  rw [hchunks, List.map_map]
  exact congrArg List.sum (List.map_congr_left fun c _ => popCount_chunk p c)

/-- Ranges that hold all bits of a plane, one after the other, have as many as there are. -/
theorem sum_count_eq_total {p : Plane} {k : Nat} {lo hi : Nat → Nat}
    (hapart : ∀ i j, i < j → j < k → hi i ≤ lo j)
    (hin : ∀ bit, p.get bit = true → ∃ i < k, lo i ≤ bit ∧ bit < hi i) :
    ((List.range k).map fun i => p.count (lo i) (hi i)).sum = p.total := by
  rw [total_eq]
  refine sum_count hapart (fun bit _ => hin bit) fun i _ bit _ hget => ?_
  by_contra hge
  rw [get_of_size_le _ (Nat.le_of_not_lt hge)] at hget
  cases hget

end Plane

/-! ### Objects of the heap in a bitmap -/

namespace Heap

/-- A bitmap over the heap shows some objects of it, of so many words each. -/
structure Shown (h : Heap) (b : Bitmap) (g : Layout) (live : Address → Prop)
    (sizes : Address → WordCount) : Prop where
  tabled : h.Tabled
  covers : g.Covers h.layout
  shows : b.Shows g live fun a => (sizes a).toNat
  placed : ∀ a, live a → h.PlacedAt a (sizes a)
  nonempty : ∀ a, live a → 0 < (sizes a).toNat

/-- A region is regular, and all its words are live. -/
def FullyLive (h : Heap) (b : Bitmap) (i : Nat) : Prop :=
  (h.region i).kind = .regular ∧ ∀ x, h.layout.IsWord x → (h.layout.bottom i).toNat ≤ x.toNat →
    x.toNat < (h.layout.regionStop i).toNat → b.isLive x = true

namespace Shown

variable {h : Heap} {b : Bitmap} {g : Layout} {live : Address → Prop} {sizes : Address → WordCount}

theorem isEdge (hs : h.Shown b g live sizes) {x : Address} (hx : h.layout.IsEdge x) : g.IsEdge x :=
  ⟨hs.covers.base.trans hx.bottom, hx.stop.trans hs.covers.stop, hx.aligned⟩

/-- The first word of an object is one of its words. -/
theorem isLive_of_isMarked (hs : h.Shown b g live sizes) {x : Address} (hx : g.IsWord x)
    (hmarked : b.isMarked x = true) : b.isLive x = true := by
  have hlive := (hs.shows.starts x hx).1 hmarked
  have hpos := hs.nonempty x hlive
  exact (hs.shows.words x hx).2 ⟨x, hlive, Nat.le_refl _, by omega⟩

/-- A live word lies in a region, below its top. -/
theorem exists_region (hs : h.Shown b g live sizes) {x : Address} (hx : g.IsWord x)
    (hlive : b.isLive x = true) : ∃ i < h.regions.size, (h.region i).bottom.toNat ≤ x.toNat ∧
      x.toNat < (h.region i).top.toNat := by
  have hl := hs.tabled.layout
  obtain ⟨o, ho, hle, hlt⟩ := (hs.shows.words x hx).1 hlive
  have hplaced := hs.placed o ho
  obtain ⟨h1, h2⟩ := hplaced.bounds hs.tabled
  have hin : h.layout.contains x = true := (hl.contains_iff x).2 ⟨by omega, by omega⟩
  have hindex : h.layout.indexOf x < h.regions.size := hs.tabled.count ▸ hl.indexOf_lt hin
  refine ⟨h.layout.indexOf x, hindex, ?_, hplaced.lt_top hs.tabled hin hle hlt⟩
  rw [hs.tabled.bottom _ hindex]
  exact (hl.bottom_indexOf hin).1

/-- Nothing is live between the top of a region and its end. -/
theorem not_isLive_above (hs : h.Shown b g live sizes) {i : Nat} (hi : i < h.regions.size)
    {x : Address} (hx : g.IsWord x) (h1 : (h.region i).top.toNat ≤ x.toNat)
    (h2 : x.toNat < (h.layout.regionStop i).toNat) : b.isLive x = false := by
  have ht := hs.tabled
  have hl := ht.layout
  refine Bool.eq_false_iff.2 fun hlive => ?_
  obtain ⟨j, hj, h3, h4⟩ := hs.exists_region hx hlive
  have hj' : j < h.layout.numRegions := ht.count ▸ hj
  have hi' : i < h.layout.numRegions := ht.count ▸ hi
  have h5 := (ht.top i hi).1
  have h6 := (ht.top j hj).2.1
  rw [ht.bottom i hi] at h5
  rw [ht.bottom j hj] at h3
  rw [ht.stop j hj, hl.toNat_regionStop hj'] at h6
  rw [hl.toNat_regionStop hi'] at h2
  have hij : i = j := (hl.indexOf_eq hi' (by omega) h2).symm.trans (hl.indexOf_eq hj' h3 (by omega))
  subst hij
  omega

/-! ### Totals -/

/-- What is counted region by region are all bits of a plane whose bits are words in use. -/
theorem sum_regions (hs : h.Shown b g live sizes) {p : Plane}
    (htrim : ∀ bit, g.heapWords.toNat ≤ bit → p.get bit = false)
    (hlive : ∀ x, g.IsWord x → p.get (b.bitOf x) = true → b.isLive x = true) :
    ((List.range h.regions.size).map fun i =>
      p.count (b.bitOf (h.region i).bottom) (b.bitOf (h.region i).top)).sum = p.total := by
  have ht := hs.tabled
  have hl := ht.layout
  refine Plane.sum_count_eq_total (fun i j hij hj => ?_) fun bit hbit => ?_
  · have hi : i < h.regions.size := hij.trans hj
    have hj' : j < h.layout.numRegions := ht.count ▸ hj
    rw [hs.shows.fits.bitOf_le_bitOf hs.covers.spans (hs.isEdge (ht.isEdge_top hi))
      (hs.isEdge (ht.isEdge_bottom hj)), ht.bottom j hj]
    refine (ht.top i hi).2.1.trans ?_
    rw [ht.stop i hi, Layout.regionStop_eq_bottom_succ]
    exact hl.bottom_mono hij hj'.le
  · have hlt : bit < g.heapWords.toNat := by
      by_contra hge
      rw [htrim bit (Nat.le_of_not_lt hge)] at hbit
      cases hbit
    obtain ⟨x, hx, rfl⟩ := hs.shows.fits.exists_word hs.covers.spans hlt
    obtain ⟨i, hi, h1, h2⟩ := hs.exists_region hx (hlive x hx hbit)
    refine ⟨i, hi, ?_, ?_⟩
    · exact (hs.shows.fits.bitOf_le_bitOf hs.covers.spans (hs.isEdge (ht.isEdge_bottom hi))
        hx.isEdge).2 h1
    · exact (hs.shows.fits.bitOf_lt_bitOf hs.covers.spans hx.isEdge
        (hs.isEdge (ht.isEdge_top hi))).2 h2

/-- The summaries count every live word once. -/
theorem liveWords_eq (hs : h.Shown b g live sizes) {p : Plan} (hp : p.summaries = summarize h b) :
    p.liveWords = b.markedWords := by
  unfold Plan.liveWords Bitmap.markedWords
  rw [hp, summarize, h.toList_regions, List.map_map, List.map_map,
    ← hs.sum_regions (fun bit hbit => (hs.shows.fits.trim bit hbit).2) fun _ _ hget => hget]
  refine congrArg List.sum (List.map_congr_left fun i hi => ?_)
  exact b.countWords_eq_count (hs.tabled.top i (List.mem_range.1 hi)).1

/-- The summaries count every live object once. -/
theorem liveObjects_eq (hs : h.Shown b g live sizes) {p : Plan} (hp : p.summaries = summarize h b) :
    p.liveObjects = b.markedObjects := by
  unfold Plan.liveObjects Bitmap.markedObjects
  rw [hp, summarize, h.toList_regions, List.map_map, List.map_map,
    ← hs.sum_regions (fun bit hbit => (hs.shows.fits.trim bit hbit).1) fun _ hx hget =>
      hs.isLive_of_isMarked hx hget]
  refine congrArg List.sum (List.map_congr_left fun i hi => ?_)
  exact b.countObjects_eq_count (hs.tabled.top i (List.mem_range.1 hi)).1

/-! ### Full regions -/

/-- A region has as many live words as words exactly if all of them are live. -/
theorem fullyLive_iff (hs : h.Shown b g live sizes) {i : Nat} (hi : i < h.regions.size) :
    h.FullyLive b i ↔ (h.region i).kind = .regular ∧
      b.countWords (h.region i).bottom (h.region i).top = h.layout.regionWords.toNat := by
  have ht := hs.tabled
  have hl := ht.layout
  have hi' : i < h.layout.numRegions := ht.count ▸ hi
  have hspans := hs.covers.spans
  have hbottom := hs.isEdge (ht.isEdge_bottom hi)
  have htop := hs.isEdge (ht.isEdge_top hi)
  have hstop : g.IsEdge (h.layout.regionStop i) := by
    rw [Layout.regionStop_eq_bottom_succ]
    exact hs.isEdge (hl.isEdge_bottom hi')
  obtain ⟨h1, h2, -⟩ := ht.top i hi
  rw [ht.stop i hi] at h2
  have hwhole : b.countWords (h.region i).bottom (h.layout.regionStop i)
      = b.countWords (h.region i).bottom (h.region i).top := by
    rw [Bitmap.countWords_add hspans hs.shows.fits hbottom htop hstop h1 h2,
      Bitmap.countWords_of_none hspans hs.shows.fits htop hstop fun x hx h3 h4 =>
        hs.not_isLive_above hi hx h3 h4, Nat.add_zero]
  have hregion := hl.toNat_regionWords
  have hend := hl.toNat_regionStop hi'
  have hlen : ((h.layout.regionStop i).toNat - (h.region i).bottom.toNat) / 8
      = h.layout.regionWords.toNat := by
    rw [ht.bottom i hi]
    omega
  rw [← hwhole]
  refine and_congr_right fun _ => ⟨fun hall => ?_, fun hcount x hx h3 h4 => ?_⟩
  · rw [Bitmap.countWords_of_all hspans hs.shows.fits hbottom hstop fun x hx h3 h4 => ?_, hlen]
    rw [ht.bottom i hi] at h3
    have h5 := hl.base_le_bottom hi'.le
    have h6 := hl.bottom_le_stop (i := i + 1) hi'
    rw [Layout.regionStop_eq_bottom_succ] at h4
    exact hall x ⟨by omega, by omega, hx.aligned⟩ h3 h4
  · rw [← ht.bottom i hi] at h3
    exact Bitmap.isLive_of_countWords hspans hs.shows.fits hbottom hstop (by omega)
      (hx.of_covers hs.covers) h3 h4

end Shown

end Heap

/-! ### Roles -/

/-- The part that a region has in a collection. -/
inductive Plan.Role where
  /-- It belongs to the dense prefix. -/
  | dense
  /-- It is compacted. -/
  | compacted
  /-- It belongs to the live humongous object that begins in the region `first`. -/
  | humongous (first : Nat)
  /-- It is free. -/
  | free
  deriving DecidableEq, Repr

/-- Whether the region at an index of `h` has a role, where planning has left `h'`. -/
def Plan.HasRole (p : Plan) (h h' : Heap) (i : Nat) : Plan.Role → Prop
  | .dense => i < p.densePrefix
  | .compacted => i ∈ p.compacting
  | .humongous first => first ∈ p.humongous ∧ ∃ words, h.InRun first words i
  | .free => (h'.region i).kind = .free

namespace Planned

variable {h h' : Heap} {b : Bitmap} {p : Plan}

theorem mem_compacting_iff (hp : Planned h b p h') {i : Nat} : i ∈ p.compacting ↔
    p.densePrefix ≤ i ∧ i < h.regions.size ∧ (h.region i).kind = .regular := by
  have hle := hp.dense_le
  rw [hp.compacting, List.mem_filter, List.mem_range'_1, Heap.isRegularAt, beq_iff_eq, and_assoc]
  refine and_congr_right fun h1 => and_congr_left fun _ => ?_
  omega

/-- The live humongous objects, none of which begins in the dense prefix. -/
theorem mem_humongous_iff (hp : Planned h b p h') (hg : h.Gridded) {i : Nat} : i ∈ p.humongous ↔
    i < h.regions.size ∧ (h.region i).kind = .humongousStart ∧
      b.isMarked (h.layout.bottom i) = true := by
  have hle := hp.dense_le
  rw [hp.humongous, List.mem_filter, List.mem_range'_1, Heap.isLiveStart, Bool.and_eq_true,
    beq_iff_eq]
  constructor
  · rintro ⟨⟨h1, h2⟩, hstart, hmarked⟩
    have hi : i < h.regions.size := by omega
    rw [hg.bottom i hi] at hmarked
    exact ⟨hi, hstart, hmarked⟩
  · rintro ⟨hi, hstart, hmarked⟩
    have hdense : p.densePrefix ≤ i := by
      by_contra hlt
      rw [hp.dense i (Nat.lt_of_not_le hlt)] at hstart
      cases hstart
    rw [hg.bottom i hi]
    exact ⟨by omega, hstart, hmarked⟩

theorem pairwise_compacting (hp : Planned h b p h') : p.compacting.Pairwise (· < ·) := by
  rw [hp.compacting]
  exact List.Pairwise.filter _ List.pairwise_lt_range'

theorem pairwise_humongous (hp : Planned h b p h') : p.humongous.Pairwise (· < ·) := by
  rw [hp.humongous]
  exact List.Pairwise.filter _ List.pairwise_lt_range'

/-- The regions that are freed are those of dead humongous objects. -/
theorem freed_iff (hp : Planned h b p h') {i : Nat} (hi : i < h.regions.size) :
    (h.region i).kind ≠ .free ∧ (h'.region i).kind = .free ↔ h.DeadRun b i := by
  constructor
  · rintro ⟨hused, hfree⟩
    by_contra hdead
    exact hused (hp.kept i hdead ▸ hfree)
  · intro hdead
    refine ⟨fun hfree => Plan.not_deadRun_of_kind (.inr hfree) hdead, ?_⟩
    rw [hp.freed i hi hdead]
    rfl

/-- As many regions are counted as are freed. -/
theorem freedHumongous_eq (hp : Planned h b p h') : p.freedHumongous = (h.freedIn h').card := by
  obtain ⟨dead, hnodup, hmem, hcount⟩ := hp.counted
  have hset : h.freedIn h' = dead.toFinset := by
    ext i
    rw [List.mem_toFinset, hmem, Heap.freedIn, Finset.mem_filter, Finset.mem_range]
    exact and_congr_right fun hi => hp.freed_iff hi
  rw [hset, List.toFinset_card_of_nodup hnodup, hcount]

/-- A run of regions is that of a live object, or all of it is freed. -/
theorem deadRun_or_mem_humongous (hp : Planned h b p h') (ht : h.Tabled) {first i : Nat}
    {words : WordCount} (hin : h.InRun first words i) (hi : i < h.regions.size) :
    h.DeadRun b i ∨ first ∈ p.humongous := by
  have hfirst : first < h.regions.size := hin.2.1.trans_lt hi
  rw [hp.mem_humongous_iff ht.toGridded, deadRun_iff hin, ht.bottom first hfirst]
  cases b.isMarked (h.layout.bottom first) with
  | false => exact .inl rfl
  | true => exact .inr ⟨hfirst, hin.1.start, rfl⟩

/-- The regions of a run belong to its object if it is live, and are free otherwise. -/
theorem existsUnique_role_of_inRun (hp : Planned h b p h') (ht : h.Tabled) {first i : Nat}
    {words : WordCount} (hin : h.InRun first words i) (hi : i < h.regions.size) :
    ∃! role, p.HasRole h h' i role := by
  have hkind := Heap.HumongousRun.kind_of_inRun hin
  have hregular : (h.region i).kind ≠ .regular := fun hk => by
    rw [hk] at hkind
    cases hkind
  rcases hp.deadRun_or_mem_humongous ht hin hi with hdead | hmem
  · refine ⟨.free, ((hp.freed_iff hi).2 hdead).2, fun role hrole => ?_⟩
    cases role with
    | dense => exact absurd (hp.dense i hrole) hregular
    | compacted => exact absurd (hp.mem_compacting_iff.1 hrole).2.2 hregular
    | humongous other =>
      obtain ⟨hother, words', hin'⟩ := hrole
      obtain ⟨hlt, -, hmarked⟩ := (hp.mem_humongous_iff ht.toGridded).1 hother
      rw [deadRun_iff hin', ht.bottom other hlt, hmarked] at hdead
      cases hdead
    | free => rfl
  · obtain ⟨hlt, -, hmarked⟩ := (hp.mem_humongous_iff ht.toGridded).1 hmem
    have hlive : ¬ h.DeadRun b i := by
      rw [deadRun_iff hin, ht.bottom first hlt, hmarked]
      decide
    refine ⟨.humongous first, ⟨hmem, words, hin⟩, fun role hrole => ?_⟩
    cases role with
    | dense => exact absurd (hp.dense i hrole) hregular
    | compacted => exact absurd (hp.mem_compacting_iff.1 hrole).2.2 hregular
    | humongous other =>
      obtain ⟨-, words', hin'⟩ := hrole
      rw [(Heap.HumongousRun.unique hin hin').1]
    | free =>
      have hfree : (h.region i).kind = .free := hp.kept i hlive ▸ hrole
      rw [hfree] at hkind
      cases hkind

/-- A region that belongs to no run keeps its kind. -/
theorem existsUnique_role_of_kind (hp : Planned h b p h') {i : Nat} (hi : i < h.regions.size)
    (hk : (h.region i).kind = .regular ∨ (h.region i).kind = .free) :
    ∃! role, p.HasRole h h' i role := by
  have hkept : (h'.region i).kind = (h.region i).kind :=
    congrArg Region.kind (hp.kept i (Plan.not_deadRun_of_kind hk))
  have hrun : ∀ first, ¬ p.HasRole h h' i (.humongous first) := by
    rintro first ⟨-, words, hin⟩
    have hkind := Heap.HumongousRun.kind_of_inRun hin
    rcases hk with hk | hk <;> rw [hk] at hkind <;> cases hkind
  rcases hk with hk | hk
  · have hused : (h'.region i).kind ≠ .free := by
      rw [hkept, hk]
      decide
    by_cases hd : i < p.densePrefix
    · refine ⟨.dense, hd, fun role hrole => ?_⟩
      cases role with
      | dense => rfl
      | compacted => exact absurd (hp.mem_compacting_iff.1 hrole).1 (Nat.not_le.2 hd)
      | humongous first => exact absurd hrole (hrun first)
      | free => exact absurd hrole hused
    · refine ⟨.compacted, hp.mem_compacting_iff.2 ⟨Nat.le_of_not_lt hd, hi, hk⟩,
        fun role hrole => ?_⟩
      cases role with
      | dense => exact absurd hrole hd
      | compacted => rfl
      | humongous first => exact absurd hrole (hrun first)
      | free => exact absurd hrole hused
  · have hregular : (h.region i).kind ≠ .regular := by
      rw [hk]
      decide
    refine ⟨.free, hkept.trans hk, fun role hrole => ?_⟩
    cases role with
    | dense => exact absurd (hp.dense i hrole) hregular
    | compacted => exact absurd (hp.mem_compacting_iff.1 hrole).2.2 hregular
    | humongous first => exact absurd hrole (hrun first)
    | free => rfl

/-- Every region has exactly one role. -/
theorem existsUnique_role (hp : Planned h b p h') (ht : h.Tabled) {i : Nat}
    (hi : i < h.regions.size) : ∃! role, p.HasRole h h' i role := by
  cases hk : (h.region i).kind with
  | free => exact hp.existsUnique_role_of_kind hi (.inr hk)
  | regular => exact hp.existsUnique_role_of_kind hi (.inl hk)
  | humongousStart =>
    obtain ⟨words, hrun⟩ := ht.runs i hi hk
    obtain ⟨-, hpos, -⟩ := hrun.inside ht.toGridded hi
    exact hp.existsUnique_role_of_inRun ht ⟨hrun, Nat.le_refl _, by omega⟩ hi
  | humongousContinues =>
    obtain ⟨first, words, hrun, h1, h2⟩ := ht.continued i hi hk
    exact hp.existsUnique_role_of_inRun ht ⟨hrun, h1.le, h2⟩ hi

/-- The entries of the start table that stay are those of regions that are not freed. -/
theorem startInBlock_eq (hp : Planned h b p h') (hg : h.Gridded) (hserves : h.starts.Serves h.layout)
    {x : Address} (hx : h.layout.contains x = true) (hkept : ¬ h.DeadRun b (h.layout.indexOf x)) :
    h'.starts.startInBlock x = h.starts.startInBlock x := by
  obtain ⟨dead, hmem, hstarts⟩ := hp.starts
  rw [hstarts, StartTable.startInBlock_forget hserves hg.layout
    (fun i hi => hg.count ▸ ((hmem i).1 hi).1) hx,
    if_neg fun hdead => hkept ((hmem _).1 hdead).2]

end Planned

/-! ### The plan -/

/-- What a plan `p` says about the regions of `h`, and what has become of them in `h'`. -/
structure Classified (h : Heap) (b : Bitmap) (p : Plan) (h' : Heap) : Prop where
  role : ∀ i < h.regions.size, ∃! role, p.HasRole h h' i role
  /-- The dense prefix is the longest run of full regular regions at the front. -/
  dense : ∀ n, n ≤ p.densePrefix ↔ n ≤ h.regions.size ∧ ∀ i < n, h.FullyLive b i
  ascending : p.compacting.Pairwise (· < ·) ∧ p.humongous.Pairwise (· < ·)
  compacting : ∀ i, i ∈ p.compacting ↔
    p.densePrefix ≤ i ∧ i < h.regions.size ∧ (h.region i).kind = .regular
  humongous : ∀ i, i ∈ p.humongous ↔
    i < h.regions.size ∧ (h.region i).kind = .humongousStart ∧ b.isMarked (h.layout.bottom i) = true
  /-- The regions that are freed are those of unmarked humongous objects. -/
  freed : ∀ i, i ∈ h.freedIn h' ↔ i < h.regions.size ∧
    ∃ first words, h.InRun first words i ∧ b.isMarked (h.layout.bottom first) = false
  counted : p.freedHumongous = (h.freedIn h').card
  /-- Nothing in them is marked. -/
  unmarked : ∀ i ∈ h.freedIn h', ∀ x, h.layout.IsWord x → (h.layout.bottom i).toNat ≤ x.toNat →
    x.toNat < (h.layout.regionStop i).toNat → b.isMarked x = false ∧ b.isLive x = false
  ground : h.SameGround h'
  kept : ∀ i, i ∉ h.freedIn h' → h'.region i = h.region i
  entries : ∀ x, h.layout.contains x = true → h.layout.indexOf x ∉ h.freedIn h' →
    h'.starts.startInBlock x = h.starts.startInBlock x
  objects : p.liveObjects = b.markedObjects
  words : p.liveWords = b.markedWords

namespace Heap.Shown

variable {h h' : Heap} {b : Bitmap} {g : Layout} {live : Address → Prop}
  {sizes : Address → WordCount} {p : Plan}

/-- As many regions lead as are full and regular. -/
theorem le_densePrefix_iff (hs : h.Shown b g live sizes) (hp : Planned h b p h') (n : Nat) :
    n ≤ p.densePrefix ↔ n ≤ h.regions.size ∧ ∀ i < n, h.FullyLive b i := by
  have hle := hp.dense_le
  constructor
  · intro hn
    refine ⟨hn.trans hle, fun i hi => ?_⟩
    have hi := hi.trans_le hn
    exact (hs.fullyLive_iff (hi.trans_le hle)).2 ⟨hp.dense i hi, hp.full i hi⟩
  · rintro ⟨hn, hall⟩
    by_contra hlt
    rw [Nat.not_le] at hlt
    have hsize := hlt.trans_le hn
    exact hp.longest hsize ((hs.fullyLive_iff hsize).1 (hall _ hlt))

/-- A live word does not belong to a dead humongous object. -/
theorem not_isLive_of_deadRun (hs : h.Shown b g live sizes) {i : Nat} (hi : i < h.regions.size)
    (hdead : h.DeadRun b i) {x : Address} (hx : g.IsWord x) (h1 : (h.layout.bottom i).toNat ≤ x.toNat)
    (h2 : x.toNat < (h.layout.regionStop i).toNat) : b.isLive x = false := by
  have ht := hs.tabled
  have hl := ht.layout
  have hi' : i < h.layout.numRegions := ht.count ▸ hi
  refine Bool.eq_false_iff.2 fun hlive => ?_
  obtain ⟨o, ho, hle, hlt⟩ := (hs.shows.words x hx).1 hlive
  rw [hl.toNat_regionStop hi'] at h2
  obtain ⟨f, words, hin, hunmarked⟩ := hdead
  rcases hs.placed o ho with ⟨j, hj, hkind, h3, h4⟩ | ⟨j, hj, hrun, rfl⟩
  · -- the object lies in a regular region
    have hj' : j < h.layout.numRegions := ht.count ▸ hj
    have h5 := (ht.top j hj).2.1
    rw [ht.stop j hj, hl.toNat_regionStop hj'] at h5
    obtain rfl : i = j :=
      (hl.indexOf_eq hi' h1 h2).symm.trans (hl.indexOf_eq hj' (by omega) (by omega))
    have hhumongous := HumongousRun.kind_of_inRun hin
    rw [hkind] at hhumongous
    cases hhumongous
  · -- the object has a run of its own, which is marked
    have hxin : h.InRun j (sizes (h.layout.bottom j)) i := by
      obtain ⟨hend, -⟩ := hrun.end_le ht.toGridded hj
      obtain ⟨-, -, hsize⟩ := hrun.inside ht.toGridded hj
      have hcount := ht.count
      refine ⟨hrun, ?_, ?_⟩
      · by_contra hlt'
        have := hl.bottom_mono (i := i + 1) (j := j) (by omega) (by omega)
        have hstop := hl.toNat_regionStop hi'
        rw [Layout.regionStop_eq_bottom_succ] at hstop
        omega
      · by_contra hge
        have := hl.bottom_mono (Nat.le_of_not_lt hge) hi'.le
        omega
    have hword := (hs.shows.starts _ (Layout.IsWord.of_covers
      ⟨hl.base_le_bottom (ht.count ▸ hj.le), ?_, hl.bottom_mod (ht.count ▸ hj.le)⟩ hs.covers)).2 ho
    · rw [← (HumongousRun.unique hxin hin).1, ht.bottom j hj, hword] at hunmarked
      cases hunmarked
    · have hfits := hrun.fits
      have hpos := hrun.nonempty
      omega

theorem classified (hs : h.Shown b g live sizes) (hserves : h.starts.Serves h.layout) :
    Classified h b (Plan.build h b).1 (Plan.build h b).2 := by
  have ht := hs.tabled
  have hp := Plan.planned_build ht b
  have hfreed : ∀ i, i ∈ h.freedIn (Plan.build h b).2 ↔ i < h.regions.size ∧ h.DeadRun b i := by
    intro i
    rw [freedIn, Finset.mem_filter, Finset.mem_range]
    exact and_congr_right fun hi => hp.freed_iff hi
  have hkept : ∀ i, i ∉ h.freedIn (Plan.build h b).2 →
      (Plan.build h b).2.region i = h.region i := by
    intro i hi
    by_cases hsize : i < h.regions.size
    · exact hp.kept i fun hdead => hi ((hfreed i).2 ⟨hsize, hdead⟩)
    · rw [h.region_of_size_le (Nat.le_of_not_lt hsize),
        region_of_size_le _ (by rw [hp.ground.size]; exact Nat.le_of_not_lt hsize)]
  refine ⟨fun i hi => hp.existsUnique_role ht hi, hs.le_densePrefix_iff hp,
    ⟨hp.pairwise_compacting, hp.pairwise_humongous⟩, fun i => hp.mem_compacting_iff,
    fun i => hp.mem_humongous_iff ht.toGridded, fun i => ?_, hp.freedHumongous_eq,
    fun i hi x hx h1 h2 => ?_, hp.ground, hkept, fun x hx hout => ?_, hs.liveObjects_eq hp.summaries,
    hs.liveWords_eq hp.summaries⟩
  · rw [hfreed]
    refine and_congr_right fun hi => exists_congr fun first => exists_congr fun words =>
      and_congr_right fun hin => ?_
    rw [ht.bottom first (hin.2.1.trans_lt hi)]
  · obtain ⟨hsize, hdead⟩ := (hfreed i).1 hi
    have hx := hx.of_covers hs.covers
    have hlive := hs.not_isLive_of_deadRun hsize hdead hx h1 h2
    refine ⟨Bool.eq_false_iff.2 fun hmarked => ?_, hlive⟩
    rw [hs.isLive_of_isMarked hx hmarked] at hlive
    cases hlive
  · refine hp.startInBlock_eq ht.toGridded hserves hx fun hdead => hout ((hfreed _).2 ⟨?_, hdead⟩)
    exact ht.count ▸ ht.layout.indexOf_lt hx

end Heap.Shown

namespace Heap

variable {h : Heap}

/-- Objects of the heap, marked in a new bitmap that covers it. -/
theorem Tabled.shown (ht : h.Tabled) {base : Address} {covered : WordCount}
    (haligned : base.toNat % 8 = 0) (hfits : base.toNat + 8 * covered.toNat < 2 ^ 64)
    (hbase : base.toNat ≤ h.layout.base.toNat)
    (hstop : h.layout.stop.toNat ≤ base.toNat + 8 * covered.toNat) {as : List Address}
    {sizes : Address → WordCount} (hnodup : as.Nodup)
    (has : ∀ a ∈ as, h.PlacedAt a (sizes a) ∧ a.toNat % 8 = 0 ∧ 0 < (sizes a).toNat) :
    h.Shown ((Bitmap.new base covered).markAll (fun a => (sizes a).toNat) as)
      (Bitmap.new base covered).grid (· ∈ as) sizes := by
  refine ⟨ht, Bitmap.covers_grid haligned hfits hbase hstop,
    Bitmap.shows_marked haligned hfits hnodup fun a ha => ?_, fun a ha => (has a ha).1,
    fun a ha => (has a ha).2.2⟩
  obtain ⟨hplaced, hword, hpos⟩ := has a ha
  obtain ⟨h1, h2⟩ := hplaced.bounds ht
  exact ⟨hbase.trans h1, hword, hpos, h2.trans hstop⟩

/-- Planning gives every region one role, frees the regions of dead humongous objects and nothing
else, and counts every live object and every live word once. -/
theorem Tabled.classified_build (ht : h.Tabled) (hserves : h.starts.Serves h.layout)
    {base : Address} {covered : WordCount} (haligned : base.toNat % 8 = 0)
    (hfits : base.toNat + 8 * covered.toNat < 2 ^ 64)
    (hbase : base.toNat ≤ h.layout.base.toNat)
    (hstop : h.layout.stop.toNat ≤ base.toNat + 8 * covered.toNat) {as : List Address}
    {sizes : Address → WordCount} (hnodup : as.Nodup)
    (has : ∀ a ∈ as, h.PlacedAt a (sizes a) ∧ a.toNat % 8 = 0 ∧ 0 < (sizes a).toNat) :
    let b := (Bitmap.new base covered).markAll (fun a => (sizes a).toNat) as
    Classified h b (Plan.build h b).1 (Plan.build h b).2 :=
  (ht.shown haligned hfits hbase hstop hnodup has).classified hserves

/-- Two humongous objects side by side in four regions, of which the second one, which ends where
the heap ends, is marked. -/
theorem Tabled.classified_build_runs : ∃ h : Heap, h.Tabled ∧ h.starts.Serves h.layout ∧
    h.HumongousRun 0 20 ∧ h.HumongousRun 2 32 ∧ h.layout.bottom 4 = h.layout.stop ∧
      let b := (Bitmap.new 0x10000 64).markAll (fun _ => 32) [h.layout.bottom 2]
      Classified h b (Plan.build h b).1 (Plan.build h b).2 := by
  let config : Config := { regionShift := 4, numRegions := 4, blockShift := 2 }
  have hv : config.Valid := by decide
  have hb : config.Backed 0x10000 := by decide
  obtain ⟨h₀, hnew, -⟩ := new_eq hv hb
  obtain ⟨hs₀, hlayout, hcount, hregions⟩ := table_new hv hb hnew
  have ht₀ := hs₀.toTabled
  have hcount : h₀.regions.size = 4 := hcount
  have hserves₀ : h₀.starts.Serves h₀.layout := by
    rw [starts_new hnew]
    exact StartTable.serves_new hs₀.layout
  have hneeded : (h₀.layout.regionsFor 20).toNat = 2 ∧ (h₀.layout.regionsFor 32).toNat = 2 := by
    rw [hlayout]
    decide
  have hfree : ∀ i < 4, (h₀.region i).kind = .free := fun i hi => by
    rw [hregions i (by omega)]
    rfl
  have hrun₀ : h₀.FreeRun 0 20 := ⟨by decide, by decide, by omega, fun i _ hi => hfree i (by omega)⟩
  obtain ⟨hground, hstarts⟩ := And.intro (sameGround_installHumongous h₀ 0 20)
    (starts_installHumongous h₀ 0 20)
  have ht₁ := tabled_installHumongous hrun₀ ht₀
  have hinstalled := hrun₀.installed ht₀
  have hkept : ∀ i, 2 ≤ i → (h₀.installHumongous 0 20).region i = h₀.region i := fun i hi =>
    FreeRun.region_kept (.inr (by omega))
  generalize h₀.installHumongous 0 20 = h₁ at *
  have hlayout₁ := hground.layout.trans hlayout
  have hrun₁ : h₁.FreeRun 2 32 := by
    refine ⟨by decide, by decide, ?_, fun i h1 h2 => ?_⟩
    · rw [hground.layout, hground.size]
      omega
    · rw [hground.layout] at h2
      rw [hkept i h1, hfree i (by omega)]
  have hground₂ := sameGround_installHumongous h₁ 2 32
  have hrun := hrun₁.installed ht₁
  have ht := tabled_installHumongous hrun₁ ht₁
  have hlayout₂ := hground₂.layout.trans hlayout₁
  have hserves : (h₁.installHumongous 2 32).starts.Serves (h₁.installHumongous 2 32).layout := by
    rw [starts_installHumongous, hstarts, hlayout₂, ← hlayout]
    exact (hserves₀.record _).record _
  have hother := hrun₁.humongousRun ht₁.toGridded hinstalled (by rw [hground.size]; omega)
  refine ⟨h₁.installHumongous 2 32, ht, hserves, hother, hrun, by rw [hlayout₂]; decide, ?_⟩
  exact @classified_build _ ht hserves _ _ (by decide) (by decide) (by rw [hlayout₂])
    (by rw [hlayout₂]; decide) _ (fun _ => 32) (List.nodup_singleton _) fun a ha => by
      obtain rfl := List.mem_singleton.1 ha
      refine ⟨.inr ⟨2, ?_, hrun, rfl⟩, by rw [hlayout₂]; decide, by decide⟩
      rw [hground₂.size, hground.size]
      omega

end Heap

end MarkCompact
