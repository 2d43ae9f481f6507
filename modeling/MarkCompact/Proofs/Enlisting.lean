/-
MarkCompact/Proofs/Enlisting.lean

The regions that take part in a collection in the parallel style.

Planning enlists regular regions: each of them becomes a source and a destination, its
objects are announced to the encoding, and it is empty as a destination.  From then on a
region of the part differs from what it was by its flags and by how far it has been filled
(`Heap.Enlisted`), and the regions are used for the same as before (`Heap.SameUse`) until
the tops are set at the end.

Main result: `ParallelCycle.plan_spec`.
-/
import MarkCompact.Proofs.Recording
import MarkCompact.Proofs.Settling
import MarkCompact.Proofs.Loops
import MarkCompact.Proofs.Berths
import MarkCompact.Collection.Parallel

namespace MarkCompact

/-- The region as a member of the part that has been filled up to `top`. -/
def Region.enlisted (r : Region) (top : Address) : Region :=
  { r with compactionTop := top, compacting := true, ready := false }

namespace Heap

/-! ### Regions that are used for the same -/

/-- The regions are used for the same as before, whatever a collection has noted in them. -/
structure SameUse (h g : Heap) : Prop where
  layout : g.layout = h.layout
  size : g.regions.size = h.regions.size
  headers : g.compactHeaders = h.compactHeaders
  extent : ∀ i, (g.region i).index = (h.region i).index ∧
    (g.region i).bottom = (h.region i).bottom ∧ (g.region i).stop = (h.region i).stop
  use : ∀ i, (g.region i).kind = (h.region i).kind ∧ (g.region i).top = (h.region i).top

namespace SameUse

variable {h g g' : Heap}

theorem refl (h : Heap) : h.SameUse h :=
  ⟨rfl, rfl, rfl, fun _ => ⟨rfl, rfl, rfl⟩, fun _ => ⟨rfl, rfl⟩⟩

theorem trans (hu : h.SameUse g) (hu' : g.SameUse g') : h.SameUse g' := by
  refine ⟨hu'.layout.trans hu.layout, hu'.size.trans hu.size, hu'.headers.trans hu.headers, ?_, ?_⟩
  · intro i
    obtain ⟨h1, h2, h3⟩ := hu.extent i
    obtain ⟨h4, h5, h6⟩ := hu'.extent i
    exact ⟨h4.trans h1, h5.trans h2, h6.trans h3⟩
  · intro i
    exact ⟨(hu'.use i).1.trans (hu.use i).1, (hu'.use i).2.trans (hu.use i).2⟩

/-- A region that is changed in what collections note in it only. -/
theorem modifyRegion (h : Heap) (i : Nat) {change : Region → Region}
    (hextent : ∀ r, (change r).index = r.index ∧ (change r).bottom = r.bottom ∧
      (change r).stop = r.stop)
    (huse : ∀ r, (change r).kind = r.kind ∧ (change r).top = r.top) :
    h.SameUse (h.modifyRegion i change) := by
  refine ⟨rfl, size_modifyRegion .., rfl, ?_, ?_⟩
  · intro j
    rw [region_modifyRegion]
    split
    · exact hextent _
    · exact ⟨rfl, rfl, rfl⟩
  · intro j
    rw [region_modifyRegion]
    split
    · exact huse _
    · exact ⟨rfl, rfl⟩

theorem retopped (hu : h.SameUse g) (ht : h.Tabled) : h.Retopped g := by
  refine ⟨hu.layout, hu.size, fun i _ => hu.extent i, fun i _ _ => hu.use i, ?_⟩
  intro i hi hk
  obtain ⟨h1, h2⟩ := hu.use i
  obtain ⟨h3, h4, h5⟩ := ht.top i hi
  rw [h1, h2]
  exact ⟨hk, h3, h4, h5, ht.free i hi⟩

theorem tabled (hu : h.SameUse g) (ht : h.Tabled) : g.Tabled :=
  (hu.retopped ht).tabled ht

/-- Objects are objects as long as the memory is the same. -/
theorem objectAt (hu : h.SameUse g) (ht : h.Tabled) (hmem : g.memory = h.memory) {t : ClassTable}
    {a : Address} {c : ClassInfo} {words : WordCount} (ho : h.ObjectAt t a c words) :
    g.ObjectAt t a c words := by
  refine ⟨?_, ?_, ?_, ho.whole, ?_, ?_⟩
  · rw [contains_congr hu.layout (hmem ▸ Memory.SameSpan.refl _)]
    exact ho.inside
  · rw [infoOf_congr hmem]
    exact ho.info
  · rw [size_congr hmem]
    exact ho.size
  · rw [hmem, hu.headers]
    exact ho.mark
  · rcases ho.place with ⟨i, hi, hk, h1, h2⟩ | ⟨i, hi, hrun, rfl⟩
    · refine .inl ⟨i, by rwa [hu.size], (hu.use i).1.trans hk, ?_, ?_⟩
      · rwa [hu.layout]
      · rwa [(hu.use i).2]
    · refine .inr ⟨i, by rwa [hu.size], (hu.retopped ht).humongousRun ht.toGridded hrun hi, ?_⟩
      rw [hu.layout]

/-- So is the heap with its objects. -/
theorem stocked (hu : h.SameUse g) (hmem : g.memory = h.memory) {t : ClassTable} {b : Bitmap}
    {live : Address → Prop} (hs : Stocked h t b live) : Stocked g t b live := by
  have hwords : g.wordsAt t = h.wordsAt t := funext fun a => wordsAt_congr hmem
  refine ⟨hu.tabled hs.tabled, hs.mapped.of_span hu.layout (hmem ▸ Memory.SameSpan.refl _),
    hs.classes, hs.headers.trans hu.headers.symm, ⟨fun a ha => ?_, ?_⟩, ?_⟩
  · obtain ⟨c, words, ho⟩ := hs.populated.object a ha
    exact ⟨c, words, hu.objectAt hs.tabled hmem ho⟩
  · rw [hwords]
    exact hs.populated.disjoint
  · rw [hwords, hu.layout]
    exact hs.shows

theorem liveIn (hu : h.SameUse g) (b : Bitmap) (i : Nat) : g.liveIn b i = h.liveIn b i := by
  unfold Heap.liveIn
  rw [(hu.extent i).2.1, (hu.use i).2]

theorem liveList (hu : h.SameUse g) (b : Bitmap) : g.liveList b = h.liveList b := by
  unfold Heap.liveList indices
  rw [hu.size]
  exact congrArg (List.flatMap · _) (funext (hu.liveIn b))

end SameUse

/-! ### Regions that take part -/

/-- The table of starts without the entries of the part. -/
def clearedStarts (h : Heap) (part : List Nat) : StartTable :=
  h.starts.forget h.layout part

/-- The heap `g` is `h` with the regions of the part enlisted and filled up to `tops`. -/
structure Enlisted (h : Heap) (part : List Nat) (tops : Nat → Address) (g : Heap) : Prop where
  layout : g.layout = h.layout
  size : g.regions.size = h.regions.size
  headers : g.compactHeaders = h.compactHeaders
  member : ∀ i ∈ part, g.region i = (h.region i).enlisted (tops i)
  other : ∀ i, i ∉ part → g.region i = h.region i

namespace Enlisted

variable {h g : Heap} {part : List Nat} {tops : Nat → Address}

/-- One more region is enlisted. -/
theorem snoc {g' : Heap} {done : List Nat}
    (hen : h.Enlisted done h.layout.bottom g) (hg : h.Gridded) {i : Nat} (hi : i < h.regions.size)
    (hnew : i ∉ done) (hlayout : g'.layout = g.layout)
    (hheaders : g'.compactHeaders = g.compactHeaders)
    (hregions : g'.regions = (g.modifyRegion i Region.beginCompaction).regions) :
    h.Enlisted (done ++ [i]) h.layout.bottom g' := by
  have hregion : ∀ j, g'.region j = (g.modifyRegion i Region.beginCompaction).region j := fun j => by
    unfold region
    rw [hregions]
  refine ⟨hlayout.trans hen.layout, ?_, hheaders.trans hen.headers, ?_, ?_⟩
  · rw [hregions, size_modifyRegion, hen.size]
  · intro j hj
    rw [hregion, region_modifyRegion, hen.size]
    rcases List.mem_append.1 hj with hj | hj
    · have hne : i ≠ j := by
        rintro rfl
        exact hnew hj
      rw [if_neg fun hh => hne hh.1]
      exact hen.member j hj
    · obtain rfl := List.mem_singleton.1 hj
      rw [if_pos ⟨rfl, hi⟩, ← hg.bottom j hi, hen.other j hnew]
      rfl
  · intro j hj
    rw [List.mem_append, not_or, List.mem_singleton] at hj
    rw [hregion, region_modifyRegion, if_neg fun hh => hj.2 hh.1.symm]
    exact hen.other j hj.1

theorem sameUse (he : h.Enlisted part tops g) : h.SameUse g := by
  refine ⟨he.layout, he.size, he.headers, ?_, ?_⟩
  · intro i
    by_cases hi : i ∈ part
    · rw [he.member i hi]
      exact ⟨rfl, rfl, rfl⟩
    · rw [he.other i hi]
      exact ⟨rfl, rfl, rfl⟩
  · intro i
    by_cases hi : i ∈ part
    · rw [he.member i hi]
      exact ⟨rfl, rfl⟩
    · rw [he.other i hi]
      exact ⟨rfl, rfl⟩

/-- Only the region table matters. -/
theorem of_regions {g' : Heap} (he : h.Enlisted part tops g) (hlayout : g'.layout = g.layout)
    (hheaders : g'.compactHeaders = g.compactHeaders) (hregions : g'.regions = g.regions) :
    h.Enlisted part tops g' := by
  have hregion : ∀ i, g'.region i = g.region i := fun i => by
    unfold Heap.region
    rw [hregions]
  refine ⟨hlayout.trans he.layout, by rw [hregions, he.size], hheaders.trans he.headers, ?_, ?_⟩
  · intro i hi
    rw [hregion]
    exact he.member i hi
  · intro i hi
    rw [hregion]
    exact he.other i hi

/-- Another region has been filled up to another place. -/
theorem setTop (he : h.Enlisted part tops g) {i : Nat} (hi : i ∈ part) (hlt : i < h.regions.size)
    (top : Address) :
    h.Enlisted part (Function.update tops i top)
      (g.modifyRegion i fun r => { r with compactionTop := top }) := by
  refine ⟨he.layout, by rw [size_modifyRegion, he.size], he.headers, ?_, ?_⟩
  · intro j hj
    rw [region_modifyRegion, he.size]
    by_cases hij : i = j
    · subst hij
      rw [if_pos ⟨rfl, hlt⟩, he.member i hi, Function.update_self]
      rfl
    · rw [if_neg fun hh => hij hh.1, he.member j hj, Function.update_of_ne fun hh => hij hh.symm]
  · intro j hj
    rw [region_modifyRegion, if_neg]
    · exact he.other j hj
    · rintro ⟨rfl, -⟩
      exact hj hi

end Enlisted

end Heap

/-! ### What is announced -/

namespace Forwarding

/-- What is live in the regions of the part has been announced. -/
structure Announced.Covers (n : Announced) (h : Heap) (b : Bitmap) (part : List Nat) : Prop where
  layout : n.layout = h.layout
  compact : n.compact = h.compactHeaders
  member : ∀ i ∈ part, n.expected i = some (h.liveIn b i).length

/-- What has been announced is what is live in the regions of the part. -/
structure Announced.Lists (n : Announced) (h : Heap) (b : Bitmap) (part : List Nat) : Prop
    extends n.Covers h b part where
  other : ∀ i, i ∉ part → n.expected i = none

theorem Announced.Lists.announce {n : Announced} {h : Heap} {b : Bitmap} {part : List Nat} {i : Nat}
    (hn : n.Lists h b part) : (n.announce i (h.liveIn b i).length).Lists h b (part ++ [i]) := by
  refine ⟨⟨hn.layout, hn.compact, ?_⟩, ?_⟩
  · intro j hj
    unfold Announced.announce
    dsimp only
    by_cases hij : j = i
    · rw [hij, Function.update_self]
    · rw [Function.update_of_ne hij]
      apply hn.member j
      rcases List.mem_append.1 hj with hj | hj
      · exact hj
      · exact absurd (List.mem_singleton.1 hj) hij
  · intro j hj
    rw [List.mem_append, not_or, List.mem_singleton] at hj
    unfold Announced.announce
    dsimp only
    rw [Function.update_of_ne hj.2]
    exact hn.other j hj.1

theorem encoding_start (f : Forwarding) (entries : Nat) :
    (f.start.reserve entries).encoding = f.encoding := by
  cases f <;> rfl

end Forwarding

/-- Fewer than `2 ^ 24` objects begin in a region. -/
theorem Stocked.length_liveIn_lt {h : Heap} {t : ClassTable} {b : Bitmap} {live : Address → Prop}
    (hs : Stocked h t b live) {i : Nat} (hi : i < h.regions.size)
    (hk : (h.region i).kind.isHumongous = false) : (h.liveIn b i).length < 2 ^ 24 := by
  have hl := hs.tabled.layout
  have hi' : i < h.layout.numRegions := by rwa [← hs.tabled.count]
  have htop := hs.tabled.top i hi
  rw [hs.tabled.bottom i hi, hs.tabled.stop i hi, hl.toNat_regionStop hi'] at htop
  have hmem := fun a => (hs.mem_liveIn hi a).1
  -- the objects of a region have at least a word each and do not overlap
  have hpacked : (h.layout.bottom i).toNat + 8 * ((h.liveIn b i).map (h.wordsAt t)).sum
      ≤ (h.region i).top.toNat := Berth.packed_le
    ((hs.pairwise_liveIn hi).imp_of_mem fun ha hc hlt =>
      hs.populated.disjoint _ _ (hmem _ ha).1 (hmem _ hc).1 hlt) htop.1 (by
      intro a ha
      obtain ⟨hlive, rfl⟩ := hmem a ha
      refine ⟨?_, hs.end_le_top hlive hk⟩
      rw [← hs.tabled.bottom _ hi]
      exact (hs.region hlive).2.1)
  have hcount : (h.liveIn b i).length ≤ ((h.liveIn b i).map (h.wordsAt t)).sum := by
    have := List.length_le_sum_of_one_le ((h.liveIn b i).map (h.wordsAt t)) (by
      intro n hn
      obtain ⟨a, ha, rfl⟩ := List.mem_map.1 hn
      exact hs.wordsAt_pos (hmem a ha).1)
    rwa [List.length_map] at this
  have hstride := hl.stride_le
  omega

/-! ### The plan -/

namespace Planned

variable {h₀ h : Heap} {t : ClassTable} {b : Bitmap} {p : Plan} {live : Address → Prop}

/-- The regions of the part were regular and are left alone by planning. -/
theorem region_compacting (hp : Planned h₀ b p h) {i : Nat} (hi : i ∈ p.compacting) :
    p.densePrefix ≤ i ∧ i < h.regions.size ∧ h.region i = h₀.region i ∧
      (h.region i).kind = .regular := by
  rw [hp.compacting, List.mem_filter, List.mem_range'_1] at hi
  have hk : (h₀.region i).kind = .regular := by simpa [Heap.isRegularAt] using hi.2
  have hle := hp.dense_le
  have hsame := hp.kept i (Plan.not_deadRun_of_kind (.inl hk))
  refine ⟨hi.1.1, ?_, hsame, ?_⟩
  · rw [hp.ground.size]
    omega
  · rw [hsame]
    exact hk

theorem part (hp : Planned h₀ b p h) : h.Part p.compacting := by
  refine ⟨?_, fun i hi => (hp.region_compacting hi).2.1, fun i hi => ?_⟩
  · rw [hp.compacting]
    exact List.Pairwise.filter _ List.pairwise_lt_range'
  · rw [(hp.region_compacting hi).2.2.2]
    rfl

/-- A regular region past the dense prefix takes part. -/
theorem mem_compacting (hp : Planned h₀ b p h) {i : Nat} (hd : p.densePrefix ≤ i)
    (hi : i < h.regions.size) (hk : (h.region i).kind = .regular) : i ∈ p.compacting := by
  rw [hp.ground.size] at hi
  have hsame : h.region i = h₀.region i := by
    apply hp.kept
    intro hdead
    rw [hp.freed i hi hdead] at hk
    cases hk
  rw [hp.compacting, List.mem_filter, List.mem_range'_1]
  refine ⟨by omega, ?_⟩
  rw [hsame] at hk
  simp [Heap.isRegularAt, hk]

/-- The number of objects that is announced for a region. -/
theorem liveObjects_summary (hp : Planned h₀ b p h) {i : Nat} (hi : i ∈ p.compacting) :
    (p.summary i).liveObjects = (h.liveIn b i).length := by
  obtain ⟨-, hlt, hsame, -⟩ := hp.region_compacting hi
  rw [hp.ground.size] at hlt
  unfold Plan.summary Heap.liveIn
  rw [hp.summaries, hsame, Bitmap.length_markedIn, h₀.region_eq_getElem hlt]
  simp [summarize, hlt]

/-- The number of objects for which room is made. -/
theorem liveObjects_eq (hp : Planned h₀ b p h) : p.liveObjects = (h₀.liveList b).length := by
  unfold Plan.liveObjects Heap.liveList
  rw [hp.summaries, List.length_flatMap, summarize, h₀.toList_regions, List.map_map, List.map_map]
  show List.sum _ = _
  refine congrArg List.sum (List.map_congr_left fun i _ => ?_)
  exact (Bitmap.length_markedIn b _ _).symm

end Planned

namespace ParallelCycle

/-- What the regions that have been enlisted leave: `h` is the planned heap, and `s₀` is what the
cycle began with. -/
structure Announcing (h : Heap) (b : Bitmap) (entries : Nat) (s₀ : Relocation) (done : List Nat)
    (s : Relocation) (n : Forwarding.Announced) : Prop where
  lists : n.Lists h b done
  total : n.total = entries
  enlisted : h.Enlisted done h.layout.bottom s.heap
  memory : s.heap.memory = h.memory
  starts : s.heap.starts = h.clearedStarts done
  records : s.forwarding.Records n h.memory h.memory []
  encoding : s.forwarding.encoding = s₀.forwarding.encoding
  saved : s.saved = s₀.saved

/-- At first room is made for the records, and nothing is announced. -/
theorem announcing_start {h : Heap} {b : Bitmap} {entries : Nat} {s₀ : Relocation}
    (hready : s₀.forwarding.Ready h.layout h.compactHeaders) (hentries : entries < 2 ^ 32) :
    Announcing h b entries s₀ []
      { s₀ with heap := h, forwarding := s₀.forwarding.start.reserve entries }
      ⟨h.layout, h.compactHeaders, entries, fun _ => none⟩ where
  lists := ⟨⟨rfl, rfl, by simp⟩, fun _ _ => rfl⟩
  total := rfl
  enlisted := ⟨rfl, rfl, rfl, by simp, fun _ _ => rfl⟩
  memory := rfl
  starts := rfl
  records := Forwarding.records_start
    (n := ⟨h.layout, h.compactHeaders, entries, fun _ => none⟩) hready rfl hentries h.memory
  encoding := Forwarding.encoding_start ..
  saved := rfl

/-- One more region is enlisted, and its objects are announced. -/
theorem Announcing.snoc {h₀ h : Heap} {t : ClassTable} {b : Bitmap} {p : Plan}
    {live : Address → Prop} {entries : Nat} {s₀ s : Relocation} {done : List Nat}
    {n : Forwarding.Announced} (ha : Announcing h b entries s₀ done s n)
    (hp : Planned h₀ b p h) (hs : Surveyed h t b live) {i : Nat} (hi : i ∈ p.compacting)
    (hnew : i ∉ done) :
    ∃ s', enlist p s i = .ok s' ∧
      Announcing h b entries s₀ (done ++ [i]) s' (n.announce i (h.liveIn b i).length) := by
  have hlt := hp.part.inside i hi
  have hcount := hs.length_liveIn_lt hlt (hp.part.regular i hi)
  have hlayout := ha.lists.layout
  obtain ⟨f, hbegin, hrecords, hencoding⟩ := ha.records.beginRegion
    (by rw [hlayout]; exact hs.tabled.layout)
    (by rw [hlayout, ← hs.tabled.count]; exact hlt) (ha.lists.other i hnew)
    (ha.records.accommodates hcount)
  -- the region has not been changed yet, so the starts of the planned one are cleared
  have hbottom : (s.heap.region i).bottom = h.layout.bottom i := by
    rw [ha.enlisted.other i hnew, hs.tabled.bottom i hlt]
  have hstop : (s.heap.region i).stop = h.layout.regionStop i := by
    rw [ha.enlisted.other i hnew, hs.tabled.stop i hlt]
  refine ⟨_, bind_eq_ok (by rw [hp.liveObjects_summary hi]; exact hbegin) rfl,
    ha.lists.announce, ha.total, ha.enlisted.snoc hs.tabled.toGridded hlt hnew rfl rfl rfl,
    ha.memory, ?_, hrecords, hencoding.trans ha.encoding, ha.saved⟩
  show s.heap.starts.clearRange (s.heap.region i).bottom (s.heap.region i).stop = _
  unfold Heap.clearedStarts
  rw [hbottom, hstop, ha.starts, StartTable.forget_append]
  rfl

/-- Planning enlists the regular regions past the dense prefix and announces their objects. -/
theorem plan_spec {c : ParallelCycle} {h₀ h : Heap} {t : ClassTable} {p : Plan}
    {live : Address → Prop} (hheap : c.state.heap = h₀) (hbuild : Plan.build h₀ c.bitmap = (p, h))
    (hp : Planned h₀ c.bitmap p h) (hs₀ : Surveyed h₀ t c.bitmap live)
    (hs : Surveyed h t c.bitmap live)
    (hready : c.state.forwarding.Ready h₀.layout h₀.compactHeaders) :
    ∃ n f g, c.plan = .ok (p, { c with state := { c.state with heap := g, forwarding := f } }) ∧
      n.Lists h c.bitmap p.compacting ∧ n.total = (h₀.liveList c.bitmap).length ∧
      h.Enlisted p.compacting h.layout.bottom g ∧ g.memory = h.memory ∧
      g.starts = h.clearedStarts p.compacting ∧ f.Records n h.memory h.memory [] ∧
      f.encoding = c.state.forwarding.encoding := by
  have hready' : c.state.forwarding.Ready h.layout h.compactHeaders := by
    rw [hp.ground.layout, hp.ground.headers]
    exact hready
  have hstart := announcing_start (b := c.bitmap) hready' hs₀.length_liveList_lt
  obtain ⟨s, hrun, n, ha⟩ := foldlM_induct (f := enlist p)
    (fun done s => ∃ n, Announcing h c.bitmap (h₀.liveList c.bitmap).length c.state done s n)
    p.compacting _ ⟨_, hstart⟩ fun done i rest s heq ⟨n, ha⟩ => by
      have hasc := hp.part.ascending
      rw [heq] at hasc
      have hnew : i ∉ done := fun hin =>
        Nat.lt_irrefl i ((List.pairwise_append.1 hasc).2.2 i hin i List.mem_cons_self)
      obtain ⟨s', hrun, ha'⟩ := ha.snoc hp hs (by simp [heq]) hnew
      exact ⟨s', hrun, _, ha'⟩
  refine ⟨n, s.forwarding, s.heap, ?_, ha.lists, ha.total, ha.enlisted, ha.memory, ha.starts,
    ha.records, ha.encoding⟩
  have hback : s = { c.state with heap := s.heap, forwarding := s.forwarding } := by
    show s = ⟨s.heap, s.forwarding, c.state.saved⟩
    rw [← ha.saved]
  unfold plan
  rw [hheap, hbuild]
  dsimp only
  rw [hp.liveObjects_eq, hrun, ← hback]
  rfl

end ParallelCycle

end MarkCompact
