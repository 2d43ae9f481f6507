/-
MarkCompact/Proofs/ParallelCharts.lean

What a parallel collection makes of a chart.

A region that does not take part keeps its objects, the dead ones among them.  A region of the
part is filled again from its bottom, and berths follow one another in it without a gap
(`Berth.Joins`), but for objects that are kept in place: between two objects that stay the dead
ones of before lie as they lay, because nothing has been written there.  Where there is a gap
before the first berth of a region, nothing is said of it.

The table of starts is read off the phases: the starts of the part are forgotten, those of the
berths recorded, and every humongous object that moves takes its start along
(`HumongousMove.holds_startsAfter`, `finds_startsAfter`).

Main result: `ParallelCycle.Completed.charted`.
-/
import MarkCompact.Proofs.CollectedCharts
import MarkCompact.Proofs.ParallelRelocation

namespace MarkCompact

variable {h h₂ g h' : Heap} {t : ClassTable} {b : Bitmap} {live tile : Address → Prop}
  {part : List Nat} {n : Forwarding.Announced} {e : Encoding} {starts : StartTable} {kept : Nat}
  {tops : Nat → Address} {bs : List Berth} {vs : List HumongousMove} {s : Relocation}
  {release : Bool}

/-! ### Berths in a row -/

namespace Heap.Housed

variable (hh : h.Housed t b live part tops bs vs)
include hh

/-- The object of a berth is a live one of the part. -/
theorem live_object {p : Berth} (hp : p ∈ bs) :
    live p.object ∧ h.layout.indexOf p.object ∈ part := by
  rw [← hh.mem_objects, ← hh.laid.objects]
  exact List.mem_map_of_mem hp

theorem exists_berth {a : Address} (ha : live a) (hin : h.layout.indexOf a ∈ part) :
    ∃ p ∈ bs, p.object = a := by
  have hmem := hh.mem_objects.2 ⟨ha, hin⟩
  rw [← hh.laid.objects] at hmem
  exact List.mem_map.1 hmem

theorem placeOf_object {p : Berth} (hp : p ∈ bs) :
    Berth.placeOf (h.places bs vs) p.object = p.target := by
  obtain ⟨hlive, hin⟩ := hh.live_object hp
  rw [hh.placeOf_part hlive hin, Berth.placeOf_of_mem (hh.laid.nodup hh.ascending) hp]

theorem words_pos {p : Berth} (hp : p ∈ bs) : 0 < p.words := by
  have hpos := hh.surveyed.wordsAt_pos (hh.live_object hp).1
  have hle := (h.wordsFrom_le t p.object p.target).1
  rw [(hh.laid.berthed p hp).words]
  omega

/-- A berth lies in its region, which is one that is kept. -/
theorem within_berth {p : Berth} (hp : p ∈ bs) : p.space < h.layout.numRegions ∧
    h.layout.Within p.space 1 p.target p.words ∧ h.layout.indexOf p.target = p.space ∧
    h.Steady part tops vs p.space := by
  obtain ⟨hspace, hbottom, hstop, -, -, -⟩ := hh.laid.berthed p hp
  have hin := hh.isPart.inside _ hspace
  rw [hh.surveyed.tabled.count] at hin
  have hextent := (hh.laid.extent _ hspace).2.1
  have hpos := hh.words_pos hp
  rw [Layout.regionStop_eq_bottom_succ] at hextent
  have hwithin : h.layout.Within p.space 1 p.target p.words := ⟨hbottom, hstop.trans hextent⟩
  refine ⟨hin, hwithin, hwithin.indexOf hh.surveyed.tabled.layout hin hpos,
    hh.steady_of_regular (hh.regular _ hspace) fun _ hempty => ?_⟩
  rw [hempty] at hstop
  unfold Berth.stop at hstop
  omega

/-- Berths are in the order of their objects. -/
theorem stop_le_target {p q : Berth} (hp : p ∈ bs) (hq : q ∈ bs)
    (hlt : p.object.toNat < q.object.toNat) : p.stop ≤ q.target.toNat := by
  have hnodup := hh.laid.nodup hh.ascending
  have happart := hh.laid.apart hh.ascending (hh.mem_objects.2 (hh.live_object hp))
    (hh.mem_objects.2 (hh.live_object hq)) hlt
  rw [Berth.placeOf_of_mem hnodup hp, Berth.placeOf_of_mem hnodup hq,
    ← (hh.laid.berthed p hp).words] at happart
  exact happart

/-- If a region is filled farther than a berth, the next berth lies in it, too. -/
theorem exists_next (hchained : bs.IsChain Berth.Joins) {p : Berth} (hp : p ∈ bs)
    (hlt : p.stop < (tops p.space).toNat) :
    ∃ q ∈ bs, q.space = p.space ∧ p.object.toNat < q.object.toNat ∧
      (q.target.toNat = p.stop ∨ p.target = p.object ∧ q.target = q.object) ∧
      ∀ r ∈ bs, r.object.toNat ≤ p.object.toNat ∨ q.object.toNat ≤ r.object.toNat := by
  have hasc := hh.ascending
  have hl := hh.surveyed.tabled.layout
  rw [hh.laid.tops _ (hh.laid.berthed p hp).space] at hlt
  have hwithin := fun {r : Berth} (hr : r ∈ bs) => hh.within_berth hr
  have hwords := fun {r : Berth} (hr : r ∈ bs) => hh.words_pos hr
  have htargets := hh.laid.targets
  rw [← hh.laid.objects, List.pairwise_map] at hasc
  obtain ⟨before, after, rfl⟩ := List.append_of_mem hp
  cases after with
  | nil =>
    rw [h.topOf_snoc, if_pos rfl] at hlt
    exact absurd hlt (Nat.lt_irrefl _)
  | cons q after =>
    have hq : q ∈ before ++ p :: q :: after := by simp
    have hjoins := (List.isChain_append.1 hchained).2.1
    rw [List.isChain_cons_cons] at hjoins
    have hrow := (List.pairwise_append.1 hasc).2.1
    rw [List.pairwise_cons, List.pairwise_cons] at hrow
    have hcross := (List.pairwise_append.1 hasc).2.2
    have htrow := (List.pairwise_append.1 htargets).2.1
    rw [List.pairwise_cons, List.pairwise_cons] at htrow
    -- a berth of the region comes later, and the next one does not lie past it
    have hspace : q.space = p.space := by
      by_contra hne
      obtain ⟨r, hr, hrs⟩ : ∃ r ∈ q :: after, r.space = p.space := by
        by_contra hnone
        rw [show before ++ p :: q :: after = before ++ [p] ++ q :: after by simp,
          h.topOf_append _ fun r hr hrs => hnone ⟨r, hr, hrs⟩, h.topOf_snoc, if_pos rfl] at hlt
        exact absurd hlt (Nat.lt_irrefl _)
      have hrmem : r ∈ before ++ p :: q :: after := by
        rw [List.mem_append, List.mem_cons]
        exact .inr (.inr hr)
      have hqr : q.target.toNat ≤ r.target.toNat := by
        rcases List.mem_cons.1 hr with rfl | hr
        · exact le_refl _
        · have := htrow.2.1 r hr
          unfold Berth.stop at this
          omega
      obtain ⟨hin, ⟨hpbottom, -⟩, -, -⟩ := hwithin hp
      obtain ⟨-, ⟨-, hrstop⟩, -, -⟩ := hwithin hrmem
      have hrpos := hwords hrmem
      have hpq := htrow.1 q List.mem_cons_self
      have hstride := hl.toNat_regionStop hin
      rw [hrs, ← Layout.regionStop_eq_bottom_succ] at hrstop
      unfold Berth.stop at hpq
      refine hne ((hwithin hq).2.2.1.symm.trans (hl.indexOf_eq hin ?_ ?_)) <;> omega
    refine ⟨q, hq, hspace, hrow.1 q List.mem_cons_self, hjoins.1 hspace, fun r hr => ?_⟩
    rw [List.mem_append, List.mem_cons, List.mem_cons] at hr
    rcases hr with hr | rfl | rfl | hr
    · exact .inl (hcross r hr p List.mem_cons_self).le
    · exact .inl (le_refl _)
    · exact .inr (le_refl _)
    · exact .inr (hrow.2.1 r hr).le

end Heap.Housed

/-! ### What remains -/

/-- An address at which a dead object remains: in a region outside the part, or between two
objects of the part that stay. -/
def Heap.Remains (h : Heap) (live tile : Address → Prop) (part : List Nat) (bs : List Berth)
    (a : Address) : Prop :=
  tile a ∧ ¬ live a ∧
    (h.layout.indexOf a ∉ part ∧ (h.region (h.layout.indexOf a)).kind = .regular ∨
      ∃ p ∈ bs, ∃ q ∈ bs, q.space = p.space ∧ p.target = p.object ∧ q.target = q.object ∧
        p.object.toNat < a.toNat ∧ a.toNat < q.object.toNat ∧
        ∀ r ∈ bs, r.object.toNat ≤ p.object.toNat ∨ q.object.toNat ≤ r.object.toNat)

/-- Where a dead object remains nothing else is. -/
structure ParallelCycle.Spared (h h' : Heap) (t : ClassTable) (part : List Nat) (tops : Nat → Address)
    (bs : List Berth) (vs : List HumongousMove) (a : Address) (i : Nat) : Prop where
  inside : i < h.regions.size
  steady : h.Steady part tops vs i
  regular : (h'.region i).kind = .regular
  within : h.layout.Within i 1 a (h.wordsAt t a)
  top : a.toNat + 8 * h.wordsAt t a ≤ (h'.region i).top.toNat
  berths : ∀ p ∈ bs, p.space = i → p.target.Apart p.words a (h.wordsAt t a)

namespace ParallelCycle.Completed

variable (hc : Completed h t b live part n e starts kept tops bs vs s release h₂ g h')
  (hchart : h.Charted t live tile)
include hc

/-- A word that belongs to no live object, neither before nor after, is found unchanged in a
region that is used. -/
theorem load_untouched {x : Address} {i : Nat} (hi : i < h.regions.size)
    (hused : (h'.region i).kind ≠ .free) (h1 : (h.layout.bottom i).toNat ≤ x.toNat)
    (h2 : x.toNat < (h.layout.regionStop i).toNat)
    (hbefore : ∀ a, live a → ∀ k < h.wordsAt t a, x ≠ a.nth k)
    (hafter : ∀ a, live a → x.toNat < (Berth.placeOf (h.places bs vs) a).toNat ∨
      (Berth.placeOf (h.places bs vs) a).toNat
        + 8 * h.wordsFrom t a (Berth.placeOf (h.places bs vs) a) ≤ x.toNat) :
    h'.memory.load x = h.memory.load x := by
  have hh := hc.housed
  have hs := hc.surveyed
  obtain ⟨m, hm, hload⟩ := hc.used_memory
  rw [hload i hi hused x h1 h2, hc.load_restored fun a ha _ _ _ heq => ?marks,
    hm.elsewhere x ?humongous, hc.moved.elsewhere x ?moves, hc.adjusted.load, if_neg ?fields]
  · refine hc.forwarded.records.elsewhere x fun hmem => ?_
    obtain ⟨r, hr, rfl⟩ := List.mem_map.1 hmem
    have ha := hc.forwarded.live_of_mem hr
    exact hbefore r.1 ha 0 (hs.wordsAt_pos ha) (Address.nth_zero r.1).symm
  case marks =>
    have hpos := hs.wordsAt_pos ha
    have hle := (h.wordsFrom_le t a (Berth.placeOf (h.places bs vs) a)).1
    have := hafter a ha
    rw [heq] at this hle
    omega
  case humongous =>
    intro y hy
    obtain ⟨r, hr, rfl⟩ := List.mem_map.1 hy
    obtain ⟨v, hv, rfl⟩ := List.mem_map.1 hr
    have := hafter _ (hh.resettled.rehoused v hv).live
    rwa [hh.placeOf_humongous hv, hh.wordsFrom_run hv] at this
  case moves =>
    intro y hy
    obtain ⟨r, hr, rfl⟩ := List.mem_map.1 hy
    obtain ⟨a, ha, hmoves, rfl⟩ := Heap.mem_recordsOf.1 hr
    have hlive := (hh.mem_objects.1 ha).1
    have := hafter a hlive
    unfold Heap.wordsFrom at this
    rw [if_neg hmoves] at this
    rw [Heap.words_transfer_recordFor hs hlive]
    exact this
  case fields =>
    intro hmem
    obtain ⟨a, ha, hx⟩ := List.mem_flatMap.1 hmem
    have hlive := (hs.mem_liveList a).1 ha
    obtain ⟨k, -, hk, rfl⟩ := hs.mem_fieldsAt hlive hx
    exact hbefore a hlive k hk rfl

include hchart

/-- Between two objects that stay nothing is written. -/
theorem spared_between {a : Address} (ha : tile a) {p q : Berth} (hp : p ∈ bs) (hq : q ∈ bs)
    (hspace : q.space = p.space) (hpstays : p.target = p.object) (hqstays : q.target = q.object)
    (hpa : p.object.toNat < a.toNat) (haq : a.toNat < q.object.toNat)
    (hnone : ∀ r ∈ bs, r.object.toNat ≤ p.object.toNat ∨ q.object.toNat ≤ r.object.toNat) :
    Spared h h' t part tops bs vs a p.space := by
  have hh := hc.housed
  have htile := fun {r : Berth} (hr : r ∈ bs) => (hchart.found _ (hh.live_object hr).1).1
  obtain ⟨hin, ⟨hpbottom, -⟩, -, hsteady⟩ := hh.within_berth hp
  obtain ⟨-, ⟨-, hqstop⟩, -, -⟩ := hh.within_berth hq
  have hmember := (hh.laid.berthed p hp).space
  have hregion := hc.finished.refilled.region_part hh hmember hsteady
  have hbefore := hchart.apart _ _ (htile hp) ha hpa
  have hafter := hchart.apart _ _ ha (htile hq) haq
  have htop := (hh.laid.berthed q hq).stop
  have hpwords : p.words = h.wordsAt t p.object := by
    rw [(hh.laid.berthed p hp).words, Heap.wordsFrom, if_pos hpstays]
  rw [hspace] at hqstop htop
  rw [hpstays] at hpbottom
  unfold Berth.stop at htop
  rw [hqstays] at hqstop htop
  refine ⟨hh.isPart.inside _ hmember, hsteady, ?_, ⟨by omega, by omega⟩, ?_, fun r hr _ => ?_⟩
  · rw [hregion]
    exact hh.regular _ hmember
  · rw [hregion]
    show _ ≤ (tops p.space).toNat
    omega
  · unfold Address.Apart
    rcases hnone r hr with hle | hle
    · refine .inl ?_
      rcases Nat.eq_or_lt_of_le hle with heq | hlt
      · have hobject := UInt64.toNat_inj.1 heq
        have htarget : r.target = p.target := by
          rw [← hh.placeOf_object hr, ← hh.placeOf_object hp, hobject]
        have hwords : r.words = p.words := by
          rw [(hh.laid.berthed r hr).words, (hh.laid.berthed p hp).words, hobject, htarget]
        rw [htarget, hwords, hpstays, hpwords]
        exact hbefore
      · have := hh.stop_le_target hr hp hlt
        unfold Berth.stop at this
        rw [hpstays] at this
        omega
    · refine .inr ?_
      rcases Nat.eq_or_lt_of_le hle with heq | hlt
      · have htarget : r.target = q.target := by
          rw [← hh.placeOf_object hr, ← hh.placeOf_object hq, UInt64.toNat_inj.1 heq]
        rw [htarget, hqstays]
        exact hafter
      · have := hh.stop_le_target hq hr hlt
        unfold Berth.stop at this
        rw [hqstays] at this
        omega

theorem spared_of_remains {a : Address} (ha : h.Remains live tile part bs a) :
    ∃ i, Spared h h' t part tops bs vs a i := by
  have hh := hc.housed
  have ht := hh.surveyed.tabled
  obtain ⟨htile, -, ⟨hout, hk⟩ | ⟨p, hp, q, hq, hspace, hps, hqs, hpa, haq, hnone⟩⟩ := ha
  · obtain ⟨hin, hi, hbottom, htop⟩ := hchart.region ht htile
    have hi' : h.layout.indexOf a < h.layout.numRegions := by rwa [← ht.count]
    have hsteady := hh.steady_of_regular hk fun hmem => absurd hmem hout
    have hregion := hc.finished.refilled.region_kept hi hout hsteady
    obtain ⟨h1, h2⟩ := ht.layout.bottom_indexOf hin
    have hstride := ht.layout.toNat_regionStop hi'
    have hle : a.toNat + 8 * h.wordsAt t a ≤ (h.region (h.layout.indexOf a)).top.toNat := by
      rcases hchart.cases ht htile hi h1 (by omega) with ⟨-, hle⟩ | ⟨-, words, -, hrun⟩
      · exact hle
      · rw [hrun.start] at hk
        cases hk
    have hstop := (ht.top _ hi).2.1
    rw [ht.stop _ hi, Layout.regionStop_eq_bottom_succ] at hstop
    refine ⟨_, hi, hsteady, by rwa [hregion], ⟨h1, hle.trans hstop⟩, by rwa [hregion],
      fun p hp hspace => ?_⟩
    exact absurd (hspace ▸ (hh.laid.berthed p hp).space) hout
  · exact ⟨_, hc.spared_between hchart htile hp hq hspace hps hqs hpa haq hnone⟩

/-- No live object comes to where a dead one remains. -/
theorem apart_remains {a c : Address} (ha : live a) (hremains : h.Remains live tile part bs c) :
    (Berth.placeOf (h.places bs vs) a).Apart
      (h.wordsFrom t a (Berth.placeOf (h.places bs vs) a)) c (h.wordsAt t c) := by
  have hh := hc.housed
  have ht := hh.surveyed.tabled
  have hl := ht.layout
  obtain ⟨i, hspared⟩ := hc.spared_of_remains hchart hremains
  have hi : i + 1 ≤ h.layout.numRegions := by
    rw [← ht.count]
    exact hspared.inside
  rcases hh.cases ha with ⟨hin, -⟩ | ⟨v, hv, rfl, heq⟩ | ⟨-, -, heq⟩
  · obtain ⟨p, hp, rfl⟩ := hh.exists_berth ha hin
    rw [hh.placeOf_object hp, ← (hh.laid.berthed p hp).words]
    by_cases hspace : p.space = i
    · exact hspared.berths p hp hspace
    · obtain ⟨hin', hwithin, -, -⟩ := hh.within_berth hp
      exact hwithin.apart hl hspared.within hin' hi Nat.one_pos Nat.one_pos
        fun j h1 h2 h3 h4 => hspace (by omega)
  · have hr := hh.resettled.rehoused v hv
    have hsource := hr.source_le ht.toGridded
    have hleft := hr.left
    rw [heq, hh.wordsFrom_run hv]
    refine (hr.within_target ht.toGridded).apart hl hspared.within (by omega) hi
      (hr.regions_pos ht.toGridded) Nat.one_pos fun j h1 h2 h3 h4 => ?_
    obtain rfl : j = i := by omega
    exact hspared.steady.taken v hv ⟨h1, h2⟩
  · have hne : a.toNat ≠ c.toNat := fun hsame =>
      hremains.2.1 (UInt64.toNat_inj.1 hsame ▸ ha)
    have htile := (hchart.found a ha).1
    rw [heq, Heap.wordsFrom, if_pos rfl]
    unfold Address.Apart
    rcases Nat.lt_or_gt_of_ne hne with hlt | hlt
    · exact .inl (hchart.apart a c htile hremains.1 hlt)
    · exact .inr (hchart.apart c a hremains.1 htile hlt)

/-- Live objects are where they have been moved to, and some dead ones remain. -/
theorem redrawn : h.Redrawn h' t live tile (Berth.placeOf (h.places bs vs))
    (h.Remains live tile part bs) := by
  have hh := hc.housed
  have hs := hh.surveyed
  have ht := hs.tabled
  refine ⟨?_, fun a ha => hc.aligned_place ha, fun a c ha hl hne => hc.apart ha hl hne, ?_,
    fun a ha => ha.1, ?_, ?_, ?_⟩
  · intro a ha
    obtain ⟨c, words, ho⟩ := hs.populated.object a ha
    obtain ⟨moved, hobject, hmoved⟩ := hc.objectAt ha ho
    have hpos := hs.words_pos ho
    have hwords := ho.wordsAt_eq
    have hle := (h.wordsFrom_le t a (Berth.placeOf (h.places bs vs) a)).1
    exact ⟨moved, hobject.size, by omega, hobject.place⟩
  · intro a ha hstays
    have hwords := hc.wordsAt_place ha
    rwa [hstays, Heap.wordsFrom, if_pos rfl] at hwords
  · intro a words ha hsize
    obtain ⟨i, hspared⟩ := hc.spared_of_remains hchart ha
    have htop := hspared.top
    rw [Heap.wordsAt_of_size hsize] at htop
    exact .inl ⟨i, by rw [hc.finished.refilled.size]; exact hspared.inside, hspared.regular,
      by rw [hc.layout]; exact hspared.within.bottom, htop⟩
  · intro a c ha hremains
    rw [hc.wordsAt_place ha]
    exact hc.apart_remains hchart ha hremains
  · intro a ha k hk
    obtain ⟨i, hspared⟩ := hc.spared_of_remains hchart ha
    have hbounds := hchart.bounds ht ha.1
    have hlast := h.layout.stop.toNat_lt
    have hat : (a.nth k).toNat = a.toNat + 8 * k := Address.toNat_nth (by omega)
    obtain ⟨hbottom, hstop⟩ := hspared.within
    rw [← Layout.regionStop_eq_bottom_succ] at hstop
    refine hc.load_untouched hspared.inside (by rw [hspared.regular]; decide) (by omega) (by omega)
      (fun c hl j hj heq => ?_) fun c hl => ?_
    · have htile := (hchart.found c hl).1
      have hfits := hs.fits hl
      have hcat : (c.nth j).toNat = c.toNat + 8 * j := Address.toNat_nth (by omega)
      rw [← heq, hat] at hcat
      exact ha.2.1 (hchart.eq_of_covers (a := a.nth k) ha.1 htile (by omega) (by omega) (by omega)
        (by omega) ▸ hl)
    · have := hc.apart_remains hchart hl ha
      unfold Address.Apart at this
      omega

/-! ### Which objects follow one another -/

omit hchart in
/-- To a regular region outside the part no object comes. -/
theorem stays_of_place {a : Address} (ha : live a) {i : Nat} (hi : i < h.regions.size)
    (hout : i ∉ part) (hk : (h.region i).kind = .regular)
    (h1 : (h.layout.bottom i).toNat ≤ (Berth.placeOf (h.places bs vs) a).toNat)
    (h2 : (Berth.placeOf (h.places bs vs) a).toNat < (h.layout.regionStop i).toNat) :
    Berth.placeOf (h.places bs vs) a = a := by
  have hh := hc.housed
  have ht := hh.surveyed.tabled
  have hi' : i < h.layout.numRegions := by rwa [← ht.count]
  rw [ht.layout.toNat_regionStop hi'] at h2
  have hindex := ht.layout.indexOf_eq hi' h1 h2
  rcases hh.cases ha with ⟨hin, -⟩ | ⟨v, hv, rfl, heq⟩ | ⟨-, -, heq⟩
  · obtain ⟨p, hp, rfl⟩ := hh.exists_berth ha hin
    rw [hh.placeOf_object hp, (hh.within_berth hp).2.2.1] at hindex
    exact absurd (hindex ▸ (hh.laid.berthed p hp).space) hout
  · have hr := hh.resettled.rehoused v hv
    have hsource := hr.source_le ht.toGridded
    have hleft := hr.left
    rw [heq, ht.layout.indexOf_bottom (by omega)] at hindex
    have hpos := hr.regions_pos ht.toGridded
    exact absurd ⟨hindex.le, by omega⟩
      ((hh.steady_of_regular hk fun hmem => absurd hmem hout).taken v hv)
  · exact heq

omit hchart in
/-- An object of a region outside the part stays, unless it is a humongous one that moves. -/
theorem stays_of_indexOf {a : Address} (ha : live a) (hout : h.layout.indexOf a ∉ part)
    (hleft : ∀ v ∈ vs, ¬ v.Leaves h.layout (h.layout.indexOf a)) :
    Berth.placeOf (h.places bs vs) a = a := by
  have hh := hc.housed
  have hg := hh.surveyed.tabled.toGridded
  rcases hh.cases ha with ⟨hin, -⟩ | ⟨v, hv, rfl, -⟩ | ⟨-, -, heq⟩
  · exact absurd hin hout
  · have hr := hh.resettled.rehoused v hv
    have hsource := hr.source_le hg
    have hpos := hr.regions_pos hg
    refine absurd ?_ (hleft v hv)
    rw [hg.layout.indexOf_bottom (by omega)]
    exact ⟨le_refl _, by omega⟩
  · exact heq

/-- Between two objects that stay the dead ones follow one another up to the second one. -/
theorem next_between {a : Address} (ha : tile a) {p q : Berth} (hp : p ∈ bs) (hq : q ∈ bs)
    (hspace : q.space = p.space) (hpstays : p.target = p.object) (hqstays : q.target = q.object)
    (hpa : p.object.toNat ≤ a.toNat) (haq : a.toNat < q.object.toNat)
    (hnone : ∀ r ∈ bs, r.object.toNat ≤ p.object.toNat ∨ q.object.toNat ≤ r.object.toNat) :
    a.nth (h.wordsAt t a) = q.object ∨ h.Remains live tile part bs (a.nth (h.wordsAt t a)) := by
  have hh := hc.housed
  have ht := hh.surveyed.tabled
  obtain ⟨hlive, hin⟩ := hh.live_object hq
  have htile := (hchart.found _ hlive).1
  have hafter := hchart.apart _ _ ha htile haq
  have hend := (hchart.bounds ht htile).2
  have hlast := h.layout.stop.toNat_lt
  have hnext : (a.nth (h.wordsAt t a)).toNat = a.toNat + 8 * h.wordsAt t a :=
    Address.toNat_nth (by omega)
  rcases Nat.eq_or_lt_of_le hafter with heq | hlt
  · exact .inl (UInt64.toNat_inj.1 (hnext.trans heq))
  · -- the second object is one of the region, so that the walk has not come to its top
    obtain ⟨hin', ⟨hpbottom, -⟩, -, -⟩ := hh.within_berth hp
    have hregion := (hh.within_berth hq).2.2.1
    rw [hqstays, hspace] at hregion
    have hlt' := (hh.surveyed.region hlive).2.2
    rw [hregion] at hlt'
    rw [hpstays] at hpbottom
    have hmember := (hh.laid.berthed p hp).space
    have htop := hchart.next p.space (hh.isPart.inside _ hmember) (hh.regular _ hmember) a ha
      (by omega) (by omega)
    have hwords := hchart.wordsAt_pos ha
    refine .inr ⟨htop, fun hdead => ?_, .inr ⟨p, hp, q, hq, hspace, hpstays, hqstays, by omega,
      by omega, hnone⟩⟩
    have hindex : h.layout.indexOf (a.nth (h.wordsAt t a)) = p.space := by
      have hstop := (ht.top _ (hh.isPart.inside _ hmember)).2.1
      rw [ht.stop _ (hh.isPart.inside _ hmember), ht.layout.toNat_regionStop hin'] at hstop
      exact ht.layout.indexOf_eq hin' (by omega) (by omega)
    obtain ⟨r, hr, heq⟩ := hh.exists_berth hdead (hindex ▸ hmember)
    have := hnone r hr
    rw [heq] at this
    omega

/-- In a regular region objects follow one another. -/
theorem next {i : Nat} (hclasses : t.Sound) (hi : i < h'.regions.size)
    (hk : (h'.region i).kind = .regular) {a : Address}
    (ha : (∃ c, live c ∧ Berth.placeOf (h.places bs vs) c = a) ∨ h.Remains live tile part bs a)
    (h1 : (h'.layout.bottom i).toNat ≤ a.toNat)
    (h2 : a.toNat + 8 * h'.wordsAt t a < (h'.region i).top.toNat) :
    (∃ c, live c ∧ Berth.placeOf (h.places bs vs) c = a.nth (h'.wordsAt t a)) ∨
      h.Remains live tile part bs (a.nth (h'.wordsAt t a)) := by
  have hh := hc.housed
  have ht := hh.surveyed.tabled
  have hr := hc.finished.refilled
  have hredrawn := hc.redrawn hchart
  rw [hr.size] at hi
  rw [hc.layout] at h1
  have hi' : i < h.layout.numRegions := by rwa [← ht.count]
  rcases hr.region_cases hh hi with ⟨v, -, -, heq⟩ | heq | ⟨hin, heq⟩ | ⟨hout, hleft, heq⟩
  · rw [heq] at hk
    dsimp only at hk
    split at hk <;> cases hk
  · rw [heq] at hk
    cases hk
  · -- a region of the part
    rw [heq] at h2
    change _ < (tops i).toNat at h2
    have hextent := (hh.laid.extent i hin).2.1
    rw [ht.layout.toNat_regionStop hi'] at hextent
    have hindex : h.layout.indexOf a = i := ht.layout.indexOf_eq hi' h1 (by omega)
    have hsteady := hh.steady_of_regular (hh.regular i hin) fun _ hempty => by
      rw [hempty] at h2
      omega
    rcases ha with ⟨c, hlive, rfl⟩ | hremains
    · rw [hc.wordsAt_place hlive] at h2 ⊢
      obtain ⟨p, hp, rfl⟩ : ∃ p ∈ bs, p.object = c := by
        refine hh.exists_berth hlive ?_
        rcases hh.cases hlive with ⟨hmem, -⟩ | ⟨v, hv, rfl, heq'⟩ | ⟨-, -, heq'⟩
        · exact hmem
        · have hrv := hh.resettled.rehoused v hv
          have hsource := hrv.source_le ht.toGridded
          have hpos := hrv.regions_pos ht.toGridded
          have hleft := hrv.left
          rw [heq', ht.layout.indexOf_bottom (by omega)] at hindex
          exact absurd ⟨hindex.le, by omega⟩ (hsteady.taken v hv)
        · rw [heq'] at hindex
          rwa [hindex]
      rw [hh.placeOf_object hp] at h1 h2 hindex ⊢
      rw [← (hh.laid.berthed p hp).words] at h2 ⊢
      obtain rfl : p.space = i := (hh.within_berth hp).2.2.1.symm.trans hindex
      have hfits : p.target.toNat + 8 * p.words < 2 ^ 64 := by
        have := (tops p.space).toNat_lt
        omega
      obtain ⟨q, hq, hspace, hlt, hjoins, hnone⟩ :=
        hh.exists_next hc.forwarded.chained hp h2
      rcases hjoins with htarget | ⟨hpstays, hqstays⟩
      · refine .inl ⟨q.object, (hh.live_object hq).1, ?_⟩
        rw [hh.placeOf_object hq]
        exact UInt64.toNat_inj.1 (htarget.trans (Address.toNat_nth hfits).symm)
      · have hwords : p.words = h.wordsAt t p.object := by
          rw [(hh.laid.berthed p hp).words, Heap.wordsFrom, if_pos hpstays]
        rw [hpstays, hwords]
        refine (hc.next_between hchart (hchart.found _ (hh.live_object hp).1).1 hp hq hspace hpstays
          hqstays (le_refl _) hlt hnone).imp_left fun hsame => ?_
        exact ⟨q.object, (hh.live_object hq).1, by rw [hh.placeOf_object hq, hqstays, hsame]⟩
    · rw [hredrawn.wordsAt_remains hchart hclasses hremains]
      obtain ⟨htile, -, ⟨hout, -⟩ | ⟨p, hp, q, hq, hspace, hpstays, hqstays, hpa, haq, hnone⟩⟩ :=
        hremains
      · rw [hindex] at hout
        exact absurd hin hout
      · refine (hc.next_between hchart htile hp hq hspace hpstays hqstays hpa.le haq
          hnone).imp_left fun hsame => ?_
        exact ⟨q.object, (hh.live_object hq).1, by rw [hh.placeOf_object hq, hqstays, hsame]⟩
  · rw [heq] at hk h2
    refine hredrawn.next_kept hchart hclasses ht hi hk
      (fun c hlive => hc.stays_of_place hlive hi hout hk) (fun c htile h3 h4 => ?_) ha h1 h2
    rw [ht.layout.toNat_regionStop hi'] at h4
    have hindex := ht.layout.indexOf_eq hi' h3 h4
    by_cases hlive : live c
    · exact .inl ⟨hlive, hc.stays_of_indexOf hlive (by rwa [hindex]) (by rwa [hindex])⟩
    · exact .inr ⟨htile, hlive, .inl ⟨by rwa [hindex], by rwa [hindex]⟩⟩

omit hchart in
/-- A humongous object begins its run. -/
theorem start (hstart : ∀ i < h.regions.size, (h.region i).kind = .humongousStart →
      live (h.layout.bottom i)) {i : Nat} (hi : i < h'.regions.size)
    (hk : (h'.region i).kind = .humongousStart) :
    ∃ c, live c ∧ Berth.placeOf (h.places bs vs) c = h'.layout.bottom i := by
  have hh := hc.housed
  have ht := hh.surveyed.tabled
  have hr := hc.finished.refilled
  rw [hr.size] at hi
  rw [hc.layout]
  have hi' : i < h.layout.numRegions := by rwa [← ht.count]
  rcases hr.start_cases hh hi hk with ⟨v, hv, rfl⟩ | ⟨hk, hout, hleft⟩
  · exact ⟨_, (hh.resettled.rehoused v hv).live, hh.placeOf_humongous hv⟩
  · have hlive := hstart i hi hk
    have hindex := ht.layout.indexOf_bottom hi'
    exact ⟨_, hlive, hc.stays_of_indexOf hlive (by rwa [hindex]) (by rwa [hindex])⟩

end ParallelCycle.Completed

/-! ### Starts -/

namespace HumongousMove

variable {v : HumongousMove} {l : Layout} {starts : StartTable} {a : Address}

theorem serves_startsAfter (hs : starts.Serves l) (v : HumongousMove) :
    (v.startsAfter l starts).Serves l :=
  ((hs.forget _).clearRange ..).record _

/-- What is recorded after a move does not lie in the old run, unless it is the object at its
new place. -/
theorem holds_startsAfter (hs : starts.Serves l) (hl : l.Sound) (hpos : 0 < v.regions l)
    (hin : v.source + v.regions l ≤ l.numRegions) {q : Address → Prop} (hh : starts.Holds q)
    (hq : ∀ a, q a → l.contains a = true) :
    (v.startsAfter l starts).Holds fun a =>
      q a ∧ ¬ v.Leaves l (l.indexOf a) ∨ a = l.bottom v.target := by
  have hleft : ∀ i ∈ (List.range' v.source (v.regions l)).filter (v.target + v.regions l ≤ ·),
      i < l.numRegions := fun i hi => by
    have := (List.mem_range'_1.1 (List.mem_filter.1 hi).1).2
    omega
  have hforgot := hh.forget hs hl hleft hq
  have hcleared := hforgot.clearRange (hs.forget _) hl (i := v.source)
    (j := v.source + v.regions l - 1) (by omega) (by omega)
    fun a ha => ((hl.contains_iff a).1 (hq a ha.1)).1
  refine (hcleared.mono ?_).record (.inr rfl)
  rintro a ⟨⟨ha, -⟩, hout⟩
  refine .inl ⟨ha, fun ⟨h1, h2⟩ => hout ?_⟩
  obtain ⟨h3, h4⟩ := hl.bottom_indexOf (hq a ha)
  have hindex := hl.indexOf_lt (hq a ha)
  have hlow := hl.bottom_mono h1 hindex.le
  have hhigh := hl.bottom_mono (i := l.indexOf a + 1) (j := v.source + v.regions l) h2 hin
  have hstop := hl.toNat_regionStop hindex
  rw [Layout.regionStop_eq_bottom_succ] at hstop ⊢
  rw [show v.source + v.regions l - 1 + 1 = v.source + v.regions l by omega]
  omega

/-- What lies outside the old run is still found. -/
theorem finds_startsAfter (hs : starts.Serves l) (hl : l.Sound) (hpos : 0 < v.regions l)
    (hin : v.source + v.regions l ≤ l.numRegions) (hf : starts.Finds a)
    (ha : l.contains a = true) (hgreatest : a ≠ Address.greatest)
    (hout : ¬ v.Leaves l (l.indexOf a)) : (v.startsAfter l starts).Finds a := by
  have hleft : ∀ i ∈ (List.range' v.source (v.regions l)).filter (v.target + v.regions l ≤ ·),
      v.Leaves l i := fun i hi => List.mem_range'_1.1 (List.mem_filter.1 hi).1
  have hforgot := hf.forget hs hl (fun i hi => by
    have := (hleft i hi).2
    omega) ha fun hi => hout (hleft _ hi)
  refine (hforgot.clearRange (hs.forget _) hl (i := v.source) (j := v.source + v.regions l - 1)
    (by omega) (by omega) ((hl.contains_iff a).1 ha).1 ?_).record hgreatest _
  rintro ⟨h1, h2⟩
  obtain ⟨h3, h4⟩ := hl.bottom_indexOf ha
  have hindex := hl.indexOf_lt ha
  refine hout ⟨?_, ?_⟩
  · by_contra hlt
    have := hl.regionStop_le_bottom (i := l.indexOf a) (j := v.source) (by omega) (by omega)
    omega
  · by_contra hge
    have := hl.bottom_mono (i := v.source + v.regions l) (j := l.indexOf a) (Nat.not_lt.1 hge)
      hindex.le
    rw [Layout.regionStop_eq_bottom_succ,
      show v.source + v.regions l - 1 + 1 = v.source + v.regions l by omega] at h2
    omega

theorem serves_foldl_startsAfter (hs : starts.Serves l) (us : List HumongousMove) :
    (us.foldl (fun starts v => v.startsAfter l starts) starts).Serves l :=
  foldl_induct (fun _ (starts : StartTable) => starts.Serves l) us _ hs
    fun _ v _ _ _ hs => v.serves_startsAfter hs

/-- What lies outside all the old runs is still found when the objects have moved. -/
theorem finds_foldl_startsAfter (hs : starts.Serves l) (hl : l.Sound) (hf : starts.Finds a)
    (ha : l.contains a = true) (hgreatest : a ≠ Address.greatest) {us : List HumongousMove}
    (hus : ∀ v ∈ us, 0 < v.regions l ∧ v.source + v.regions l ≤ l.numRegions ∧
      ¬ v.Leaves l (l.indexOf a)) :
    (us.foldl (fun starts v => v.startsAfter l starts) starts).Finds a := by
  refine (foldl_induct (fun _ (starts : StartTable) => starts.Serves l ∧ starts.Finds a) us _
    ⟨hs, hf⟩ ?_).2
  rintro done v rest starts heq ⟨hs, hf⟩
  obtain ⟨hpos, hin, hout⟩ := hus v (by simp [heq])
  exact ⟨v.serves_startsAfter hs, v.finds_startsAfter hs hl hpos hin hf ha hgreatest hout⟩

/-- So is the object at its new place. -/
theorem finds_target (hs : starts.Serves l) (hl : l.Sound) (hin : v.target < l.numRegions) :
    (v.startsAfter l starts).Finds (l.bottom v.target) := by
  have hstop := hl.bottom_le_stop (i := v.target + 1) hin
  have hstride := hl.toNat_regionStop hin
  have hpos := l.stride_pos
  have hlast := l.stop.toNat_lt
  rw [Layout.regionStop_eq_bottom_succ] at hstride
  refine StartTable.finds_record (((hs.forget _).clearRange ..).blockOf_lt hl
    (hl.base_le_bottom hin.le) (by omega)) fun hgreatest => ?_
  have hmax : Address.greatest.toNat = 2 ^ 64 - 1 := rfl
  rw [hgreatest] at hstride
  omega

end HumongousMove

namespace ParallelCycle.Completed

variable (hc : Completed h t b live part n e (h.clearedStarts part) kept tops bs vs s release h₂ g h')
  (hchart : h.Charted t live tile)
include hc

/-- The table of starts before humongous objects move. -/
theorem starts_moved : g.starts = (bs.map Berth.target).foldl StartTable.record
    (h.starts.forget h.layout part) := hc.untouched.trans hc.forwarded.starts

theorem contains_place {a : Address} (ha : live a) :
    h.layout.contains (Berth.placeOf (h.places bs vs) a) = true := by
  obtain ⟨c, words, ho⟩ := hc.surveyed.populated.object a ha
  obtain ⟨moved, hobject, hmoved⟩ := hc.objectAt ha ho
  have hpos := hc.surveyed.words_pos ho
  have hwords := ho.wordsAt_eq
  have hle := (h.wordsFrom_le t a (Berth.placeOf (h.places bs vs) a)).1
  rw [← hc.layout]
  exact (hobject.place.region hc.settled.toTabled (by omega)).1

theorem part_inside : ∀ i ∈ part, i < h.layout.numRegions := fun i hi => by
  rw [← hc.surveyed.tabled.count]
  exact hc.housed.isPart.inside i hi

include hchart

theorem serves_settled : (h.settledStarts part tops g.starts).Serves h.layout := by
  rw [hc.starts_moved]
  exact ((hchart.serves.forget part).foldl_record _).forget _

theorem serves : h'.starts.Serves h'.layout := by
  rw [hc.finished.starts, hc.layout]
  exact HumongousMove.serves_foldl_startsAfter (hc.serves_settled hchart) vs

/-- What is recorded is a live object at its new place, or one that has been left alone. -/
theorem holds (hstart : ∀ i < h.regions.size, (h.region i).kind = .humongousStart →
      live (h.layout.bottom i)) :
    h'.starts.Holds fun a => (∃ c, live c ∧ Berth.placeOf (h.places bs vs) c = a) ∨
      h.Remains live tile part bs a := by
  have hh := hc.housed
  have ht := hh.surveyed.tabled
  have hl := ht.layout
  -- after some humongous objects have moved, their old runs are forgotten
  let q (done : List HumongousMove) (a : Address) : Prop :=
    (tile a ∧ h.layout.indexOf a ∉ part ∧ ∀ v ∈ done, ¬ v.Leaves h.layout (h.layout.indexOf a)) ∨
      ∃ c, live c ∧ Berth.placeOf (h.places bs vs) c = a
  have hcontains : ∀ done a, q done a → h.layout.contains a = true := by
    rintro done a (⟨ha, -⟩ | ⟨c, hlive, rfl⟩)
    · exact (hchart.region ht ha).1
    · exact hc.contains_place hlive
  have hsettled : (h.settledStarts part tops g.starts).Holds (q []) := by
    rw [hc.starts_moved]
    have hforgot := hchart.holds.forget hchart.serves hl hc.part_inside fun a ha =>
      (hchart.region ht ha).1
    have hkept : ∀ a, tile a ∧ h.layout.indexOf a ∉ part → q [] a := fun a ha =>
      .inl ⟨ha.1, ha.2, by simp⟩
    have htargets : ∀ a ∈ bs.map Berth.target, q [] a := by
      intro a ha
      obtain ⟨p, hp, rfl⟩ := List.mem_map.1 ha
      exact .inr ⟨p.object, (hh.live_object hp).1, hh.placeOf_object hp⟩
    have hrecorded := (hforgot.mono hkept).foldl_record htargets
    exact (hrecorded.forget ((hchart.serves.forget part).foldl_record _) hl
      (fun i hi => hc.part_inside i (List.mem_filter.1 hi).1) (hcontains [])).mono fun a ha => ha.1
  have hfinal : (h.finalStarts part tops vs g.starts).Holds (q vs) := by
    refine (foldl_induct (fun done (starts : StartTable) =>
      starts.Serves h.layout ∧ starts.Holds (q done)) vs _
      ⟨hc.serves_settled hchart, hsettled⟩ ?_).2
    rintro done v rest starts heq ⟨hserves, hholds⟩
    have hv : v ∈ vs := by simp [heq]
    have hr := hh.resettled.rehoused v hv
    refine ⟨v.serves_startsAfter hserves, (v.holds_startsAfter hserves hl
      (hr.regions_pos ht.toGridded) (hr.source_le ht.toGridded) hholds (hcontains done)).mono ?_⟩
    rintro a (⟨⟨htile, hout, hleft⟩ | hplace, hleaves⟩ | rfl)
    · refine .inl ⟨htile, hout, fun w hw => ?_⟩
      rcases List.mem_append.1 hw with hw | hw
      · exact hleft w hw
      · rwa [List.mem_singleton.1 hw]
    · exact .inr hplace
    · exact .inr ⟨_, hr.live, hh.placeOf_humongous hv⟩
  rw [hc.finished.starts]
  refine hfinal.mono ?_
  rintro a (⟨htile, hout, hleft⟩ | hplace)
  · obtain ⟨hin, hi, -, -⟩ := hchart.region ht htile
    have hi' : h.layout.indexOf a < h.layout.numRegions := by rwa [← ht.count]
    obtain ⟨h1, h2⟩ := hl.bottom_indexOf hin
    rw [← hl.toNat_regionStop hi'] at h2
    by_cases hlive : live a
    · exact .inl ⟨a, hlive, hc.stays_of_indexOf hlive hout hleft⟩
    · rcases hchart.cases ht htile hi h1 h2 with ⟨hk, -⟩ | ⟨hbottom, words, -, hrun⟩
      · exact .inr ⟨htile, hlive, .inl ⟨hout, hk⟩⟩
      · exact absurd (hbottom ▸ hstart _ hi hrun.start) hlive
  · exact .inl hplace

/-- Live objects are found at their new places. -/
theorem finds {a : Address} (ha : live a) :
    h'.starts.Finds (Berth.placeOf (h.places bs vs) a) := by
  have hh := hc.housed
  have ht := hh.surveyed.tabled
  have hl := ht.layout
  have hin := hc.contains_place ha
  have hgreatest := StartTable.ne_greatest_of_aligned (hc.aligned_place ha)
  have hserves := (hchart.serves.forget part).foldl_record (bs.map Berth.target)
  have hrun : ∀ v ∈ vs, 0 < v.regions h.layout ∧
      v.source + v.regions h.layout ≤ h.layout.numRegions := fun v hv =>
    have hr := hh.resettled.rehoused v hv
    ⟨hr.regions_pos ht.toGridded, hr.source_le ht.toGridded⟩
  rw [hc.finished.starts]
  unfold Heap.finalStarts
  rcases hh.cases ha with ⟨hmem, -⟩ | ⟨v, hv, rfl, heq⟩ | ⟨hout, hstays, heq⟩
  · -- a berth has been recorded, and its region is not given up
    obtain ⟨p, hp, rfl⟩ := hh.exists_berth ha hmem
    obtain ⟨-, -, hindex, hsteady⟩ := hh.within_berth hp
    have hplace := hh.placeOf_object hp
    refine HumongousMove.finds_foldl_startsAfter (hc.serves_settled hchart) hl ?_ hin hgreatest
      fun v hv => ⟨(hrun v hv).1, (hrun v hv).2, ?_⟩
    rotate_left
    · rw [hplace, hindex]
      exact hsteady.left v hv
    · unfold Heap.settledStarts
      rw [hc.starts_moved]
      obtain ⟨h1, h2⟩ := (hl.contains_iff _).1 hin
      refine (StartTable.finds_foldl_record (hchart.serves.forget part) hl ?_ h1 h2
        hgreatest).forget hserves hl (fun i hi => hc.part_inside i (List.mem_filter.1 hi).1) hin ?_
      · rw [hplace]
        exact List.mem_map_of_mem hp
      · rw [hplace, hindex]
        intro hempty
        have hoccupied := hsteady.occupied
        unfold Heap.isVacant at hoccupied
        rw [List.contains_iff_mem.2 (List.mem_filter.1 hempty).1, Bool.true_and,
          Bool.or_eq_false_iff] at hoccupied
        exact beq_eq_false_iff_ne.1 hoccupied.2 (beq_iff_eq.1 (List.mem_filter.1 hempty).2)
  · -- a humongous object is recorded at its new place, and those after it lie farther right
    have hr := hh.resettled.rehoused v hv
    have hleft := hr.left
    have hsource := hr.source_le ht.toGridded
    obtain ⟨before, after, rfl⟩ := List.append_of_mem hv
    have hsources := (List.pairwise_cons.1 (List.pairwise_append.1 hh.resettled.sources).2.1).1
    have hbefore := HumongousMove.serves_foldl_startsAfter (hc.serves_settled hchart) before
    rw [List.foldl_append, List.foldl_cons]
    refine HumongousMove.finds_foldl_startsAfter (v.serves_startsAfter hbefore) hl ?_ hin hgreatest
      fun w hw => ⟨(hrun w (by simp [hw])).1, (hrun w (by simp [hw])).2, ?_⟩
    rotate_left
    · rw [heq, hl.indexOf_bottom (by omega)]
      intro hleaves
      have := hsources w hw
      have := hleaves.1
      omega
    · rw [heq]
      exact v.finds_target hbefore hl (by omega)
  · -- any other object has been found before
    obtain ⟨htile, hfinds⟩ := hchart.found a ha
    obtain ⟨f, k, -, hin', hwithin, hsteady⟩ := hh.stretch_other ha hout hstays
    have hpos := hh.surveyed.wordsAt_pos ha
    obtain ⟨i, h1, h2, h3, h4⟩ := hwithin.exists_region hl hin' (le_refl _) (by omega)
    rw [hl.toNat_regionStop (by omega)] at h4
    have hindex := hl.indexOf_eq (by omega) h3 h4
    rw [heq] at hin hgreatest ⊢
    refine HumongousMove.finds_foldl_startsAfter (hc.serves_settled hchart) hl ?_ hin hgreatest
      fun v hv => ⟨(hrun v hv).1, (hrun v hv).2, ?_⟩
    rotate_left
    · rw [hindex]
      exact (hsteady i h1 h2).left v hv
    · unfold Heap.settledStarts
      rw [hc.starts_moved]
      exact ((hfinds.forget hchart.serves hl hc.part_inside hin hout).foldl_record hgreatest
        _).forget hserves hl (fun i hi => hc.part_inside i (List.mem_filter.1 hi).1) hin
        fun hmem => hout (List.mem_filter.1 hmem).1

/-- A parallel collection makes a chart of a chart. -/
theorem charted (hstart : ∀ i < h.regions.size, (h.region i).kind = .humongousStart →
      live (h.layout.bottom i)) (known : Address → Prop)
    (hknown : ∀ a, known a → ∃ c, live c ∧ Berth.placeOf (h.places bs vs) c = a) :
    ∃ tile', h'.Charted t known tile' :=
  ⟨_, (hc.redrawn hchart).charted hchart hc.surveyed.classes known hknown
    (fun _ hi hk _ ha h1 h2 => hc.next hchart hc.surveyed.classes hi hk ha h1 h2)
    (fun _ hi hk => hc.start hstart hi hk) (hc.serves hchart) (hc.holds hchart hstart)
    fun _ ha => hc.finds hchart ha⟩

end ParallelCycle.Completed

end MarkCompact
