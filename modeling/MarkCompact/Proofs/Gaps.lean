/-
MarkCompact/Proofs/Gaps.lean

A collection leaves no gaps.

The objects of the part are laid out from the bottoms of its regions on, one after the other.  The
regions that take no part hold nothing but live words to begin with: those of the dense prefix,
and those of live humongous objects (`Heap.LiveOutside`).  There are gaps only where an encoding
has kept objects in place.

Main results: `ParallelCycle.Completed.gapless` and `SerialCycle.Completed.gapless`.
-/
import MarkCompact.Proofs.Packing
import MarkCompact.Proofs.ParallelCharts
import MarkCompact.Proofs.SerialRelocation
import MarkCompact.Proofs.WordsInUse

namespace MarkCompact

/-- Every place in a stretch lies in one of the runs that fill it. -/
theorem Tiles.exists_covering {start stop : Nat} {runs : List (Address × Nat)}
    (h : Tiles start stop runs) {x : Nat} (h1 : start ≤ x) (h2 : x < stop) :
    ∃ r ∈ runs, r.1.toNat ≤ x ∧ x < r.1.toNat + 8 * r.2 := by
  induction runs generalizing start with
  | nil =>
    have heq : start = stop := h
    omega
  | cons run runs ih =>
    obtain ⟨hat, hrest⟩ := h
    by_cases hx : x < start + 8 * run.2
    · exact ⟨run, List.mem_cons_self .., by omega, by omega⟩
    · obtain ⟨r, hr, hcovers⟩ := ih hrest (by omega)
      exact ⟨r, List.mem_cons_of_mem _ hr, hcovers⟩

variable {h h₂ g h' : Heap} {t : ClassTable} {b : Bitmap} {live : Address → Prop}
  {part : List Nat}

/-! ### Regions that take no part -/

/-- Outside the part all words are live. -/
structure Heap.LiveOutside (h : Heap) (b : Bitmap) (live : Address → Prop) (part : List Nat) :
    Prop where
  regular : ∀ i < h.regions.size, i ∉ part → (h.region i).kind = .regular →
    ∀ x, h.layout.IsWord x → (h.layout.bottom i).toNat ≤ x.toNat →
      x.toNat < (h.region i).top.toNat → b.isLive x = true
  start : ∀ i < h.regions.size, (h.region i).kind = .humongousStart → live (h.layout.bottom i)

/-- Planning leaves alone only what is entirely live. -/
theorem Planned.liveOutside {h₀ : Heap} {p : Plan} (hp : Planned h₀ b p h)
    (ht : h₀.Tabled) (hs : Surveyed h t b live)
    (hpart : ∀ i, p.densePrefix ≤ i → i < h.regions.size → (h.region i).kind = .regular →
      i ∈ part) : h.LiveOutside b live part := by
  refine ⟨fun i hi hout hk x hx h1 h2 => ?_, fun i hi hk => hp.live_of_start ht hs hi hk⟩
  have hl := hs.tabled.layout
  have hi' : i < h.layout.numRegions := hs.tabled.count ▸ hi
  have hdense : i < p.densePrefix := Nat.lt_of_not_le fun hle => hout (hpart i hle hi hk)
  have hsame := hp.kept i (Plan.not_deadRun_of_kind (.inl (hp.dense i hdense)))
  have hfull := hp.full i hdense
  rw [← hsame] at hfull
  obtain ⟨-, htop, -⟩ := hs.tabled.top i hi
  rw [hs.tabled.stop i hi, hl.toNat_regionStop hi', ← hl.toNat_regionWords] at htop
  refine Bitmap.isLive_of_countWords hl.spans hs.shows.fits (hs.isEdge_bottom hi) (hs.isEdge_top hi) ?_
    hx (by rwa [hs.tabled.bottom i hi]) h2
  rw [hfull, hs.tabled.bottom i hi, hp.ground.layout]
  rw [hp.ground.layout] at htop
  omega

namespace Surveyed

variable (hs : Surveyed h t b live)
include hs

/-- An object that covers a word of a regular region begins in it. -/
theorem indexOf_of_covers {i : Nat} (hk : (h.region i).kind = .regular)
    {o x : Address} (ho : live o) (hx : h.layout.indexOf x = i)
    (h1 : o.toNat ≤ x.toNat) (h2 : x.toNat < o.toNat + 8 * h.wordsAt t o) :
    h.layout.indexOf o = i := by
  have hl := hs.tabled.layout
  obtain ⟨c, words, hobject⟩ := hs.populated.object o ho
  rw [hobject.wordsAt_eq] at h2
  rcases hobject.place with ⟨j, hj, -, hjo, hend⟩ | ⟨j, hj, hrun, rfl⟩
  · have hj' : j < h.layout.numRegions := hs.tabled.count ▸ hj
    obtain ⟨-, hstop, -⟩ := hs.tabled.top j hj
    rw [hs.tabled.stop j hj, hl.toNat_regionStop hj'] at hstop
    rw [hl.indexOf_eq hj' (by omega) (by omega)] at hx
    rw [hl.indexOf_eq hj' hjo (by omega), hx]
  · -- the regions of a run are not regular
    obtain ⟨-, hpos, hcount⟩ := hrun.inside hs.tabled.toGridded hj
    obtain ⟨hend, -⟩ := hrun.end_le hs.tabled.toGridded hj
    rw [hs.tabled.count] at hcount
    have hwithin : h.layout.Within j (h.layout.regionsFor words).toNat (h.layout.bottom j)
        words.toNat := ⟨Nat.le_refl _, hend⟩
    obtain ⟨k, hjk, hk', h3, h4⟩ := hwithin.exists_region hl hcount h1 h2
    rw [hl.toNat_regionStop (by omega)] at h4
    rw [hl.indexOf_eq (by omega) h3 h4] at hx
    have hhum := Heap.HumongousRun.kind_of_inRun ⟨hrun, hjk, hk'⟩
    rw [hx, hk] at hhum
    cases hhum

/-- Below the top of a region that takes no part every word is one of a live object, which begins
in the region, or in the first region of its run. -/
theorem exists_covering (hout : h.LiveOutside b live part) {i : Nat} (hi : i < h.regions.size)
    (hip : i ∉ part) {x : Address} (hx : h.layout.IsWord x)
    (h1 : (h.layout.bottom i).toNat ≤ x.toNat) (h2 : x.toNat < (h.region i).top.toNat) :
    ∃ o, live o ∧ o.toNat ≤ x.toNat ∧ x.toNat < o.toNat + 8 * h.wordsAt t o ∧
      (h.layout.indexOf o = i ∧ (h.region i).kind = .regular ∨
        ∃ words, h.InRun (h.layout.indexOf o) words i) := by
  have hl := hs.tabled.layout
  have hi' : i < h.layout.numRegions := hs.tabled.count ▸ hi
  obtain ⟨-, hstop, -⟩ := hs.tabled.top i hi
  rw [hs.tabled.stop i hi, hl.toNat_regionStop hi'] at hstop
  have hrun : ∀ f words, h.HumongousRun f words → f ≤ i →
      i < f + (h.layout.regionsFor words).toNat →
      ∃ o, live o ∧ o.toNat ≤ x.toNat ∧ x.toNat < o.toNat + 8 * h.wordsAt t o ∧
        ∃ words, h.InRun (h.layout.indexOf o) words i := by
    intro f words hrun hle hlt
    have hf : f < h.regions.size := hle.trans_lt hi
    have hf' : f < h.layout.numRegions := hs.tabled.count ▸ hf
    have hlive := hout.start f hf hrun.start
    have hbottom := hl.bottom_mono hle hi'.le
    obtain ⟨c, words', hobject⟩ := hs.populated.object _ hlive
    -- the run of the region is the run of the object
    have hrun' : h.HumongousRun f words' := by
      rcases hobject.place with ⟨j, hj, hk, hjf, hend⟩ | ⟨j, hj, hrun', heq⟩
      · have hpos := hs.words_pos hobject
        obtain ⟨-, htop, -⟩ := hs.tabled.top j hj
        have hj' : j < h.layout.numRegions := hs.tabled.count ▸ hj
        rw [hs.tabled.stop j hj, hl.toNat_regionStop hj'] at htop
        have hindex := hl.indexOf_eq hj' hjf (by omega)
        rw [hl.indexOf_bottom hf'] at hindex
        rw [← hindex, hrun.start] at hk
        cases hk
      · rw [hl.bottom_injective hf'.le (hs.tabled.count ▸ hj).le heq]
        exact hrun'
    obtain ⟨-, hpos, -⟩ := hrun.inside hs.tabled.toGridded hf
    obtain ⟨-, hpos', -⟩ := hrun'.inside hs.tabled.toGridded hf
    have hcount := (Heap.HumongousRun.unique (i := f) ⟨hrun, Nat.le_refl _, by omega⟩
      ⟨hrun', Nat.le_refl _, by omega⟩).2
    rw [hcount] at hlt
    have htop := hrun'.tops i hle hlt
    refine ⟨h.layout.bottom f, hlive, hbottom.trans h1, ?_, words', ?_⟩
    · rw [hobject.wordsAt_eq]
      omega
    · rw [hl.indexOf_bottom hf']
      exact ⟨hrun', hle, hlt⟩
  cases hk : (h.region i).kind with
  | free =>
    rw [hs.tabled.free i hi hk, hs.tabled.bottom i hi] at h2
    omega
  | regular =>
    obtain ⟨o, ho, hle, hlt⟩ := (hs.shows.words x hx).1 (hout.regular i hi hip hk x hx h1 h2)
    have hindex := hs.indexOf_of_covers hk ho (hl.indexOf_eq hi' h1 (by omega)) hle hlt
    exact ⟨o, ho, hle, hlt, .inl ⟨hindex, rfl⟩⟩
  | humongousStart =>
    obtain ⟨words, hr⟩ := hs.tabled.runs i hi hk
    obtain ⟨-, hpos, -⟩ := hr.inside hs.tabled.toGridded hi
    obtain ⟨o, ho, hle, hlt, hin⟩ := hrun i words hr (Nat.le_refl _) (by omega)
    exact ⟨o, ho, hle, hlt, .inr hin⟩
  | humongousContinues =>
    obtain ⟨f, words, hr, hfi, hlast⟩ := hs.tabled.continued i hi hk
    obtain ⟨o, ho, hle, hlt, hin⟩ := hrun f words hr hfi.le hlast
    exact ⟨o, ho, hle, hlt, .inr hin⟩

end Surveyed

/-! ### The parallel style -/

namespace ParallelCycle.Completed

variable {n : Forwarding.Announced} {e : Encoding} {starts : StartTable} {kept : Nat} {tops : Nat → Address}
  {bs : List Berth} {vs : List HumongousMove} {s : Relocation} {release : Bool}
  (hc : Completed h t b live part n e starts kept tops bs vs s release h₂ g h')
include hc

/-- If no object has been kept in place no gap is left. -/
theorem gapless (hkept : kept = 0) (hout : h.LiveOutside b live part) :
    h'.Gapless t fun v => ∃ a, live a ∧ Berth.placeOf (h.places bs vs) a = v := by
  have hh := hc.housed
  have hs := hc.surveyed
  have hl := hs.tabled.layout
  intro i hi x hx h1 h2
  have hsize := hc.finished.refilled.size
  rw [hc.layout] at hx h1
  rw [hsize] at hi
  have hi' : i < h.layout.numRegions := hs.tabled.count ▸ hi
  -- the words of an object at its new place
  have hcovers : ∀ a, live a → (Berth.placeOf (h.places bs vs) a).toNat ≤ x.toNat →
      x.toNat < (Berth.placeOf (h.places bs vs) a).toNat
        + 8 * h.wordsFrom t a (Berth.placeOf (h.places bs vs) a) →
      ∃ v, (∃ a, live a ∧ Berth.placeOf (h.places bs vs) a = v) ∧ v.toNat ≤ x.toNat ∧
        x.toNat < v.toNat + 8 * h'.wordsAt t v := fun a ha hle hlt =>
    ⟨_, ⟨a, ha, rfl⟩, hle, by rw [hc.wordsAt_place ha]; exact hlt⟩
  rcases hc.finished.refilled.region_cases hh hi with ⟨v, hv, hvi, heq⟩ | heq | ⟨hin, heq⟩ |
    ⟨hnot, hleft, heq⟩
  · -- a humongous object has come
    have hr := hh.resettled.rehoused v hv
    have hwithin := (hr.within_target hs.tabled.toGridded).stop
    have hbound := hl.bottom_le_stop (i := v.target + v.regions h.layout) (by
      have := hr.source_le hs.tabled.toGridded
      have := hr.left
      omega)
    have hmono := hl.bottom_mono hvi.1 hi'.le
    have hstop := h.layout.stop.toNat_lt
    have htop : x.toNat < (h.layout.bottom v.target).toNat + 8 * v.copySize.toNat := by
      rw [heq] at h2
      have h2 : x.toNat < (min ((h.layout.bottom v.target).offset v.copySize)
        (h.region i).stop).toNat := h2
      rw [toNat_min, Address.toNat_offset (by omega)] at h2
      omega
    refine hcovers _ hr.live ?_ ?_
    · rw [hh.placeOf_humongous hv]
      omega
    · rw [hh.placeOf_humongous hv, hh.wordsFrom_run hv]
      exact htop
  · rw [heq, hs.tabled.bottom i hi] at h2
    exact absurd h2 (Nat.not_lt.2 h1)
  · -- the objects that have been laid out in a region of the part
    rw [heq] at h2
    have hrow := Heap.rowed_layOut (h := h) (t := t) hh.isPart.ascending
      (part.flatMap (h.liveIn b))
    rw [← hc.forwarded.fits hkept] at hrow
    obtain ⟨r, hr, hle, hlt⟩ := (hrow.tiled i).exists_covering h1
      (by rw [← hh.laid.tops i hin]; exact h2)
    obtain ⟨p, hp, rfl⟩ := List.mem_map.1 hr
    obtain ⟨hp, -⟩ := List.mem_filter.1 hp
    refine hcovers p.object (hh.live_object hp).1 ?_ ?_
    · rw [hh.placeOf_object hp]
      exact hle
    · rw [hh.placeOf_object hp, ← (hh.laid.berthed p hp).words]
      exact hlt
  · -- what has stayed outside the part
    rw [heq] at h2
    obtain ⟨o, ho, hle, hlt, hin⟩ := hs.exists_covering hout hi hnot hx h1 h2
    have hstays : Berth.placeOf (h.places bs vs) o = o := by
      rcases hin with ⟨hindex, -⟩ | ⟨words, hrun⟩
      · exact hc.stays_of_indexOf ho (by rwa [hindex]) (by rwa [hindex])
      · have hfirst : h.InRun (h.layout.indexOf o) words (h.layout.indexOf o) :=
          ⟨hrun.1, Nat.le_refl _, by have := hrun.2; omega⟩
        refine hc.stays_of_indexOf ho (hh.notVacant_of_inRun hfirst).1 fun v hv hvo => ?_
        -- the run of an object that leaves is left as a whole
        have hrv := (hh.resettled.rehoused v hv).inRun hvo
        obtain ⟨hsame, hcount⟩ := Heap.HumongousRun.unique hrv hfirst
        refine hleft v hv ⟨by rw [hsame]; exact hrun.2.1, ?_⟩
        rw [hsame]
        show i < _ + (h.layout.regionsFor v.size).toNat
        rw [hcount]
        exact hrun.2.2
    refine hcovers o ho (by rwa [hstays]) ?_
    rw [hstays, Heap.wordsFrom, if_pos rfl]
    exact hlt

end ParallelCycle.Completed

/-! ### The serial style -/

namespace SerialCycle.Completed

variable {d : Nat} {table : BlockOffsets} {spaces : Array Space} {bs : List Berth} {release : Bool}

/-- No gap is left. -/
theorem gapless (hc : Completed h t b live d table spaces bs release h₂ g h')
    (hout : h.LiveOutside b live (h.partFrom d)) :
    h'.Gapless t fun v => ∃ a, live a ∧ Berth.placeOf bs a = v := by
  have hs := hc.surveyed
  have hl := hs.tabled.layout
  intro i hi x hx h1 h2
  have hgrid := hc.settled.toGridded
  have hbottom := hgrid.bottom i hi
  rw [hc.retopped.size] at hi
  by_cases hin : i ∈ h.partFrom d
  · obtain ⟨hd, -⟩ := (Heap.mem_partFrom hc.dense i).1 hin
    obtain ⟨s, hmem⟩ := hc.exists_space hin
    have hused : (h'.region i).kind = .regular := by
      rw [hc.region_part hmem] at h2 ⊢
      unfold SerialCycle.filledRegion at h2 ⊢
      split
      · rename_i hempty
        rw [if_pos hempty] at h2
        have hfree : x.toNat < (h.region i).bottom.toNat := h2
        rw [hs.tabled.bottom i hi, ← hc.retopped.layout] at hfree
        omega
      · rfl
    obtain ⟨as, has, htiles⟩ := hc.tiles hd hi hused
    rw [← hbottom] at h1
    obtain ⟨r, hr, hle, hlt⟩ := htiles.exists_covering h1 h2
    obtain ⟨v, hv, rfl⟩ := List.mem_map.1 hr
    exact ⟨v, ((has v).1 hv).1, hle, hlt⟩
  · rw [hc.retopped.layout] at hx h1
    rw [hc.region_other hin] at h2
    obtain ⟨o, ho, hle, hlt, hwhere⟩ := hs.exists_covering hout hi hin hx h1 h2
    have hstays : h.layout.indexOf o ∉ h.partFrom d := by
      rcases hwhere with ⟨hindex, -⟩ | ⟨words, hrun⟩
      · rwa [hindex]
      · intro hmem
        have hk := Heap.HumongousRun.kind_of_inRun (i := h.layout.indexOf o)
          ⟨hrun.1, Nat.le_refl _, by have := hrun.2; omega⟩
        rw [((Heap.mem_partFrom hc.dense _).1 hmem).2.2] at hk
        cases hk
    refine ⟨o, ⟨o, ho, hc.place_other hstays⟩, hle, ?_⟩
    have hwords := hc.wordsAt_place ho
    rw [hc.place_other hstays] at hwords
    rwa [hwords]

end SerialCycle.Completed

end MarkCompact
