/-
MarkCompact/Proofs/Places.lean

Where every live object goes.

Objects of the part go to their berths, humongous objects to their new runs, and all others
stay (`Heap.Housed.cases`).  Each object then has a stretch of regions to itself or shares one
region: the regions of its new run, or regions to which no humongous object comes and which
none leaves (`Heap.Steady`).

Main results: `Housed.stretch` (the regions of an object) and `Housed.apart` (no two objects
overlap at their new places).
-/
import MarkCompact.Proofs.Rehousing

namespace MarkCompact

/-! ### Stretches of regions -/

/-- So many words at `a` lie in `k` regions, of which `first` is the first. -/
structure Layout.Within (l : Layout) (first k : Nat) (a : Address) (n : Nat) : Prop where
  bottom : (l.bottom first).toNat ≤ a.toNat
  stop : a.toNat + 8 * n ≤ (l.bottom (first + k)).toNat

/-- What lies in different regions is apart. -/
theorem Layout.Within.apart {l : Layout} (hl : l.Sound) {f k f' k' n n' : Nat} {a a' : Address}
    (h : l.Within f k a n) (h' : l.Within f' k' a' n') (hin : f + k ≤ l.numRegions)
    (hin' : f' + k' ≤ l.numRegions) (hpos : 0 < k) (hpos' : 0 < k')
    (hdisjoint : ∀ i, f ≤ i → i < f + k → f' ≤ i → i < f' + k' → False) : a.Apart n a' n' := by
  have hcases : f + k ≤ f' ∨ f' + k' ≤ f := by
    by_contra hboth
    exact hdisjoint (max f f') (by omega) (by omega) (by omega) (by omega)
  have h1 := h.bottom
  have h2 := h.stop
  have h3 := h'.bottom
  have h4 := h'.stop
  unfold Address.Apart
  rcases hcases with hle | hle
  · have := hl.bottom_mono hle (by omega)
    omega
  · have := hl.bottom_mono hle (by omega)
    omega

/-- What lies in one region begins there. -/
theorem Layout.Within.indexOf {l : Layout} (hl : l.Sound) {i n : Nat} {a : Address}
    (h : l.Within i 1 a n) (hi : i < l.numRegions) (hpos : 0 < n) : l.indexOf a = i := by
  have hstop := h.stop
  rw [← Layout.regionStop_eq_bottom_succ, hl.toNat_regionStop hi] at hstop
  exact hl.indexOf_eq hi h.bottom (by omega)

/-- Every word of it lies in one of the regions. -/
theorem Layout.Within.exists_region {l : Layout} (hl : l.Sound) {f k n : Nat} {a x : Address}
    (h : l.Within f k a n) (hin : f + k ≤ l.numRegions) (h1 : a.toNat ≤ x.toNat)
    (h2 : x.toNat < a.toNat + 8 * n) :
    ∃ i, f ≤ i ∧ i < f + k ∧ (l.bottom i).toNat ≤ x.toNat ∧ x.toNat < (l.regionStop i).toNat := by
  have hbottom := h.bottom
  have hstop := h.stop
  have hfirst := hl.base_le_bottom (show f ≤ l.numRegions by omega)
  have hlast := hl.bottom_le_stop hin
  have hcontains : l.contains x = true := (hl.contains_iff x).2 ⟨by omega, by omega⟩
  have hlt := hl.indexOf_lt hcontains
  obtain ⟨h3, h4⟩ := hl.bottom_indexOf hcontains
  refine ⟨l.indexOf x, ?_, ?_, h3, by rwa [hl.toNat_regionStop hlt]⟩
  · by_contra hlow
    have := hl.regionStop_le_bottom (i := l.indexOf x) (j := f) (by omega) (by omega)
    omega
  · by_contra hhigh
    have := hl.bottom_mono (i := f + k) (j := l.indexOf x) (by omega) hlt.le
    omega

namespace Berth

theorem placeOf_append_of_mem {bs : List Berth} {a : Address} (ha : a ∈ bs.map object)
    (bs' : List Berth) : placeOf (bs ++ bs') a = placeOf bs a := by
  obtain ⟨p, hp, rfl⟩ := List.mem_map.1 ha
  unfold placeOf
  rw [List.find?_append]
  have hfound : (bs.find? fun q => q.object == p.object).isSome = true := by
    rw [List.find?_isSome]
    exact ⟨p, hp, beq_self_eq_true _⟩
  obtain ⟨q, hq⟩ := Option.isSome_iff_exists.1 hfound
  rw [hq]
  rfl

theorem placeOf_append_of_notMem {bs : List Berth} {a : Address} (ha : a ∉ bs.map object)
    (bs' : List Berth) : placeOf (bs ++ bs') a = placeOf bs' a := by
  unfold placeOf
  rw [List.find?_append, List.find?_eq_none.2, Option.none_or]
  intro q hq heq
  exact ha (List.mem_map.2 ⟨q, hq, eq_of_beq heq⟩)

end Berth

namespace Heap

variable {h : Heap} {t : ClassTable} {b : Bitmap} {live : Address → Prop} {part : List Nat}
  {tops : Nat → Address} {bs : List Berth} {vs : List HumongousMove}

/-- The places of the objects of the part and of the humongous objects. -/
def places (h : Heap) (bs : List Berth) (vs : List HumongousMove) : List Berth :=
  bs ++ vs.map (·.berth h.layout)

/-- Every live object has a place: a berth, a new run, or the place where it lies. -/
structure Housed (h : Heap) (t : ClassTable) (b : Bitmap) (live : Address → Prop)
    (part : List Nat) (tops : Nat → Address) (bs : List Berth) (vs : List HumongousMove) :
    Prop where
  surveyed : Surveyed h t b live
  isPart : h.Part part
  regular : ∀ i ∈ part, (h.region i).kind = .regular
  laid : h.Laid t part tops (part.flatMap (h.liveIn b)) bs
  resettled : h.Resettled t live (h.isVacant part tops) vs

/-- A region that holds objects, and that no humongous object comes to or leaves. -/
structure Steady (h : Heap) (part : List Nat) (tops : Nat → Address) (vs : List HumongousMove)
    (i : Nat) : Prop where
  occupied : h.isVacant part tops i = false
  left : ∀ v ∈ vs, ¬ v.Leaves h.layout i
  taken : ∀ v ∈ vs, ¬ v.Comes h.layout i

namespace Rehoused

variable {v : HumongousMove}

theorem regions_pos (hv : h.Rehoused t live v) (hg : h.Gridded) : 0 < v.regions h.layout :=
  (hv.run.inside hg hv.inside).2.1

theorem source_le (hv : h.Rehoused t live v) (hg : h.Gridded) :
    v.source + v.regions h.layout ≤ h.layout.numRegions := by
  rw [← hg.count]
  exact (hv.run.inside hg hv.inside).2.2

/-- The regions that an object leaves are those of a humongous object. -/
theorem inRun (hv : h.Rehoused t live v) {i : Nat} (hi : v.Leaves h.layout i) :
    h.InRun v.source v.size i :=
  ⟨hv.run, hi⟩

/-- The object, where it lay. -/
theorem within_source (hv : h.Rehoused t live v) (hg : h.Gridded) :
    h.layout.Within v.source (v.regions h.layout) (h.layout.bottom v.source)
      (h.wordsAt t (h.layout.bottom v.source)) := by
  rw [← hv.words]
  exact ⟨Nat.le_refl _, (hv.run.end_le hg hv.inside).1⟩

/-- The object, where it goes. -/
theorem within_target (hv : h.Rehoused t live v) (hg : h.Gridded) :
    h.layout.Within v.target (v.regions h.layout) (h.layout.bottom v.target)
      v.copySize.toNat := by
  have hl := hg.layout
  have hleft := hv.left
  have hsource := hv.source_le hg
  obtain ⟨hfew, hpos, -⟩ := hv.run.inside hg hv.inside
  have hgrown := Surveyed.wordsAt_le_movedWords h t (h.layout.bottom v.source)
  have hmoved := hv.moved
  have hwords := hv.words
  refine ⟨Nat.le_refl _, ?_⟩
  have hsmall : v.copySize.toNat < 2 ^ 62 := by
    have hend := (hv.run.end_le hg hv.inside).1
    have hstop := hl.bottom_le_stop hsource
    have hlt := h.layout.stop.toNat_lt
    have hbase := hl.nonzero
    have hle := hl.base_le_bottom (show v.source ≤ h.layout.numRegions by omega)
    unfold HumongousMove.regions at hstop
    omega
  have hbounds := (hl.regionsFor_bounds hsmall (by
    have := hv.run.nonempty
    omega)).1
  rw [hv.regions] at hbounds
  rw [hl.toNat_bottom (by omega), hl.toNat_bottom (by omega), Nat.add_mul]
  omega

/-- A new run begins elsewhere. -/
theorem bottom_ne (hv : h.Rehoused t live v) (hg : h.Gridded) :
    h.layout.bottom v.target ≠ h.layout.bottom v.source := by
  intro heq
  have hlt := hv.inside
  have hleft := hv.left
  rw [hg.count] at hlt
  have := hg.layout.bottom_injective (by omega) hlt.le heq
  omega

end Rehoused

/-- No humongous object comes to a region that is neither vacant nor left. -/
theorem Resettled.steady (hr : h.Resettled t live (h.isVacant part tops) vs) {i : Nat}
    (hoccupied : h.isVacant part tops i = false) (hleft : ∀ v ∈ vs, ¬ v.Leaves h.layout i) :
    h.Steady part tops vs i := by
  refine ⟨hoccupied, hleft, fun v hv hi => ?_⟩
  rcases hr.vacant v hv i hi with hvacant | ⟨w, hw, hleaves, -⟩
  · rw [hoccupied] at hvacant
    cases hvacant
  · exact hleft w hw hleaves

/-- To each region comes one object at most. -/
theorem Resettled.comes_unique {vacant : Nat → Bool} (hr : h.Resettled t live vacant vs)
    {v w : HumongousMove} (hv : v ∈ vs) (hw : w ∈ vs) (hne : v ≠ w) {i : Nat}
    (hi : v.Comes h.layout i) : ¬ w.Comes h.layout i := by
  have hsymm : Std.Symm fun v w : HumongousMove =>
      ∀ i, v.Comes h.layout i → ¬ w.Comes h.layout i :=
    ⟨fun v w hvw i hwi hvi => hvw i hvi hwi⟩
  exact hr.targets.forall hv hw hne i hi

namespace Housed

variable (hh : h.Housed t b live part tops bs vs)
include hh

theorem mem_objects {a : Address} :
    a ∈ part.flatMap (h.liveIn b) ↔ live a ∧ h.layout.indexOf a ∈ part :=
  hh.surveyed.mem_flatMap_liveIn hh.isPart.inside a

theorem ascending : (part.flatMap (h.liveIn b)).Pairwise fun a c => a.toNat < c.toNat :=
  hh.surveyed.pairwise_flatMap_liveIn hh.isPart.ascending hh.isPart.inside

/-- No humongous object is one of the part. -/
theorem source_notMem {v : HumongousMove} (hv : v ∈ vs) :
    h.layout.indexOf (h.layout.bottom v.source) ∉ part := by
  have hr := hh.resettled.rehoused v hv
  have hlt := hr.inside
  rw [hh.surveyed.tabled.count] at hlt
  rw [hh.surveyed.tabled.layout.indexOf_bottom hlt]
  intro hin
  have hk := hh.regular _ hin
  rw [hr.run.start] at hk
  cases hk

/-- Each humongous object has one new run. -/
theorem nodup_humongous : ((vs.map (·.berth h.layout)).map Berth.object).Nodup := by
  rw [List.map_map]
  refine List.pairwise_map.2 (hh.resettled.sources.imp_of_mem fun {v w} hv hw hle heq => ?_)
  have hg := hh.surveyed.tabled.toGridded
  have hrv := hh.resettled.rehoused v hv
  have hpos := hrv.regions_pos hg
  have h1 := hrv.inside
  have h2 := (hh.resettled.rehoused w hw).inside
  rw [hg.count] at h1 h2
  have := hg.layout.bottom_injective h1.le h2.le heq
  omega

theorem live_of_mem {a : Address} (ha : a ∈ (h.places bs vs).map Berth.object) : live a := by
  unfold places at ha
  rw [List.map_append, hh.laid.objects, List.map_map] at ha
  rcases List.mem_append.1 ha with ha | ha
  · exact (hh.mem_objects.1 ha).1
  · obtain ⟨v, hv, rfl⟩ := List.mem_map.1 ha
    exact (hh.resettled.rehoused v hv).live

/-- Each object has one place. -/
theorem nodup : ((h.places bs vs).map Berth.object).Nodup := by
  unfold places
  rw [List.map_append, List.nodup_append']
  refine ⟨hh.laid.nodup hh.ascending, hh.nodup_humongous, fun a ha hmem => ?_⟩
  rw [hh.laid.objects] at ha
  rw [List.map_map] at hmem
  obtain ⟨v, hv, rfl⟩ := List.mem_map.1 hmem
  exact hh.source_notMem hv (hh.mem_objects.1 ha).2

/-! ### Where each object goes -/

/-- An object of the part goes to its berth. -/
theorem placeOf_part {a : Address} (ha : live a) (hin : h.layout.indexOf a ∈ part) :
    Berth.placeOf (h.places bs vs) a = Berth.placeOf bs a :=
  Berth.placeOf_append_of_mem (by rw [hh.laid.objects]; exact hh.mem_objects.2 ⟨ha, hin⟩) _

/-- A humongous object goes to its new run. -/
theorem placeOf_humongous {v : HumongousMove} (hv : v ∈ vs) :
    Berth.placeOf (h.places bs vs) (h.layout.bottom v.source) = h.layout.bottom v.target := by
  unfold places
  rw [Berth.placeOf_append_of_notMem]
  · exact Berth.placeOf_of_mem hh.nodup_humongous (p := v.berth h.layout) (List.mem_map_of_mem hv)
  · rw [hh.laid.objects]
    exact fun hmem => hh.source_notMem hv (hh.mem_objects.1 hmem).2

theorem placeOf_humongous_ne {v : HumongousMove} (hv : v ∈ vs) :
    Berth.placeOf (h.places bs vs) (h.layout.bottom v.source) ≠ h.layout.bottom v.source := by
  rw [hh.placeOf_humongous hv]
  exact (hh.resettled.rehoused v hv).bottom_ne hh.surveyed.tabled.toGridded

/-- Everything else stays. -/
theorem placeOf_other {a : Address} (hpart : ¬ (live a ∧ h.layout.indexOf a ∈ part))
    (hout : ∀ v ∈ vs, a ≠ h.layout.bottom v.source) :
    Berth.placeOf (h.places bs vs) a = a := by
  refine Berth.placeOf_of_notMem fun hmem => ?_
  unfold places at hmem
  rw [List.map_append, hh.laid.objects] at hmem
  rcases List.mem_append.1 hmem with hmem | hmem
  · exact hpart (hh.mem_objects.1 hmem)
  · rw [List.map_map] at hmem
    obtain ⟨v, hv, rfl⟩ := List.mem_map.1 hmem
    exact hout v hv rfl

theorem placeOf_eq {a : Address} (ha : ¬ live a) : Berth.placeOf (h.places bs vs) a = a :=
  hh.placeOf_other (fun hin => ha hin.1) fun v hv heq => ha (heq ▸ (hh.resettled.rehoused v hv).live)

/-- What becomes of a live object. -/
theorem cases {a : Address} (ha : live a) :
    (h.layout.indexOf a ∈ part ∧ Berth.placeOf (h.places bs vs) a = Berth.placeOf bs a) ∨
    (∃ v ∈ vs, a = h.layout.bottom v.source ∧
      Berth.placeOf (h.places bs vs) a = h.layout.bottom v.target) ∨
    (h.layout.indexOf a ∉ part ∧ (∀ v ∈ vs, a ≠ h.layout.bottom v.source) ∧
      Berth.placeOf (h.places bs vs) a = a) := by
  by_cases hin : h.layout.indexOf a ∈ part
  · exact .inl ⟨hin, hh.placeOf_part ha hin⟩
  by_cases hmoved : ∃ v ∈ vs, a = h.layout.bottom v.source
  · obtain ⟨v, hv, rfl⟩ := hmoved
    exact .inr (.inl ⟨v, hv, rfl, hh.placeOf_humongous hv⟩)
  · have hout : ∀ v ∈ vs, a ≠ h.layout.bottom v.source := fun v hv heq => hmoved ⟨v, hv, heq⟩
    exact .inr (.inr ⟨hin, hout, hh.placeOf_other (fun hp => hin hp.2) hout⟩)

theorem placeOf_le {a : Address} (ha : live a) :
    (Berth.placeOf (h.places bs vs) a).toNat ≤ a.toNat := by
  rcases hh.cases ha with ⟨hin, heq⟩ | ⟨v, hv, rfl, heq⟩ | ⟨-, -, heq⟩
  · rw [heq]
    obtain ⟨i, -, -, -, -, hle⟩ := hh.laid.place hh.ascending (hh.mem_objects.2 ⟨ha, hin⟩)
    exact hle
  · have hr := hh.resettled.rehoused v hv
    have hlt := hr.inside
    rw [hh.surveyed.tabled.count] at hlt
    rw [heq]
    exact hh.surveyed.tabled.layout.bottom_mono hr.left.le hlt.le
  · rw [heq]

/-! ### The regions of an object -/

theorem steady_of_regular {i : Nat} (hi : (h.region i).kind = .regular)
    (hfull : i ∈ part → tops i ≠ h.layout.bottom i) : h.Steady part tops vs i := by
  refine hh.resettled.steady ?_ fun v hv hleaves => ?_
  · unfold isVacant Region.isFree
    rw [hi, Bool.or_eq_false_iff, Bool.and_eq_false_iff]
    refine ⟨rfl, ?_⟩
    by_cases hin : i ∈ part
    · exact .inr (by simpa using hfull hin)
    · exact .inl (by simpa using hin)
  · have hk := HumongousRun.kind_of_inRun ((hh.resettled.rehoused v hv).inRun hleaves)
    rw [hi] at hk
    cases hk

/-- A region of a humongous object is neither free nor one of the part. -/
theorem notVacant_of_inRun {f i : Nat} {words : WordCount} (hin : h.InRun f words i) :
    i ∉ part ∧ h.isVacant part tops i = false := by
  have hk := HumongousRun.kind_of_inRun hin
  have hout : i ∉ part := fun hmem => by
    rw [hh.isPart.regular i hmem] at hk
    cases hk
  refine ⟨hout, ?_⟩
  unfold isVacant Region.isFree
  rw [Bool.or_eq_false_iff, Bool.and_eq_false_iff]
  refine ⟨?_, .inl (by simpa using hout)⟩
  cases hkind : (h.region i).kind <;> rw [hkind] at hk <;> first | rfl | cases hk

/-- The regions of a humongous object that does not move are kept. -/
theorem steady_of_inRun {f i : Nat} {words : WordCount} (hin : h.InRun f words i)
    (hstays : ∀ v ∈ vs, v.source ≠ f) : h.Steady part tops vs i :=
  hh.resettled.steady (hh.notVacant_of_inRun hin).2 fun v hv hleaves =>
    hstays v hv (HumongousRun.unique ((hh.resettled.rehoused v hv).inRun hleaves) hin).1

/-- If an object comes to one region of a humongous object, that one leaves all of them. -/
theorem leaves_of_inRun {f i : Nat} {words : WordCount} (hin : h.InRun f words i)
    {v : HumongousMove} (hv : v ∈ vs) (hcomes : v.Comes h.layout i) :
    ∃ w ∈ vs, ∀ j, h.InRun f words j → w.Leaves h.layout j := by
  rcases hh.resettled.vacant v hv i hcomes with hvacant | ⟨w, hw, hleaves, -⟩
  · rw [(hh.notVacant_of_inRun hin).2] at hvacant
    cases hvacant
  · obtain ⟨hsource, hcount⟩ := HumongousRun.unique ((hh.resettled.rehoused w hw).inRun hleaves) hin
    refine ⟨w, hw, fun j hj => ⟨by rw [hsource]; exact hj.2.1, ?_⟩⟩
    show j < w.source + (h.layout.regionsFor w.size).toNat
    rw [hsource, hcount]
    exact hj.2.2

/-- The object of the part has a share of a region of the part. -/
theorem stretch_part {a : Address} (ha : live a) (hin : h.layout.indexOf a ∈ part) :
    ∃ i ∈ part, h.layout.Within i 1 (Berth.placeOf bs a)
        (h.wordsFrom t a (Berth.placeOf bs a)) ∧ h.Steady part tops vs i ∧
      (Berth.placeOf bs a).toNat + 8 * h.wordsFrom t a (Berth.placeOf bs a) ≤ (tops i).toNat := by
  obtain ⟨i, hi, hbottom, htop, -, -⟩ :=
    hh.laid.place hh.ascending (hh.mem_objects.2 ⟨ha, hin⟩)
  have hstop := (hh.laid.extent i hi).2.1
  rw [Layout.regionStop_eq_bottom_succ] at hstop
  have hpos := hh.surveyed.wordsAt_pos ha
  have hle := (h.wordsFrom_le t a (Berth.placeOf bs a)).1
  refine ⟨i, hi, ⟨hbottom, htop.trans hstop⟩, hh.steady_of_regular (hh.regular i hi) ?_, htop⟩
  intro _ hempty
  rw [hempty] at htop
  omega

/-- An object that stays outside the part is in regions that are kept. -/
theorem stretch_other {a : Address} (ha : live a) (hout : h.layout.indexOf a ∉ part)
    (hstays : ∀ v ∈ vs, a ≠ h.layout.bottom v.source) :
    ∃ f k, 0 < k ∧ f + k ≤ h.layout.numRegions ∧ h.layout.Within f k a (h.wordsAt t a) ∧
      ∀ i, f ≤ i → i < f + k → h.Steady part tops vs i := by
  have ht := hh.surveyed.tabled
  obtain ⟨c, words, ho⟩ := hh.surveyed.populated.object a ha
  rw [ho.wordsAt_eq]
  have hpos := hh.surveyed.words_pos ho
  rcases ho.place with ⟨i, hi, hk, h1, h2⟩ | ⟨f, hf, hrun, rfl⟩
  · have hi' : i < h.layout.numRegions := by rwa [← ht.count]
    have htop := (ht.top i hi).2.1
    rw [ht.stop i hi] at htop
    have hstop := ht.layout.toNat_regionStop hi'
    have hindex := ht.layout.indexOf_eq hi' h1 (by omega)
    rw [Layout.regionStop_eq_bottom_succ] at htop
    refine ⟨i, 1, Nat.one_pos, hi', ⟨h1, h2.trans htop⟩, fun j hj1 hj2 => ?_⟩
    obtain rfl : j = i := by omega
    exact hh.steady_of_regular hk fun hin => absurd (hindex ▸ hin) hout
  · obtain ⟨-, hn, hin⟩ := hrun.inside ht.toGridded hf
    refine ⟨f, _, hn, by rwa [← ht.count], ⟨Nat.le_refl _, (hrun.end_le ht.toGridded hf).1⟩,
      fun j hj1 hj2 => hh.steady_of_inRun ⟨hrun, hj1, hj2⟩ fun v hv heq => ?_⟩
    exact hstays v hv (by rw [heq])

/-- Every live object has a stretch of regions: those of its new run, or regions that are
kept. -/
theorem stretch {a : Address} (ha : live a) :
    let place := Berth.placeOf (h.places bs vs) a
    ∃ f k, 0 < k ∧ f + k ≤ h.layout.numRegions ∧
      h.layout.Within f k place (h.wordsFrom t a place) ∧
      ((∃ v ∈ vs, a = h.layout.bottom v.source ∧ f = v.target ∧ k = v.regions h.layout) ∨
        ∀ i, f ≤ i → i < f + k → h.Steady part tops vs i) := by
  intro place
  have hg := hh.surveyed.tabled.toGridded
  rcases hh.cases ha with ⟨hin, heq⟩ | ⟨v, hv, rfl, heq⟩ | ⟨hout, hstays, heq⟩
  · obtain ⟨i, hi, hwithin, hkept, -⟩ := hh.stretch_part ha hin
    have hi' := hh.isPart.inside i hi
    rw [hg.count] at hi'
    refine ⟨i, 1, Nat.one_pos, hi', by rw [show place = _ from heq]; exact hwithin,
      .inr fun j h1 h2 => ?_⟩
    obtain rfl : j = i := by omega
    exact hkept
  · have hr := hh.resettled.rehoused v hv
    have hsource := hr.source_le hg
    have hleft := hr.left
    refine ⟨v.target, v.regions h.layout, hr.regions_pos hg, by omega, ?_,
      .inl ⟨v, hv, rfl, rfl, rfl⟩⟩
    rw [show place = _ from heq]
    unfold wordsFrom
    rw [if_neg (hr.bottom_ne hg), ← hr.moved]
    exact hr.within_target hg
  · obtain ⟨f, k, hk, hin, hwithin, hkept⟩ := hh.stretch_other ha hout hstays
    refine ⟨f, k, hk, hin, ?_, .inr hkept⟩
    rw [show place = _ from heq]
    unfold wordsFrom
    rw [if_pos rfl]
    exact hwithin

/-- An object that does not go to a new run keeps out of all new runs. -/
theorem apart_run {a : Address} (ha : live a) {v : HumongousMove} (hv : v ∈ vs)
    (hne : a ≠ h.layout.bottom v.source) :
    (Berth.placeOf (h.places bs vs) a).Apart
      (h.wordsFrom t a (Berth.placeOf (h.places bs vs) a)) (h.layout.bottom v.target)
      v.copySize.toNat := by
  have hg := hh.surveyed.tabled.toGridded
  have hr := hh.resettled.rehoused v hv
  have hsource := hr.source_le hg
  have hleft := hr.left
  obtain ⟨f, k, hk, hin, hwithin, hwhere⟩ := hh.stretch ha
  refine hwithin.apart hg.layout (hr.within_target hg) hin (by omega) hk (hr.regions_pos hg) ?_
  intro i h1 h2 h3 h4
  rcases hwhere with ⟨w, hw, rfl, rfl, rfl⟩ | hkept
  · have hneq : w ≠ v := fun heq => hne (by rw [heq])
    exact hh.resettled.comes_unique hw hv hneq ⟨h1, h2⟩ ⟨h3, h4⟩
  · exact (hkept i h1 h2).taken v hv ⟨h3, h4⟩

/-- The words of a humongous object in its new run. -/
theorem wordsFrom_run {v : HumongousMove} (hv : v ∈ vs) :
    h.wordsFrom t (h.layout.bottom v.source) (h.layout.bottom v.target) = v.copySize.toNat := by
  have hg := hh.surveyed.tabled.toGridded
  have hr := hh.resettled.rehoused v hv
  unfold wordsFrom
  rw [if_neg (hr.bottom_ne hg), hr.moved]

/-- The new places of two objects do not overlap. -/
theorem apart {a c : Address} (ha : live a) (hc : live c) (hne : a ≠ c) :
    (Berth.placeOf (h.places bs vs) a).Apart
      (h.wordsFrom t a (Berth.placeOf (h.places bs vs) a)) (Berth.placeOf (h.places bs vs) c)
      (h.wordsFrom t c (Berth.placeOf (h.places bs vs) c)) := by
  have hs := hh.surveyed
  have hcases : a.toNat < c.toNat ∨ c.toNat < a.toNat := by
    rcases Nat.lt_trichotomy a.toNat c.toNat with hlt | heq | hlt
    · exact .inl hlt
    · exact absurd (UInt64.toNat_inj.1 heq) hne
    · exact .inr hlt
  -- an object of the part and one that stays outside
  have hmixed : ∀ a c, live a → h.layout.indexOf a ∈ part → live c →
      h.layout.indexOf c ∉ part → (Berth.placeOf bs a).Apart
        (h.wordsFrom t a (Berth.placeOf bs a)) c (h.wordsFrom t c c) := by
    intro a c ha hin hc hout
    obtain ⟨i, hi, hwithin, -⟩ := hh.stretch_part ha hin
    have hregion := hs.apart_region hc (hh.isPart.inside i hi) (hh.isPart.regular i hi) (by
      rintro rfl
      exact hout hi)
    rw [Layout.regionStop_eq_bottom_succ] at hregion
    have h1 := hwithin.bottom
    have h2 := hwithin.stop
    unfold Address.Apart
    unfold wordsFrom at h2 ⊢
    rw [if_pos rfl]
    omega
  rcases hh.cases hc with ⟨hinc, heqc⟩ | ⟨v, hv, rfl, heqc⟩ | ⟨houtc, -, heqc⟩
  · rcases hh.cases ha with ⟨hina, heqa⟩ | ⟨v, hv, rfl, heqa⟩ | ⟨houta, -, heqa⟩
    · rw [heqa, heqc]
      have hma := hh.mem_objects.2 ⟨ha, hina⟩
      have hmc := hh.mem_objects.2 ⟨hc, hinc⟩
      rcases hcases with hlt | hlt
      · exact .inl (hh.laid.apart hh.ascending hma hmc hlt)
      · exact .inr (hh.laid.apart hh.ascending hmc hma hlt)
    · rw [heqa, hh.wordsFrom_run hv]
      exact (hh.apart_run hc hv (Ne.symm hne)).symm
    · rw [heqa, heqc]
      exact (hmixed c a hc hinc ha houta).symm
  · rw [heqc, hh.wordsFrom_run hv]
    exact hh.apart_run ha hv hne
  · rcases hh.cases ha with ⟨hina, heqa⟩ | ⟨v, hv, rfl, heqa⟩ | ⟨houta, -, heqa⟩
    · rw [heqa, heqc]
      exact hmixed a c ha hina hc houtc
    · rw [heqa, hh.wordsFrom_run hv]
      exact (hh.apart_run hc hv (Ne.symm hne)).symm
    · rw [heqa, heqc]
      unfold wordsFrom Address.Apart
      rw [if_pos rfl, if_pos rfl]
      rcases hcases with hlt | hlt
      · exact .inl (hs.populated.disjoint a c ha hc hlt)
      · exact .inr (hs.populated.disjoint c a hc ha hlt)

end Housed

end Heap

end MarkCompact
