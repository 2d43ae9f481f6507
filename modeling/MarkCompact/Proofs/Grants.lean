/-
MarkCompact/Proofs/Grants.lean

The words that a heap has granted, after any requests.

A new heap answers requests one after the other (`Heap.Served`).  Words that are granted lie in
the part in use of a regular region, or in a run of regions that nothing else lies in
(`Heap.Houses`), and they stay there: later answers raise tops and turn free regions into other
ones, and do no more.  New words lie above a top, or in regions that were free, so they have not
been granted before.  The table of starts knows the lowest of the addresses in each block.

How many words are granted is counted in bytes, modulo `2 ^ 64`.  So a request for `2 ^ 61` words or
more in one region, which could not be granted, is granted for fewer words (`Request.size`).

* `Replies.houses`, `Replies.keeps_houses` — where granted words lie, and that they stay there;
* `Replies.apart` — they have not been granted before.

Main result: `Heap.Served.ledger`.
-/
import MarkCompact.Proofs.LowestStarts
import MarkCompact.Proofs.Refusals

namespace MarkCompact

/-! ### Words in some regions -/

/-- So many words from `a` on lie in the regions from `lo` on up to `hi`. -/
structure Layout.InRegions (l : Layout) (lo hi : Nat) (a : Address) (n : Nat) : Prop where
  nonempty : lo < hi
  inside : hi ≤ l.numRegions
  start : (l.bottom lo).toNat ≤ a.toNat
  fits : a.toNat + 8 * n ≤ (l.bottom hi).toNat

namespace Layout.InRegions

variable {l : Layout} {lo hi lo' hi' n m : Nat} {a b : Address}

theorem mono (hs : l.InRegions lo hi a n) (hle : m ≤ n) : l.InRegions lo hi a m :=
  ⟨hs.nonempty, hs.inside, hs.start, by have := hs.fits; omega⟩

/-- Words in different regions do not meet. -/
theorem apart (hs : l.InRegions lo hi a n) (hl : l.Sound) (hs' : l.InRegions lo' hi' b m)
    (hregions : hi ≤ lo' ∨ hi' ≤ lo) : a.Apart n b m := by
  have h1 := hs.start
  have h2 := hs.fits
  have h3 := hs'.start
  have h4 := hs'.fits
  have h5 := hs.nonempty
  have h6 := hs'.nonempty
  have h7 := hs.inside
  have h8 := hs'.inside
  rcases hregions with hle | hle
  · have := hl.bottom_mono hle (by omega)
    exact .inl (by omega)
  · have := hl.bottom_mono hle (by omega)
    exact .inr (by omega)

theorem le_stop (hs : l.InRegions lo hi a n) (hl : l.Sound) :
    l.base.toNat ≤ a.toNat ∧ a.toNat + 8 * n ≤ l.stop.toNat := by
  have h1 := hs.start
  have h2 := hs.fits
  have h3 := hl.bottom_mono (Nat.zero_le lo) (hs.nonempty.le.trans hs.inside)
  have h4 := hl.bottom_le_stop hs.inside
  rw [l.bottom_zero] at h3
  omega

end Layout.InRegions

namespace Heap

variable {h h' h₀ : Heap} {q q' : Request} {a b : Address} {o : Except CompactError Address}
  {gs : List (Request × Address)}

/-! ### Where granted words lie -/

/-- The words that are granted for a request. Their bytes are counted modulo `2 ^ 64`. -/
def Request.size (q : Request) : Nat := q.words.toNat % 2 ^ 61

theorem Request.toNat_bytes (q : Request) : (q.words <<< wordShift).toNat = 8 * q.size := by
  rw [toNat_shiftLeft_three]
  unfold size
  omega

/-- So many words from `a` on lie in a regular region, below its top. -/
structure InRegion (h : Heap) (i n : Nat) (a : Address) : Prop where
  inside : i < h.regions.size
  kind : (h.region i).kind = .regular
  start : (h.layout.bottom i).toNat ≤ a.toNat
  fits : a.toNat + 8 * n ≤ (h.region i).top.toNat
  top : (h.region i).top.toNat ≤ (h.layout.regionStop i).toNat

/-- The regions from `first` on are a run for so many words, which begin with it and lie below the
top of the last one. -/
structure InOwnRun (h : Heap) (first : Nat) (words : WordCount) (a : Address) : Prop where
  inside : first + (h.layout.regionsFor words).toNat ≤ h.regions.size
  run : h.HumongousRun first words
  start : a = h.layout.bottom first
  fits : a.toNat + 8 * words.toNat
    ≤ (h.region (first + ((h.layout.regionsFor words).toNat - 1))).top.toNat
  top : (h.region (first + ((h.layout.regionsFor words).toNat - 1))).top.toNat
    ≤ (h.layout.regionStop (first + ((h.layout.regionsFor words).toNat - 1))).toNat

/-- The words that are granted for a request lie where it asked for. -/
def Houses (h : Heap) (q : Request) (a : Address) : Prop :=
  (∃ i, q.MayTake h i ∧ h.InRegion i q.size a) ∨
    q.MayFill h ∧ ∃ first, h.InOwnRun first q.words a

theorem HumongousRun.inOwnRun (hg : h.Gridded) {first : Nat} {words : WordCount}
    (hrun : h.HumongousRun first words) (hfirst : first < h.regions.size) :
    h.InOwnRun first words (h.layout.bottom first) := by
  obtain ⟨-, hpos, hin⟩ := hrun.inside hg hfirst
  obtain ⟨hend, -⟩ := hrun.end_le hg hfirst
  have htop := hrun.tops (first + ((h.layout.regionsFor words).toNat - 1)) (by omega) (by omega)
  have hlast : (h.layout.regionStop (first + ((h.layout.regionsFor words).toNat - 1)))
      = h.layout.bottom (first + (h.layout.regionsFor words).toNat) := by
    rw [Layout.regionStop_eq_bottom_succ]
    congr 1
    omega
  rw [hlast] at htop
  exact ⟨hin, hrun, rfl, by omega, by rw [hlast]; omega⟩

theorem InRegion.inRegions {i n : Nat} (hr : h.InRegion i n a) (hg : h.Gridded) :
    h.layout.InRegions i (i + 1) a n :=
  ⟨Nat.lt_succ_self i, by rw [← hg.count]; exact hr.inside, hr.start, hr.fits.trans hr.top⟩

theorem InOwnRun.inRegions {first : Nat} {words : WordCount} (hr : h.InOwnRun first words a)
    (hg : h.Gridded) :
    h.layout.InRegions first (first + (h.layout.regionsFor words).toNat) a words.toNat := by
  have hin := hr.inside
  have hfirst : first < h.regions.size := by
    by_contra hh
    have hstart := hr.run.start
    rw [h.region_of_size_le (by omega)] at hstart
    cases hstart
  obtain ⟨-, hpos, -⟩ := hr.run.inside hg hfirst
  obtain ⟨hend, -⟩ := hr.run.end_le hg hfirst
  exact ⟨by omega, by rw [← hg.count]; exact hin, by rw [hr.start], by rw [hr.start]; exact hend⟩

theorem FreeRun.inRegions {first : Nat} {words : WordCount} (hr : h.FreeRun first words)
    (hg : h.Gridded) : h.layout.InRegions first (first + (h.layout.regionsFor words).toNat)
      (h.layout.bottom first) words.toNat := by
  obtain ⟨hend, -, hpos, -⟩ := hr.bounds hg
  exact ⟨by omega, by rw [← hg.count]; exact hr.inside, le_refl _, hend⟩

theorem Request.size_le (q : Request) : q.size ≤ q.words.toNat := Nat.mod_le ..

/-- The regions of granted words are not free. -/
theorem Houses.inRegions (hh : h.Houses q a) (hg : h.Gridded) :
    ∃ lo hi, h.layout.InRegions lo hi a q.size ∧
      ∀ i, lo ≤ i → i < hi → (h.region i).kind ≠ .free := by
  rcases hh with ⟨i, -, hr⟩ | ⟨-, first, hr⟩
  · refine ⟨i, i + 1, hr.inRegions hg, fun j h1 h2 => ?_⟩
    obtain rfl : j = i := by omega
    rw [hr.kind]
    decide
  · refine ⟨first, _, (hr.inRegions hg).mono q.size_le, fun j h1 h2 hfree => ?_⟩
    have hk := HumongousRun.kind_of_inRun ⟨hr.run, h1, h2⟩
    rw [hfree] at hk
    cases hk

/-! ### One answer -/

namespace Replies

theorem ground (hans : h.Replies q (o, h')) : h.SameGround h' := by
  cases hans with
  | taken => exact (sameGround_modifyRegion ..).trans (sameGround_recordStart ..)
  | filled => exact sameGround_installHumongous ..
  | opened => exact sameGround_modifyRegion ..
  | refused => exact SameGround.refl _

/-- A grant is recorded. -/
theorem starts_ok (ht : h.Tabled) (hans : h.Replies q (.ok a, h')) :
    h'.starts = h.starts.record a := by
  cases hans with
  | taken => rfl
  | filled _ free =>
    obtain ⟨-, -, hpos, -⟩ := free.bounds ht.toGridded
    have hin := free.inside
    rw [starts_installHumongous, ht.bottom _ (by omega)]

theorem starts_error {e : CompactError} (hans : h.Replies q (.error e, h')) :
    h'.starts = h.starts := by
  cases hans <;> rfl

/-- A regular region stays one, and its top is not lowered. -/
theorem regular (hans : h.Replies q (o, h')) {i : Nat} (hk : (h.region i).kind = .regular) :
    (h'.region i).kind = .regular ∧ (h.region i).top.toNat ≤ (h'.region i).top.toNat := by
  cases hans with
  | taken _ inside _ room =>
    rw [region_taking inside]
    split
    · rename_i hij
      subst hij
      exact ⟨rfl, by show _ ≤ (Address.offset ..).toNat; rw [room.toNat_offset]; omega⟩
    · exact ⟨hk, le_refl _⟩
  | filled _ free =>
    rw [FreeRun.region_kept]
    · exact ⟨hk, le_refl _⟩
    · by_contra hh
      rw [free.free i (by omega) (by omega)] at hk
      cases hk
  | opened =>
    rw [top_opening, region_opening]
    split
    · exact ⟨rfl, le_refl _⟩
    · exact ⟨hk, le_refl _⟩
  | refused => exact ⟨hk, le_refl _⟩

theorem humongousRun (hans : h.Replies q (o, h')) (ht : h.Tabled) {first : Nat} {words : WordCount}
    (hrun : h.HumongousRun first words) (hfirst : first < h.regions.size) :
    h'.HumongousRun first words := by
  cases hans with
  | taken _ inside kind room =>
    exact (retopped_taking ht inside kind room).humongousRun ht.toGridded hrun hfirst
  | filled _ free => exact free.humongousRun ht.toGridded hrun hfirst
  | opened _ inside kind _ =>
    exact (retopped_opening ht inside (by rw [kind]; rfl)).humongousRun ht.toGridded hrun hfirst
  | refused => exact hrun

/-- Granted words stay where they are. -/
theorem keeps_houses (hans : h.Replies q (o, h')) (ht : h.Tabled) (hh : h.Houses q' b) :
    h'.Houses q' b := by
  have hground := hans.ground
  have ht' := hans.tabled ht
  have hlayout := hground.layout
  have hhum : ∀ words, h'.isHumongous words = h.isHumongous words := fun words => by
    unfold isHumongous
    rw [hlayout]
  rcases hh with ⟨i, hasked, hr⟩ | ⟨hasked, first, hr⟩
  · obtain ⟨hkind, htop⟩ := hans.regular hr.kind
    have hin : i < h'.regions.size := by rw [hground.size]; exact hr.inside
    refine .inl ⟨i, ?_, hin, hkind, by rw [hlayout]; exact hr.start, hr.fits.trans htop, ?_⟩
    · cases q' with
      | anywhere words => exact ⟨hasked.1, (hhum words).trans hasked.2⟩
      | within index words => exact hasked
      | humongous words => exact hasked
    · rw [← ht'.stop i hin]
      exact (ht'.top i hin).2.1
  · have hfirst : first < h.regions.size := by
      have := (hr.inRegions ht.toGridded).nonempty
      have := hr.inside
      omega
    refine .inr ⟨?_, first, ?_⟩
    · cases q' with
      | anywhere words => exact (hhum words).trans hasked
      | within index words => exact hasked
      | humongous words => exact hasked
    · rw [hr.start, ← hlayout]
      exact (hans.humongousRun ht hr.run hfirst).inOwnRun ht'.toGridded (by rwa [hground.size])

/-- Words are granted where they have been asked for. -/
theorem houses (hans : h.Replies q (.ok a, h')) (ht : h.Tabled) : h'.Houses q a := by
  have ht' := hans.tabled ht
  cases hans with
  | @taken _ i asked inside kind room =>
    have hin : i < (h.taking i q.words).regions.size := by
      rwa [(retopped_taking ht inside kind room).size]
    have hregion : (h.taking i q.words).region i = _ := (region_taking inside i).trans (if_pos rfl)
    refine .inl ⟨i, ?_, hin, by rw [hregion], ?_, ?_, ?_⟩
    · cases q with
      | anywhere words => exact asked
      | within index words => exact asked
      | humongous words => exact asked
    · show (h.layout.bottom i).toNat ≤ _
      rw [← ht.bottom i inside]
      exact (ht.top i inside).1
    · rw [hregion]
      show _ ≤ (Address.offset ..).toNat
      rw [room.toNat_offset, q.toNat_bytes]
    · rw [← ht'.stop i hin]
      exact (ht'.top i hin).2.1
  | @filled _ first asked free =>
    have hground := sameGround_installHumongous h first q.words
    obtain ⟨-, -, hpos, -⟩ := free.bounds ht.toGridded
    have hin := free.inside
    refine .inr ⟨?_, first, ?_⟩
    · have hhum : ∀ words, (h.installHumongous first words).isHumongous words
          = h.isHumongous words := fun words => by
        unfold isHumongous
        rw [(sameGround_installHumongous h first words).layout]
      cases q with
      | anywhere words => exact (hhum words).trans asked
      | within index words => exact asked
      | humongous words => exact asked
    · rw [← hground.layout]
      exact (free.installed ht).inOwnRun ht'.toGridded (by rw [hground.size]; omega)

/-- Words are not granted twice. -/
theorem apart (hans : h.Replies q (.ok a, h')) (ht : h.Tabled) (hh : h.Houses q' b) :
    a.Apart q.size b q'.size := by
  have hg := ht.toGridded
  have hl := ht.layout
  cases hans with
  | @filled _ first _ free =>
    obtain ⟨lo, hi, hold, hused⟩ := hh.inRegions hg
    have hnonempty := hold.nonempty
    have hrun := free.inRegions hg
    have hpos := hrun.nonempty
    refine (hrun.mono q.size_le).apart hl hold ?_
    -- a region of both would be free and in use
    by_contra hmeet
    exact hused (max lo first) (by omega) (by omega) (free.free _ (by omega) (by omega))
  | @taken _ i _ inside kind room =>
    have htop := ht.top i inside
    have hstop := ht.stop i inside
    have hnew : h.layout.InRegions i (i + 1) (h.region i).top q.size := by
      unfold Roomful at room
      rw [q.toNat_bytes, hstop] at room
      exact ⟨Nat.lt_succ_self i, by rw [← hg.count]; exact inside,
        by rw [← ht.bottom i inside]; exact htop.1, room⟩
    rcases hh with ⟨j, -, hr⟩ | ⟨-, first, hr⟩
    · by_cases hij : i = j
      · -- in the same region the old words end where the new ones begin, or before
        subst hij
        exact .inr hr.fits
      · exact hnew.apart hl (hr.inRegions hg) (by omega)
    · refine hnew.apart hl ((hr.inRegions hg).mono q'.size_le) ?_
      by_contra hmeet
      have hhum := HumongousRun.kind_of_inRun (i := i) ⟨hr.run, by omega, by omega⟩
      rw [kind] at hhum
      cases hhum

end Replies

/-! ### All answers -/

/-- Requests are answered one after the other. What has been granted is listed, the last grant
first. A grant is recorded in the block of its address, and the address after the last region has
no block. -/
inductive Served (h₀ : Heap) : List (Request × Address) → Heap → Prop
  | start : Served h₀ [] h₀
  | refused {gs : List (Request × Address)} {h h' : Heap} {q : Request} {e : CompactError}
      (run : Served h₀ gs h) (answered : h.answer q = (.error e, h')) : Served h₀ gs h'
  | granted {gs : List (Request × Address)} {h h' : Heap} {q : Request} {a : Address}
      (run : Served h₀ gs h) (answered : h.answer q = (.ok a, h')) (recorded : a ≠ h.layout.stop) :
      Served h₀ ((q, a) :: gs) h'

/-- What is known of a heap by what it has granted. -/
structure Ledger (h : Heap) (gs : List (Request × Address)) : Prop where
  tabled : h.Tabled
  serves : h.starts.Serves h.layout
  housed : ∀ g ∈ gs, h.Houses g.1 g.2
  apart : gs.Pairwise fun g g' => g.2.Apart g.1.size g'.2 g'.1.size
  /-- A block answers with the lowest of the addresses that have been granted in it. -/
  starts : ∀ x, h.layout.contains x = true →
    Lowest (fun a => a ∈ gs.map Prod.snd ∧ h.starts.blockOf a = h.starts.blockOf x)
      (h.starts.startInBlock x)

namespace Ledger

/-- Nothing has been granted by a new heap. -/
theorem new {config : Config} {base : Address} (hv : config.Valid) (hb : config.Backed base)
    (hnew : Heap.new config base = .ok h) : h.Ledger [] := by
  obtain ⟨hs, -⟩ := table_new hv hb hnew
  have hstarts := starts_new hnew
  refine ⟨hs.toTabled, by rw [hstarts]; exact StartTable.serves_new hs.layout,
    fun _ hg => absurd hg List.not_mem_nil, .nil, fun x _ => ?_⟩
  have hnone : h.starts.startInBlock x = none := by
    refine Option.eq_none_iff_forall_ne_some.2 fun y hy => ?_
    rw [hstarts] at hy
    exact (StartTable.holds_new h.layout (fun _ => False) _ y hy).1
  rw [hnone]
  rintro a ⟨hmem, -⟩
  cases hmem

theorem refused (hl : h.Ledger gs) {e : CompactError} (hans : h.Replies q (.error e, h')) :
    h'.Ledger gs := by
  have hlayout := hans.ground.layout
  have hstarts := hans.starts_error
  refine ⟨hans.tabled hl.tabled, ?_, fun g hg => hans.keeps_houses hl.tabled (hl.housed g hg),
    hl.apart, ?_⟩
  · rw [hstarts, hlayout]
    exact hl.serves
  · rw [hstarts, hlayout]
    exact hl.starts

theorem granted (hl : h.Ledger gs) (hans : h.Replies q (.ok a, h')) (ha : a ≠ h.layout.stop) :
    h'.Ledger ((q, a) :: gs) := by
  have ht := hl.tabled
  have ht' := hans.tabled ht
  have hlayout := hans.ground.layout
  have hstarts := hans.starts_ok ht
  have hhouses := hans.houses ht
  refine ⟨ht', by rw [hstarts, hlayout]; exact hl.serves.record a, fun g hg => ?_, ?_, fun x hx => ?_⟩
  · rcases List.mem_cons.1 hg with rfl | hg
    · exact hhouses
    · exact hans.keeps_houses ht (hl.housed g hg)
  · exact List.pairwise_cons.2 ⟨fun g hg => hans.apart ht (hl.housed g hg), hl.apart⟩
  rw [hlayout] at hx
  -- the greatest address stands for no start, but no address of the grid is the greatest one
  have hgreatest : a ≠ Address.greatest := by
    obtain ⟨lo, hi, hregions, -⟩ := hhouses.inRegions ht'.toGridded
    rw [hlayout] at hregions
    obtain ⟨hbase, hstop⟩ := hregions.le_stop ht.layout
    refine StartTable.ne_greatest_of_contains ht.layout ((ht.layout.contains_iff a).2 ⟨hbase, ?_⟩)
    exact Nat.lt_of_le_of_ne (by omega) fun heq => ha (UInt64.toNat_inj.1 heq)
  have hblock : h.starts.blockOf x < h.starts.entries.size := by
    obtain ⟨h1, h2⟩ := (ht.layout.contains_iff x).1 hx
    exact hl.serves.blockOf_lt ht.layout h1 h2
  have hlowest := hl.starts x hx
  rw [hstarts, StartTable.startInBlock_record hgreatest hblock]
  simp only [StartTable.blockOf_record, List.map_cons, List.mem_cons]
  by_cases hsame : h.starts.blockOf a = h.starts.blockOf x
  · rw [if_pos hsame]
    refine (hlowest.lower a).congr fun z => ⟨?_, ?_⟩
    · rintro ⟨rfl | hz, hzx⟩
      · exact .inr rfl
      · exact .inl ⟨hz, hzx⟩
    · rintro (⟨hz, hzx⟩ | rfl)
      · exact ⟨.inr hz, hzx⟩
      · exact ⟨.inl rfl, hsame⟩
  · rw [if_neg hsame]
    refine hlowest.congr fun z => ⟨?_, fun hz => ⟨.inr hz.1, hz.2⟩⟩
    rintro ⟨rfl | hz, hzx⟩
    · exact absurd hzx hsame
    · exact ⟨hz, hzx⟩

end Ledger

/-- Whatever has been asked of a new heap, the words that it has granted lie where they have been
asked for, none of them have been granted twice, and the table of starts answers with the lowest
address that has been granted in each block. -/
theorem Served.ledger {config : Config} {base : Address} (hv : config.Valid)
    (hb : config.Backed base) (hnew : Heap.new config base = .ok h₀) (hs : Served h₀ gs h) :
    h.Ledger gs := by
  induction hs with
  | start => exact .new hv hb hnew
  | @refused gs h h' q e _ answered ih =>
    have hans := ih.tabled.replies q
    rw [answered] at hans
    exact ih.refused hans
  | @granted gs h h' q a _ answered recorded ih =>
    have hans := ih.tabled.replies q
    rw [answered] at hans
    exact ih.granted hans recorded

/-- Two requests that fill a region, and a third one. -/
theorem Served.ledger_filled : ∃ (config : Config) (h₀ h : Heap),
    Heap.new config 0x10000 = .ok h₀ ∧
      Served h₀ [(.within 1 6, 0x100d0), (.within 1 10, 0x10080)] h ∧
      (h.answer (.within 1 1)).1 = .error (.outOfMemory 1 0) ∧
      h.Ledger [(.within 1 6, 0x100d0), (.within 1 10, 0x10080)] := by
  let config : Config := { regionShift := 4, numRegions := 4, blockShift := 2 }
  have hv : config.Valid := by decide
  have hb : config.Backed 0x10000 := by decide
  obtain ⟨h₀, hnew, -⟩ := new_eq hv hb
  obtain ⟨hs₀, hlayout, hcount, hregions⟩ := table_new hv hb hnew
  have hcount : h₀.regions.size = 4 := hcount
  have hin : 1 < h₀.regions.size := by omega
  have hregion₀ : h₀.region 1 = .new 1 0x10080 0x10100 := by
    rw [hregions 1 hin, hlayout]
    rfl
  have hfirst : h₀.answer (.within 1 10) = (.ok 0x10080, h₀.taking 1 10) := by
    have hall := allocateIn_eq hin (by rw [hregion₀]; rfl) 10
    rw [if_pos (by unfold Roomful; rw [hregion₀]; decide), hregion₀] at hall
    exact hall
  have hin₁ : 1 < (h₀.taking 1 10).regions.size := hin.trans_eq (size_modifyRegion ..).symm
  have hregion₁ : (h₀.taking 1 10).region 1
      = { Region.new 1 0x10080 0x10100 with kind := .regular, top := 0x100d0 } := by
    rw [region_taking hin, if_pos rfl, hregion₀]
    rfl
  have hlayout₁ : (h₀.taking 1 10).layout = h₀.layout := rfl
  generalize h₀.taking 1 10 = h₁ at *
  have hsecond : h₁.answer (.within 1 6) = (.ok 0x100d0, h₁.taking 1 6) := by
    have hall := allocateIn_eq hin₁ (by rw [hregion₁]; rfl) 6
    rw [if_pos (by unfold Roomful; rw [hregion₁]; decide), hregion₁] at hall
    exact hall
  have hin₂ : 1 < (h₁.taking 1 6).regions.size := hin₁.trans_eq (size_modifyRegion ..).symm
  have hregion₂ : (h₁.taking 1 6).region 1
      = { Region.new 1 0x10080 0x10100 with kind := .regular, top := 0x10100 } := by
    rw [region_taking hin₁, if_pos rfl, hregion₁]
    rfl
  have hserved : Served h₀ [(.within 1 6, 0x100d0), (.within 1 10, 0x10080)] (h₁.taking 1 6) :=
    .granted (.granted .start hfirst (by rw [hlayout]; decide)) hsecond
      (by rw [hlayout₁, hlayout]; decide)
  refine ⟨config, h₀, _, hnew, hserved, ?_, hserved.ledger hv hb hnew⟩
  show (allocateIn _ 1 1).1 = _
  rw [allocateIn_eq hin₂ (by rw [hregion₂]; rfl), if_neg (by unfold Roomful; rw [hregion₂]; decide),
    region_opening, if_pos ⟨rfl, hin₂⟩, hregion₂]
  rfl

/-- A request for more words than there are addresses is granted by one word. -/
theorem Served.granted_wrapped : ∃ (config : Config) (h₀ h : Heap),
    config.Valid ∧ Heap.new config 0x10000 = .ok h₀ ∧
      Served h₀ [(.within 0 2305843009213693953, 0x10000)] h ∧
      h.layout.stop.toNat < (0x10000 : Address).toNat + 8 * (2305843009213693953 : WordCount).toNat ∧
      (h.region 0).top = 0x10008 := by
  let config : Config := { regionShift := 4, numRegions := 8, blockShift := 2 }
  have hv : config.Valid := by decide
  have hb : config.Backed 0x10000 := by decide
  obtain ⟨h₀, hnew, -⟩ := new_eq hv hb
  obtain ⟨hs₀, hlayout, hcount, hregions⟩ := table_new hv hb hnew
  have hcount : h₀.regions.size = 8 := hcount
  have hin : 0 < h₀.regions.size := by omega
  have hregion : h₀.region 0 = .new 0 0x10000 0x10080 := by
    rw [hregions 0 hin, hlayout]
    rfl
  have hroom : h₀.Roomful 0 2305843009213693953 := by
    unfold Roomful
    rw [hregion]
    decide
  have hgranted : h₀.answer (.within 0 2305843009213693953)
      = (.ok 0x10000, h₀.taking 0 2305843009213693953) := by
    have hall := allocateIn_eq hin (by rw [hregion]; rfl) 2305843009213693953
    rw [if_pos hroom, hregion] at hall
    exact hall
  refine ⟨config, h₀, _, hv, hnew, .granted .start hgranted (by rw [hlayout]; decide), ?_, ?_⟩
  · show h₀.layout.stop.toNat < _
    rw [hlayout]
    decide
  · rw [region_taking hin, if_pos rfl, hregion]
    decide

end Heap

end MarkCompact
