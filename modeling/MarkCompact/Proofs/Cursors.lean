/-
MarkCompact/Proofs/Cursors.lean

The cursor of a compaction point.

A compaction point works on the first regions of the part, one of which is open: the regions
before it have been filled as far as was noted in them, those after it are empty, and the open
one is filled up to the cursor (`CompactionPoint.Works`, `filled`).  Opening further regions
until an object fits changes none of this, and it ends at the latest in the region of the
object: an object that the cursor has not passed fits where it lies (`Works.makeRoom`).

Where the cursor goes if nothing but room counts is a function of the sizes of the objects
(`Heap.nextFit`).

Main results: `Works.makeRoom` and `Works.keepInPlace`.
-/
import MarkCompact.Proofs.Enlisting
import MarkCompact.Proofs.Headers

namespace MarkCompact

/-- The place for an object at `a` of so many words in its place and so many elsewhere: the first
one with room, from `top` in the first of some regions on, and the regions from there on. -/
def Heap.nextFit (h : Heap) (a : Address) (words moved : Nat) :
    Address → List Nat → Option (Address × List Nat)
  | _, [] => none
  | top, i :: rest =>
    if top.toNat + 8 * (if top = a then words else moved) ≤ (h.layout.regionStop i).toNat then
      some (top, i :: rest)
    else h.nextFit a words moved (h.layout.bottom (rest.headD 0)) rest

namespace CompactionPoint

/-- How far the regions have been filled, the open one up to the cursor. -/
def filled (p : CompactionPoint) (tops : Nat → Address) : Nat → Address :=
  Function.update tops p.openRegion p.top

/-- The compaction point works on the first `k` regions of the part, and the heap `g` is `h` with
the regions of the part enlisted and filled up to `tops` where they are not open. -/
structure Works (h : Heap) (part : List Nat) (k : Nat) (tops : Nat → Address)
    (p : CompactionPoint) (g : Heap) : Prop where
  regions : p.regions.toList = part.take k
  active : p.stage = .active
  current : p.current < k
  count : k ≤ part.length
  enlisted : h.Enlisted part tops g
  extent : ∀ i ∈ part, (h.layout.bottom i).toNat ≤ (p.filled tops i).toNat ∧
    (p.filled tops i).toNat ≤ (h.layout.regionStop i).toNat ∧ (p.filled tops i).toNat % 8 = 0
  /-- The open region and those after it have nothing noted in them. -/
  ahead : ∀ j i : Nat, p.current ≤ j → part[j]? = some i → tops i = h.layout.bottom i

variable {h g : Heap} {part : List Nat} {k : Nat} {tops : Nat → Address} {p : CompactionPoint}

namespace Works

/-- The open region is one of the part. -/
theorem openRegion (hw : p.Works h part k tops g) : part[p.current]? = some p.openRegion := by
  have hlt : p.current < part.length := hw.current.trans_le hw.count
  have hat : p.regions[p.current]? = some part[p.current] := by
    rw [← Array.getElem?_toList, hw.regions, List.getElem?_take, if_pos hw.current,
      List.getElem?_eq_getElem hlt]
  unfold CompactionPoint.openRegion regionAt
  rw [hat, List.getElem?_eq_getElem hlt]
  rfl

theorem openRegion_mem (hw : p.Works h part k tops g) : p.openRegion ∈ part :=
  List.mem_of_getElem? hw.openRegion

theorem openRegion_eq (hw : p.Works h part k tops g) {i : Nat} (hi : part[p.current]? = some i) :
    p.openRegion = i :=
  Option.some.inj (hw.openRegion.symm.trans hi)

/-- The open region has one number in the part. -/
theorem current_eq (hw : p.Works h part k tops g) (hp : h.Part part) {q : Nat}
    (hq : part[q]? = some p.openRegion) : p.current = q :=
  position_unique hp.ascending hw.openRegion hq

theorem filled_open (p : CompactionPoint) (tops : Nat → Address) :
    p.filled tops p.openRegion = p.top :=
  Function.update_self ..

theorem size (hw : p.Works h part k tops g) : p.regions.size = k := by
  have hlen := congrArg List.length hw.regions
  rw [Array.length_toList, List.length_take] at hlen
  have := hw.count
  omega

theorem drop_current (hw : p.Works h part k tops g) :
    part.drop p.current = p.openRegion :: part.drop (p.current + 1) := by
  have hlt : p.current < part.length := hw.current.trans_le hw.count
  rw [List.drop_eq_getElem_cons hlt]
  have hopen := hw.openRegion
  rw [List.getElem?_eq_getElem hlt, Option.some.injEq] at hopen
  rw [hopen]

/-- Objects fit as far as the open region goes. -/
theorem fits_iff (hw : p.Works h part k tops g) (ht : h.Tabled) (hp : h.Part part)
    (n : WordCount) :
    p.fits g n = true ↔ p.top.toNat + 8 * n.toNat ≤ (h.layout.regionStop p.openRegion).toNat := by
  have hmem := hw.openRegion_mem
  have hlt := hp.inside _ hmem
  obtain ⟨-, h2, h3⟩ := hw.extent _ hmem
  rw [filled_open] at h2 h3
  have hstop : (g.region p.openRegion).stop = h.layout.regionStop p.openRegion := by
    rw [(hw.enlisted.sameUse.extent _).2.2, ht.stop _ hlt]
  have hlt' : p.openRegion + 1 ≤ h.layout.numRegions := by
    rw [← ht.count]
    exact hlt
  have hmod := ht.layout.bottom_mod hlt'
  rw [← Layout.regionStop_eq_bottom_succ] at hmod
  unfold fits
  rw [decide_eq_true_eq, hstop, UInt64.le_iff_toNat_le, Address.toNat_wordsTo h2]
  omega

/-- Only the sequence, the cursor and the region table matter. -/
theorem congr (hw : p.Works h part k tops g) {p' : CompactionPoint} {g' : Heap}
    (hregions : p'.regions = p.regions) (hstage : p'.stage = p.stage)
    (hcurrent : p'.current = p.current) (htop : p'.top = p.top) (hlayout : g'.layout = g.layout)
    (hheaders : g'.compactHeaders = g.compactHeaders) (htable : g'.regions = g.regions) :
    p'.Works h part k tops g' := by
  have hopen : p'.openRegion = p.openRegion := by
    unfold CompactionPoint.openRegion regionAt
    rw [hregions, hcurrent]
  have hfilled : p'.filled tops = p.filled tops := by
    unfold filled
    rw [hopen, htop]
  exact ⟨hregions ▸ hw.regions, hstage.trans hw.active, hcurrent ▸ hw.current, hw.count,
    hw.enlisted.of_regions hlayout hheaders htable, hfilled ▸ hw.extent, hcurrent ▸ hw.ahead⟩

/-- The cursor goes on in the open region. -/
theorem fill (hw : p.Works h part k tops g) {v : Address}
    (hbottom : (h.layout.bottom p.openRegion).toNat ≤ v.toNat)
    (hstop : v.toNat ≤ (h.layout.regionStop p.openRegion).toNat) (haligned : v.toNat % 8 = 0) :
    ({ p with top := v } : CompactionPoint).Works h part k tops g ∧
      ({ p with top := v } : CompactionPoint).filled tops
        = Function.update (p.filled tops) p.openRegion v := by
  have hfilled : ({ p with top := v } : CompactionPoint).filled tops
      = Function.update (p.filled tops) p.openRegion v := by
    unfold filled
    rw [Function.update_idem]
    rfl
  refine ⟨⟨hw.regions, hw.active, hw.current, hw.count, hw.enlisted, ?_, hw.ahead⟩, hfilled⟩
  rw [hfilled]
  intro i hi
  by_cases hio : i = p.openRegion
  · rw [hio, Function.update_self]
    exact ⟨hbottom, hstop, haligned⟩
  · rw [Function.update_of_ne hio]
    exact hw.extent i hi

end Works

/-! ### The next region -/

/-- Opening the next region leaves in the one that was open how far it has been filled. -/
theorem Works.next (hw : p.Works h part k tops g) (ht : h.Tabled) (hp : h.Part part)
    (hlt : p.current + 1 < k) :
    (p.resumeAt (p.saveTop g) (p.current + 1)).Works h part k (p.filled tops) (p.saveTop g) ∧
      (p.resumeAt (p.saveTop g) (p.current + 1)).filled (p.filled tops) = p.filled tops ∧
      (p.resumeAt (p.saveTop g) (p.current + 1)).top
        = h.layout.bottom (p.resumeAt (p.saveTop g) (p.current + 1)).openRegion ∧
      (h.layout.regionStop p.openRegion).toNat
        ≤ (p.resumeAt (p.saveTop g) (p.current + 1)).top.toNat := by
  have hmem := hw.openRegion_mem
  have hin := hp.inside _ hmem
  have hen : h.Enlisted part (p.filled tops) (p.saveTop g) :=
    hw.enlisted.setTop hmem hin p.top
  have hnext : p.current + 1 < part.length := hlt.trans_le hw.count
  -- the next region is empty
  have hopen : (p.resumeAt (p.saveTop g) (p.current + 1)).openRegion = part[p.current + 1] := by
    unfold CompactionPoint.openRegion regionAt resumeAt
    dsimp only
    rw [← Array.getElem?_toList, hw.regions, List.getElem?_take, if_pos hlt,
      List.getElem?_eq_getElem hnext]
    rfl
  have hnext' : part[p.current + 1]? = some part[p.current + 1] := List.getElem?_eq_getElem hnext
  have hlater : p.openRegion < part[p.current + 1] :=
    pairwise_lt_getElem? hp.ascending hw.openRegion hnext' (Nat.lt_succ_self _)
  have hempty : p.filled tops part[p.current + 1] = h.layout.bottom part[p.current + 1] := by
    unfold filled
    rw [Function.update_of_ne hlater.ne']
    exact hw.ahead _ _ (Nat.le_succ _) hnext'
  have htop : (p.resumeAt (p.saveTop g) (p.current + 1)).top
      = h.layout.bottom part[p.current + 1] := by
    have hregion : p.regionAt (p.current + 1) = part[p.current + 1] := hopen
    show ((p.saveTop g).region (p.regionAt (p.current + 1))).compactionTop = _
    rw [hregion, hen.member _ (List.getElem_mem hnext), ← hempty]
    rfl
  have hsame : (p.resumeAt (p.saveTop g) (p.current + 1)).filled (p.filled tops)
      = p.filled tops := by
    show Function.update _ _ _ = _
    rw [htop, hopen, ← hempty]
    exact Function.update_eq_self ..
  refine ⟨⟨hw.regions, rfl, hlt, hw.count, hen, ?_, ?_⟩, hsame, ?_, ?_⟩
  · rw [hsame]
    exact hw.extent
  · intro j i hj hi
    have hne : p.openRegion ≠ i :=
      (pairwise_lt_getElem? hp.ascending hw.openRegion hi (show p.current < j from hj)).ne
    unfold filled
    rw [Function.update_of_ne hne.symm]
    exact hw.ahead j i ((Nat.le_succ _).trans hj) hi
  · rw [htop, hopen]
  · have hin' := hp.inside _ (List.getElem_mem hnext)
    have hl := ht.layout
    rw [ht.count] at hin hin'
    rw [htop, hl.toNat_regionStop hin]
    exact hl.regionStop_le_bottom hlater hin'.le

/-- What opening regions for an object leaves of the compaction point. -/
structure Advanced (p : CompactionPoint) (g : Heap) (p' : CompactionPoint) (g' : Heap) :
    Prop where
  current : p.current ≤ p'.current
  top : p.top.toNat ≤ p'.top.toNat ∨ p.current < p'.current
  count : p'.count = p.count
  source : p'.source = p.source
  targets : p'.targets = p.targets
  memory : g'.memory = g.memory
  starts : g'.starts = g.starts

/-- An object in the region number `q` of the part that the cursor has not passed. -/
structure Before (h : Heap) (part : List Nat) (p : CompactionPoint) (a : Address) (words q i : Nat) :
    Prop where
  region : part[q]? = some i
  current : p.current ≤ q
  bottom : (h.layout.bottom i).toNat ≤ a.toNat
  stop : a.toNat + 8 * words ≤ (h.layout.regionStop i).toNat
  aligned : a.toNat % 8 = 0
  ahead : p.current = q → p.top.toNat ≤ a.toNat

/-- The cursor does not lie past the object. -/
theorem Before.top_le (hw : p.Works h part k tops g) (ht : h.Tabled) (hp : h.Part part)
    {a : Address} {words q i : Nat} (hb : Before h part p a words q i) :
    p.top.toNat ≤ a.toNat := by
  rcases Nat.lt_or_eq_of_le hb.current with hlt | heq
  · have hmem := hw.openRegion_mem
    have hless := pairwise_lt_getElem? hp.ascending hw.openRegion hb.region hlt
    have hin := hp.inside _ hmem
    have hin' := hp.inside _ (List.mem_of_getElem? hb.region)
    have hextent := (hw.extent _ hmem).2.1
    rw [Works.filled_open] at hextent
    rw [ht.count] at hin hin'
    have hstop := ht.layout.toNat_regionStop hin
    have hle := ht.layout.regionStop_le_bottom hless hin'.le
    have := hb.bottom
    omega
  · exact hb.ahead heq

theorem wordsAt_toNat (a : Address) (size copySize : WordCount) (x : Address) :
    (wordsAt a size copySize x).toNat = if x = a then size.toNat else copySize.toNat := by
  unfold wordsAt
  split <;> rfl

/-- Whether an object fits at the cursor counts its words there. -/
theorem Works.fits_wordsAt_iff (hw : p.Works h part k tops g) (ht : h.Tabled) (hp : h.Part part)
    (a : Address) (size copySize : WordCount) :
    p.fits g (wordsAt a size copySize p.top) = true ↔
      p.top.toNat + 8 * (if p.top = a then size.toNat else copySize.toNat)
        ≤ (h.layout.regionStop p.openRegion).toNat := by
  rw [hw.fits_iff ht hp, wordsAt_toNat]

/-- In its own region an object that the cursor has not passed fits, for a copy needs at most one
word more. -/
theorem Before.room (hw : p.Works h part k tops g) {a : Address} {size copySize q i : Nat}
    (hb : Before h part p a size q i) (hq : p.current = q) (hcopy : copySize ≤ size + 1) :
    p.top.toNat + 8 * (if p.top = a then size else copySize)
      ≤ (h.layout.regionStop p.openRegion).toNat := by
  have hmod := (hw.extent _ hw.openRegion_mem).2.2
  rw [Works.filled_open] at hmod
  have hahead := hb.ahead hq
  have haligned := hb.aligned
  have hstop := hb.stop
  rw [hw.openRegion_eq (hq ▸ hb.region)]
  by_cases htop : p.top = a
  · rw [if_pos htop, htop]
    exact hstop
  · have hne : p.top.toNat ≠ a.toNat := fun hh => htop (UInt64.toNat_inj.1 hh)
    rw [if_neg htop]
    omega

/-- Regions have been opened for the object at `a`, which lies in the region number `q` of the
part, until it fits. -/
structure RoomMade (h : Heap) (part : List Nat) (k : Nat) (a : Address) (size copySize q i : Nat)
    (tops : Nat → Address) (p : CompactionPoint) (g : Heap) (tops' : Nat → Address)
    (p' : CompactionPoint) (g' : Heap) : Prop where
  works : p'.Works h part k tops' g'
  filled : p'.filled tops' = p.filled tops
  advanced : p.Advanced g p' g'
  before : Before h part p' a size q i
  room : p'.top.toNat + 8 * (if p'.top = a then size else copySize)
    ≤ (h.layout.regionStop p'.openRegion).toNat
  first : h.nextFit a size copySize p.top (part.drop p.current)
    = some (p'.top, part.drop p'.current)
  place : p'.current = p.current ∧ p'.top = p.top ∨
    p'.top = h.layout.bottom p'.openRegion ∧ p.current < p'.current

/-- Where the object fits at once no region is opened. -/
theorem Works.roomMade (hw : p.Works h part k tops g) {a : Address} {size copySize q i : Nat}
    (hb : Before h part p a size q i)
    (hroom : p.top.toNat + 8 * (if p.top = a then size else copySize)
      ≤ (h.layout.regionStop p.openRegion).toNat) :
    RoomMade h part k a size copySize q i tops p g tops p g where
  works := hw
  filled := rfl
  advanced := ⟨Nat.le_refl _, .inl (Nat.le_refl _), rfl, rfl, rfl, rfl, rfl⟩
  before := hb
  room := hroom
  first := by rw [hw.drop_current, Heap.nextFit, if_pos hroom]
  place := .inl ⟨rfl, rfl⟩

/-- The object lies in the next region or after it. -/
theorem Before.next (ht : h.Tabled) (hp : h.Part part) (hw : p.Works h part k tops g) {a : Address}
    {size q i : Nat} (hb : Before h part p a size q i) (hlt : p.current < q) (hq : q < k) :
    Before h part (p.resumeAt (p.saveTop g) (p.current + 1)) a size q i := by
  obtain ⟨hw', -, htop, -⟩ := hw.next ht hp (by omega)
  refine ⟨hb.region, hlt, hb.bottom, hb.stop, hb.aligned, fun heq => ?_⟩
  rw [htop, hw'.openRegion_eq (heq ▸ hb.region)]
  exact hb.bottom

/-- Room that is made from the next region on is made from the open one, if the object does not
fit there. -/
theorem RoomMade.of_next (hw : p.Works h part k tops g) (ht : h.Tabled) (hp : h.Part part)
    {a : Address} {size copySize q i : Nat} {tops' : Nat → Address} {p' : CompactionPoint}
    {g' : Heap} (hlt : p.current + 1 < k)
    (hroom : ¬ p.top.toNat + 8 * (if p.top = a then size else copySize)
      ≤ (h.layout.regionStop p.openRegion).toNat)
    (hm : RoomMade h part k a size copySize q i (p.filled tops)
      (p.resumeAt (p.saveTop g) (p.current + 1)) (p.saveTop g) tops' p' g') :
    RoomMade h part k a size copySize q i tops p g tops' p' g' := by
  obtain ⟨hw', hfilled, htop, -⟩ := hw.next ht hp hlt
  have hadv := hm.advanced
  have hcurrent : p.current + 1 ≤ p'.current := hadv.current
  refine ⟨hm.works, hm.filled.trans hfilled, ⟨by omega, .inr (by omega), hadv.count, hadv.source,
    hadv.targets, hadv.memory, hadv.starts⟩, hm.before, hm.room, ?_, .inr ⟨?_, by omega⟩⟩
  · have hdrop := hw'.drop_current
    rw [hw.drop_current, Heap.nextFit, if_neg hroom]
    change part.drop (p.current + 1) = _ at hdrop
    rw [hdrop]
    show h.nextFit a size copySize (h.layout.bottom _) _ = _
    rw [List.headD_cons, ← htop, ← hdrop]
    exact hm.first
  · rcases hm.place with ⟨hsame, heq⟩ | ⟨hbottom, -⟩
    · rw [heq, htop, hm.works.openRegion_eq (hsame ▸ hw'.openRegion)]
    · exact hbottom

/-- Regions are opened until the object fits, at the latest in its own region. -/
theorem Works.makeRoom (hw : p.Works h part k tops g) (ht : h.Tabled) (hp : h.Part part)
    {a : Address} {size copySize : WordCount} {q i : Nat} (hb : Before h part p a size.toNat q i)
    (hq : q < k) (hcopy : copySize.toNat ≤ size.toNat + 1) :
    ∃ p' g' tops', p.makeRoom g a size copySize = .ok (p', g') ∧
      RoomMade h part k a size.toNat copySize.toNat q i tops p g tops' p' g' := by
  generalize hn : q - p.current = n
  induction n generalizing p g tops with
  | zero =>
    have hroom := hb.room hw (by have := hb.current; omega) hcopy
    have hfits := (hw.fits_wordsAt_iff ht hp a size copySize).2 hroom
    exact ⟨p, g, tops, by rw [CompactionPoint.makeRoom, if_pos hfits], hw.roomMade hb hroom⟩
  | succ n ih =>
    have hfits := hw.fits_wordsAt_iff ht hp a size copySize
    by_cases hroom : p.top.toNat + 8 * (if p.top = a then size.toNat else copySize.toNat)
        ≤ (h.layout.regionStop p.openRegion).toNat
    · exact ⟨p, g, tops, by rw [CompactionPoint.makeRoom, if_pos (hfits.2 hroom)],
        hw.roomMade hb hroom⟩
    · have hlt : p.current + 1 < k := by omega
      obtain ⟨p', g', tops', hrun, hmade⟩ := ih (hw.next ht hp hlt).1
        (hb.next ht hp hw (by omega) hq) (show q - (p.current + 1) = n by omega)
      refine ⟨p', g', tops', ?_, hmade.of_next hw ht hp hlt hroom⟩
      rw [CompactionPoint.makeRoom, if_neg (mt hfits.1 hroom), hw.size, if_pos hlt]
      exact hrun

/-- The cursor has been put on the object at `a` of region `i`. -/
structure OnObject (h : Heap) (part : List Nat) (k : Nat) (a : Address) (i : Nat)
    (tops : Nat → Address) (p : CompactionPoint) (g : Heap) (tops' : Nat → Address)
    (p' : CompactionPoint) (g' : Heap) : Prop where
  works : p'.Works h part k tops' g'
  filled : p'.filled tops' = Function.update (p.filled tops) i a
  advanced : p.Advanced g p' g'
  top : p'.top = a
  openRegion : p'.openRegion = i

/-- The cursor is put on an object in its own region. -/
theorem Works.keepInPlace (hw : p.Works h part k tops g) (hp : h.Part part) {a : Address}
    {words q i : Nat} (hb : Before h part p a words q i) (hq : q < k) :
    ∃ p' g' tops', p.keepInPlace g i a = .ok (p', g') ∧
      OnObject h part k a i tops p g tops' p' g' := by
  have hopen := hw.openRegion
  have hmem := List.mem_of_getElem? hb.region
  -- the region of the object is filled up to it, the others as before
  have hextent : ∀ j ∈ part, (h.layout.bottom j).toNat
        ≤ (Function.update (p.filled tops) i a j).toNat ∧
      (Function.update (p.filled tops) i a j).toNat ≤ (h.layout.regionStop j).toNat ∧
      (Function.update (p.filled tops) i a j).toNat % 8 = 0 := by
    intro j hj
    by_cases hji : j = i
    · subst hji
      rw [Function.update_self]
      have hstop := hb.stop
      exact ⟨hb.bottom, by omega, hb.aligned⟩
    · rw [Function.update_of_ne hji]
      exact hw.extent j hj
  unfold CompactionPoint.keepInPlace
  by_cases hsame : p.openRegion = i
  · have hcurrent : p.current = q := hw.current_eq hp (hsame ▸ hb.region)
    have hstop := hb.stop
    obtain ⟨hw', hfilled⟩ := hw.fill (v := a) (by rw [hsame]; exact hb.bottom)
      (by rw [hsame]; omega) hb.aligned
    rw [hsame] at hfilled
    exact ⟨{ p with top := a }, g, tops, if_pos hsame, hw', hfilled,
      ⟨Nat.le_refl _, .inl (hb.ahead hcurrent), rfl, rfl, rfl, rfl, rfl⟩, rfl, hsame⟩
  · have hlt : p.current < q :=
      Nat.lt_of_le_of_ne hb.current fun heq => hsame (hw.openRegion_eq (heq ▸ hb.region))
    have hfind : (p.regions.toList.drop p.current).findIdx? (· == i) = some (q - p.current) := by
      rw [hw.regions]
      exact findIdx?_drop_take hp.ascending hb.region hlt.le hq
    have hen : h.Enlisted part (p.filled tops) (p.saveTop g) :=
      hw.enlisted.setTop hw.openRegion_mem (hp.inside _ hw.openRegion_mem) p.top
    have hcurrent : p.current + (q - p.current) = q := by omega
    have hopen' : ({ p with current := p.current + (q - p.current), top := a } :
        CompactionPoint).openRegion = i := by
      unfold CompactionPoint.openRegion regionAt
      dsimp only
      rw [hcurrent, ← Array.getElem?_toList, hw.regions, List.getElem?_take, if_pos hq, hb.region]
      rfl
    have hfilled : ({ p with current := p.current + (q - p.current), top := a } :
        CompactionPoint).filled (p.filled tops) = Function.update (p.filled tops) i a := by
      conv_lhs => unfold filled
      rw [hopen']
      rfl
    rw [if_neg hsame, hfind]
    refine ⟨_, _, p.filled tops, rfl, ?_, hfilled, ?_, rfl, hopen'⟩
    · refine ⟨hw.regions, hw.active, hcurrent.trans_lt hq, hw.count, hen,
        by rw [hfilled]; exact hextent, ?_⟩
      intro j m hj hm
      have hless := pairwise_lt_getElem? hp.ascending hopen hm
        (show p.current < j by dsimp only at hj; omega)
      unfold filled
      rw [Function.update_of_ne hless.ne']
      exact hw.ahead j m (by dsimp only at hj; omega) hm
    · exact ⟨Nat.le_add_right .., .inr (by dsimp only; omega), rfl, rfl, rfl, rfl, rfl⟩

end CompactionPoint

end MarkCompact
