/-
MarkCompact/Proofs/Bitmaps.lean

A liveness bitmap shows a set of objects.

`Bitmap.Shows b l live words` says that the plane of starts of `b` holds the
first words of the objects in `live`, and the plane of live words holds all
words of these objects, where the object at `a` has `words a` of them.  What the
bitmap answers about ranges of the grid `l` is then a statement about the set.

* `Shows.mark`, `Shows.markAll` — marking adds objects;
* `Shows.mem_markedIn`, `pairwise_markedIn` — the list of a range holds its
  objects, in ascending order;
* `length_markedIn` — as many objects are counted as are listed.
-/
import MarkCompact.Proofs.Planes
import MarkCompact.Proofs.Cells

namespace MarkCompact

/-- The address of a word of the grid. -/
@[mk_iff]
structure Layout.IsWord (l : Layout) (a : Address) : Prop where
  bottom : l.base.toNat ≤ a.toNat
  stop : a.toNat < l.stop.toNat
  aligned : a.toNat % 8 = 0

instance (l : Layout) (a : Address) : Decidable (l.IsWord a) :=
  decidable_of_iff _ (l.isWord_iff a).symm

/-- A place between two words of the grid, or at one of its ends. -/
@[mk_iff]
structure Layout.IsEdge (l : Layout) (a : Address) : Prop where
  bottom : l.base.toNat ≤ a.toNat
  stop : a.toNat ≤ l.stop.toNat
  aligned : a.toNat % 8 = 0

instance (l : Layout) (a : Address) : Decidable (l.IsEdge a) :=
  decidable_of_iff _ (l.isEdge_iff a).symm

theorem Layout.IsWord.isEdge {l : Layout} {a : Address} (h : l.IsWord a) : l.IsEdge a :=
  ⟨h.bottom, h.stop.le, h.aligned⟩

/-- A grid all of whose words have addresses, whatever the size of its regions. -/
structure Layout.Spans (l : Layout) : Prop where
  aligned : l.base.toNat % 8 = 0
  toNat_stop : l.stop.toNat = l.base.toNat + 8 * l.heapWords.toNat

theorem Layout.Spans.fits {l : Layout} (h : l.Spans) :
    l.base.toNat + 8 * l.heapWords.toNat < 2 ^ 64 := by
  rw [← h.toNat_stop]
  exact l.stop.toNat_lt

theorem Layout.Sound.spans {l : Layout} (h : l.Sound) : l.Spans :=
  ⟨h.aligned, by rw [h.toNat_stop, h.toNat_heapWords]⟩

theorem Layout.Sound.isEdge_bottom {l : Layout} (h : l.Sound) {i : Nat} (hi : i ≤ l.numRegions) :
    l.IsEdge (l.bottom i) :=
  ⟨h.base_le_bottom hi, h.bottom_le_stop hi, h.bottom_mod hi⟩

namespace Bitmap

/-! ### Positions -/

/-- A bitmap over all regions of a grid. -/
structure Fits (b : Bitmap) (l : Layout) : Prop where
  base : b.base = l.base
  starts : l.heapWords.toNat ≤ b.starts.size * chunkBits
  live : l.heapWords.toNat ≤ b.live.size * chunkBits
  /-- It is as good as new once it has been cleared. -/
  cleared : b.clear = .ofLayout l
  /-- The last chunk may be longer than the grid, but no bit is set there. -/
  trim : ∀ bit, l.heapWords.toNat ≤ bit → b.starts.get bit = false ∧ b.live.get bit = false

@[simp] theorem clear_ofLayout (l : Layout) : (ofLayout l).clear = ofLayout l := by
  simp [clear, ofLayout, new]

theorem fits_ofLayout (l : Layout) : (ofLayout l).Fits l := by
  refine ⟨rfl, ?_, ?_, clear_ofLayout l, fun bit _ => by simp [ofLayout, new]⟩ <;>
    simp only [ofLayout, new, Plane.size_blank, chunkBits] <;> omega

variable {b : Bitmap} {l : Layout}

theorem Fits.bitOf_eq (hb : b.Fits l) {a : Address} (ha : l.base.toNat ≤ a.toNat) :
    b.bitOf a = (a.toNat - l.base.toNat) / 8 := by
  unfold bitOf
  rw [hb.base, Address.toNat_wordsTo ha]

theorem Fits.addressOf_eq (hb : b.Fits l) (bit : Nat) : b.addressOf bit = l.base.nth bit := by
  unfold addressOf
  rw [hb.base]
  rfl

/-- The position of a word, and the word of a position. -/
theorem Fits.addressOf_bitOf (hl : l.Spans) (hb : b.Fits l) {a : Address} (h1 : l.base.toNat ≤ a.toNat)
    (h2 : a.toNat % 8 = 0) : b.addressOf (b.bitOf a) = a := by
  have h3 := hl.aligned
  rw [hb.addressOf_eq, hb.bitOf_eq h1]
  exact (Address.exists_nth h1 (by omega)).symm

/-- The word number `i` has the bit number `i`. -/
theorem bitOf_nth {i : Nat} (h : b.base.toNat + 8 * i < 2 ^ 64) : b.bitOf (b.base.nth i) = i := by
  have hat := Address.toNat_nth h
  unfold bitOf
  rw [Address.toNat_wordsTo (by omega), hat]
  omega

theorem Fits.bitOf_addressOf (hb : b.Fits l) {bit : Nat}
    (h : l.base.toNat + 8 * bit < 2 ^ 64) : b.bitOf (b.addressOf bit) = bit := by
  rw [← hb.base] at h
  exact bitOf_nth h

/-- Every position of the grid is that of a word. -/
theorem Fits.exists_word (hl : l.Spans) (hb : b.Fits l) {bit : Nat} (hbit : bit < l.heapWords.toNat) :
    ∃ a, l.IsWord a ∧ b.bitOf a = bit := by
  have hstop := hl.toNat_stop
  have haligned := hl.aligned
  have hfits := hl.fits
  have hat : (b.addressOf bit).toNat = l.base.toNat + 8 * bit := by
    rw [hb.addressOf_eq, Address.toNat_nth (by omega)]
  exact ⟨b.addressOf bit, ⟨by omega, by omega, by omega⟩, hb.bitOf_addressOf (by omega)⟩

theorem Fits.bitOf_lt (hl : l.Spans) (hb : b.Fits l) {a : Address} (ha : l.IsWord a) :
    b.bitOf a < l.heapWords.toNat := by
  have h2 := hl.toNat_stop
  have h3 := ha.stop
  have h4 := ha.bottom
  rw [hb.bitOf_eq ha.bottom]
  omega

/-- Later words have later positions. -/
theorem Fits.bitOf_lt_bitOf (hl : l.Spans) (hb : b.Fits l) {a c : Address} (ha : l.IsEdge a)
    (hc : l.IsEdge c) : b.bitOf a < b.bitOf c ↔ a.toNat < c.toNat := by
  have h1 := hl.aligned
  have h2 := ha.aligned
  have h3 := hc.aligned
  have h4 := ha.bottom
  have h5 := hc.bottom
  rw [hb.bitOf_eq ha.bottom, hb.bitOf_eq hc.bottom]
  omega

theorem Fits.bitOf_le_bitOf (hl : l.Spans) (hb : b.Fits l) {a c : Address} (ha : l.IsEdge a)
    (hc : l.IsEdge c) : b.bitOf a ≤ b.bitOf c ↔ a.toNat ≤ c.toNat := by
  have := hb.bitOf_lt_bitOf hl hc ha
  omega

/-! ### What a bitmap shows -/

/-- The bitmap shows the objects of a set, of so many words each. -/
structure Shows (b : Bitmap) (l : Layout) (live : Address → Prop) (words : Address → Nat) :
    Prop where
  fits : b.Fits l
  starts : ∀ a, l.IsWord a → (b.isMarked a = true ↔ live a)
  words : ∀ a, l.IsWord a →
    (b.isLive a = true ↔ ∃ o, live o ∧ o.toNat ≤ a.toNat ∧ a.toNat < o.toNat + 8 * words o)

theorem shows_ofLayout (l : Layout) (words : Address → Nat) :
    (ofLayout l).Shows l (fun _ => False) words := by
  refine ⟨fits_ofLayout l, ?_, ?_⟩
  · intro a _
    simp [isMarked, ofLayout, new]
  · intro a _
    simp [isLive, ofLayout, new]

/-- What a bitmap shows of a grid is all that there is in it. -/
theorem Shows.ext {b' : Bitmap} (hl : l.Spans) {live : Address → Prop} {words : Address → Nat}
    (hs : b.Shows l live words) (hs' : b'.Shows l live words) : b = b' := by
  have hextent : b.clear = b'.clear := hs.fits.cleared.trans hs'.fits.cleared.symm
  obtain ⟨base, covered, starts, line⟩ := b
  obtain ⟨base', covered', starts', line'⟩ := b'
  unfold clear at hextent
  simp only [Bitmap.mk.injEq] at hextent
  obtain ⟨rfl, rfl, hstarts, hlive⟩ := hextent
  congr 1
  · refine Plane.ext_get (by simpa using congrArg Array.size hstarts) fun bit => ?_
    by_cases hbit : bit < l.heapWords.toNat
    · obtain ⟨a, hw, rfl⟩ := hs.fits.exists_word hl hbit
      exact Bool.eq_iff_iff.2 ((hs.starts a hw).trans (hs'.starts a hw).symm)
    · exact (hs.fits.trim bit (by omega)).1.trans (hs'.fits.trim bit (by omega)).1.symm
  · refine Plane.ext_get (by simpa using congrArg Array.size hlive) fun bit => ?_
    by_cases hbit : bit < l.heapWords.toNat
    · obtain ⟨a, hw, rfl⟩ := hs.fits.exists_word hl hbit
      exact Bool.eq_iff_iff.2 ((hs.words a hw).trans (hs'.words a hw).symm)
    · exact (hs.fits.trim bit (by omega)).2.trans (hs'.fits.trim bit (by omega)).2.symm

theorem Shows.congr {live live' : Address → Prop} {words words' : Address → Nat}
    (hs : b.Shows l live words) (hlive : ∀ a, live a ↔ live' a)
    (hwords : ∀ a, live a → words a = words' a) : b.Shows l live' words' := by
  refine ⟨hs.fits, fun a ha => (hs.starts a ha).trans (hlive a), fun a ha => ?_⟩
  rw [hs.words a ha]
  constructor
  · rintro ⟨o, ho, h1, h2⟩
    exact ⟨o, (hlive o).1 ho, h1, hwords o ho ▸ h2⟩
  · rintro ⟨o, ho, h1, h2⟩
    have ho' := (hlive o).2 ho
    exact ⟨o, ho', h1, (hwords o ho').symm ▸ h2⟩

/-- An object that is shown already is not marked again. -/
theorem Shows.mark_of_live {live : Address → Prop} {words : Address → Nat}
    (hs : b.Shows l live words) {a : Address} (ha : l.IsWord a) (hlive : live a)
    (n : WordCount) : b.mark a n = (false, b) := by
  have h1 := (hs.starts a ha).2 hlive
  unfold isMarked at h1
  unfold mark
  dsimp only
  rw [if_pos h1]

/-- Marking adds one object. -/
theorem Shows.mark (hl : l.Spans) {live : Address → Prop} {words : Address → Nat}
    (hs : b.Shows l live words) {a : Address} (ha : l.IsWord a) (hnew : ¬ live a)
    {n : WordCount} (hn : a.toNat + 8 * n.toNat ≤ l.stop.toNat) (hwords : words a = n.toNat) :
    ∃ b', b.mark a n = (true, b') ∧ b'.Shows l (fun x => x = a ∨ live x) words := by
  have h1 : ¬ b.starts.get (b.bitOf a) = true := fun h => hnew ((hs.starts a ha).1 h)
  refine ⟨_, by unfold Bitmap.mark; dsimp only; rw [if_neg h1], ?_⟩
  have hbits : ∀ x, l.IsWord x → b.bitOf x < l.heapWords.toNat := fun x hx => hs.fits.bitOf_lt hl hx
  have haligned := hl.aligned
  refine ⟨⟨hs.fits.base, ?_, ?_, ?_, ?_⟩, ?_, ?_⟩
  · simpa using hs.fits.starts
  · simpa using hs.fits.live
  · have hcleared := hs.fits.cleared
    unfold clear at hcleared ⊢
    simpa using hcleared
  · intro bit hbit
    have hbitOf := hs.fits.bitOf_eq ha.bottom
    have hstop := hl.toNat_stop
    have hbottom := ha.bottom
    have hword := ha.stop
    have ha2 := ha.aligned
    -- the bits behind the last word of the grid stay clear
    obtain ⟨h2, h3⟩ := hs.fits.trim bit hbit
    exact ⟨Plane.get_setRange_of_outside h2 (by omega), Plane.get_setRange_of_outside h3 (by omega)⟩
  · intro x hx
    have hlt := hbits x hx
    have hcap := hs.fits.starts
    show (b.starts.setRange _ _).get (b.bitOf x) = true ↔ _
    rw [Plane.get_setRange _ _ (by omega), Bool.or_eq_true, Bool.and_eq_true, decide_eq_true_eq,
      decide_eq_true_eq]
    have hold := hs.starts x hx
    unfold isMarked at hold
    rw [hold, or_comm]
    apply or_congr_left
    constructor
    · rintro ⟨h2, h3⟩
      -- only the first bit is set in the plane of starts, and a bit has one word
      have h4 : b.bitOf x = b.bitOf a := by omega
      rw [← hs.fits.addressOf_bitOf hl hx.bottom hx.aligned, h4,
        hs.fits.addressOf_bitOf hl ha.bottom ha.aligned]
    · rintro rfl
      omega
  · intro x hx
    have hlt := hbits x hx
    have hcap := hs.fits.live
    show (b.live.setRange _ _).get (b.bitOf x) = true ↔ _
    rw [Plane.get_setRange _ _ (by omega), Bool.or_eq_true, Bool.and_eq_true, decide_eq_true_eq,
      decide_eq_true_eq]
    have hold := hs.words x hx
    unfold isLive at hold
    have hx2 := hx.aligned
    have ha2 := ha.aligned
    have hx3 := hx.bottom
    have ha3 := ha.bottom
    rw [hold, hs.fits.bitOf_eq hx.bottom, hs.fits.bitOf_eq ha.bottom]
    constructor
    · rintro (⟨o, ho, h2, h3⟩ | ⟨h2, h3⟩)
      · exact ⟨o, .inr ho, h2, h3⟩
      · exact ⟨a, .inl rfl, by omega, by omega⟩
    · rintro ⟨o, rfl | ho, h2, h3⟩
      · exact .inr ⟨by omega, by omega⟩
      · exact .inl ⟨o, ho, h2, h3⟩

/-- The bitmap with all objects of a list marked. -/
def markAll (words : Address → Nat) (b : Bitmap) (as : List Address) : Bitmap :=
  as.foldl (fun b a => (b.mark a (words a).toUInt64).2) b

/-- Marking objects one after the other adds them all, in whatever order. -/
theorem Shows.markAll (hl : l.Spans) {words : Address → Nat} (as : List Address)
    {live : Address → Prop} (hs : b.Shows l live words) (hnodup : as.Nodup)
    (hnew : ∀ a ∈ as, ¬ live a) (hword : ∀ a ∈ as, l.IsWord a)
    (hend : ∀ a ∈ as, a.toNat + 8 * words a ≤ l.stop.toNat) :
    (b.markAll words as).Shows l (fun x => x ∈ as ∨ live x) words := by
  induction as generalizing b live with
  | nil => exact hs.congr (fun a => by simp) fun _ _ => rfl
  | cons a as ih =>
    obtain ⟨hnot, hnodup⟩ := List.nodup_cons.1 hnodup
    have hin := hend a (by simp)
    have hlt := l.stop.toNat_lt
    have hn : (words a).toUInt64.toNat = words a := by
      rw [UInt64.toNat_ofNat']
      omega
    obtain ⟨b', hmark, hs'⟩ := hs.mark hl (hword a (by simp)) (hnew a (by simp))
      (n := (words a).toUInt64) (by rwa [hn]) hn.symm
    have hb' : (b.mark a (words a).toUInt64).2 = b' := by rw [hmark]
    show (Bitmap.markAll words (b.mark a (words a).toUInt64).2 as).Shows l _ words
    rw [hb']
    -- the invariant is about the objects marked so far, so `live` grows with the list
    refine (ih hs' hnodup ?_ (fun c hc => hword c (by simp [hc])) fun c hc => hend c (by simp [hc])).congr
      (fun c => by rw [List.mem_cons, or_assoc, or_left_comm]) fun _ _ => rfl
    rintro c hc (rfl | hlive)
    · exact hnot hc
    · exact hnew c (by simp [hc]) hlive

/-! ### The words of one bitmap -/

/-- The words that a bitmap covers, as a grid. -/
def grid (b : Bitmap) : Layout := ⟨b.base, 0, b.covered.toNat⟩

theorem heapWords_grid (b : Bitmap) : b.grid.heapWords = b.covered := by
  simp [grid, Layout.heapWords]

theorem spans_grid {b : Bitmap} (haligned : b.base.toNat % 8 = 0)
    (hfits : b.base.toNat + 8 * b.covered.toNat < 2 ^ 64) : b.grid.Spans := by
  refine ⟨haligned, ?_⟩
  rw [heapWords_grid]
  have hstop : b.grid.stop = b.base + (b.covered <<< wordShift) := by
    simp [grid, Layout.stop, Layout.byteShift, wordShift]
  rw [hstop, UInt64.toNat_add, toNat_shiftLeft_three]
  show _ = b.base.toNat + 8 * b.covered.toNat
  omega

theorem mark_extent (b : Bitmap) (a : Address) (n : WordCount) :
    (b.mark a n).2.base = b.base ∧ (b.mark a n).2.covered = b.covered := by
  unfold mark
  dsimp only
  split <;> exact ⟨rfl, rfl⟩

theorem grid_markAll (words : Address → Nat) (b : Bitmap) (as : List Address) :
    (b.markAll words as).grid = b.grid := by
  induction as generalizing b with
  | nil => rfl
  | cons a as ih =>
    obtain ⟨h1, h2⟩ := b.mark_extent a (words a).toUInt64
    refine (ih _).trans ?_
    unfold grid
    rw [h1, h2]

/-- A new bitmap shows nothing. -/
theorem shows_new (base : Address) (covered : WordCount) (words : Address → Nat) :
    (new base covered).Shows (new base covered).grid (fun _ => False) words := by
  have h := shows_ofLayout (new base covered).grid words
  unfold ofLayout at h
  rw [heapWords_grid] at h
  exact h

/-- A new bitmap shows the objects that have been marked in it. -/
theorem shows_marked {base : Address} {covered : WordCount} (haligned : base.toNat % 8 = 0)
    (hfits : base.toNat + 8 * covered.toNat < 2 ^ 64) {words : Address → Nat} {as : List Address}
    (hnodup : as.Nodup) (has : ∀ a ∈ as, base.toNat ≤ a.toNat ∧ a.toNat % 8 = 0 ∧ 0 < words a ∧
      a.toNat + 8 * words a ≤ base.toNat + 8 * covered.toNat) :
    ((new base covered).markAll words as).Shows (new base covered).grid (· ∈ as) words := by
  have hl : (new base covered).grid.Spans := spans_grid haligned hfits
  have hstop := hl.toNat_stop
  rw [heapWords_grid] at hstop
  change _ = base.toNat + 8 * covered.toNat at hstop
  refine ((shows_new base covered words).markAll hl as hnodup (fun _ _ => id) (fun a ha => ?_) fun a ha => ?_).congr
    (fun a => or_iff_left id) fun _ _ => rfl
  · obtain ⟨h1, h2, h3, h4⟩ := has a ha
    exact ⟨h1, by omega, h2⟩
  · rw [hstop]
    exact (has a ha).2.2.2

/-! ### Ranges -/

theorem markedIn_eq (b : Bitmap) {first limit : Address} (h : first.toNat ≤ limit.toNat) :
    b.markedIn first limit = (b.starts.bitsFrom (b.bitOf first) (b.bitOf limit)).map b.addressOf := by
  unfold markedIn
  split
  · rfl
  · rename_i hlt
    rw [UInt64.lt_iff_toNat_lt] at hlt
    have heq : first = limit := UInt64.toNat_inj.1 (by omega)
    subst heq
    rw [Plane.bitsFrom_eq]
    simp

variable {live : Address → Prop} {words : Address → Nat}

/-- The list of a range holds the objects that begin in it. -/
theorem Shows.mem_markedIn (hl : l.Spans) (hs : b.Shows l live words)
    (hword : ∀ a, live a → l.IsWord a) {first limit : Address} (hf : l.IsEdge first)
    (ht : l.IsEdge limit) (a : Address) :
    a ∈ b.markedIn first limit ↔ live a ∧ first.toNat ≤ a.toNat ∧ a.toNat < limit.toNat := by
  by_cases hle : first.toNat ≤ limit.toNat
  · rw [b.markedIn_eq hle, List.mem_map]
    have hstop := hl.toNat_stop
    have hfits := hl.fits
    -- the limit may be the end of the grid, which has no bit
    have hbit : b.bitOf limit ≤ l.heapWords.toNat := by
      have h2 := ht.stop
      rw [hs.fits.bitOf_eq ht.bottom]
      omega
    constructor
    · rintro ⟨i, hi, rfl⟩
      rw [Plane.mem_bitsFrom] at hi
      obtain ⟨⟨h1, h2⟩, h3⟩ := hi
      have hval : (b.addressOf i).toNat = l.base.toNat + 8 * i := by
        rw [hs.fits.addressOf_eq, Address.toNat_nth (by omega)]
      have haligned := hl.aligned
      have hw : l.IsWord (b.addressOf i) := ⟨by omega, by omega, by omega⟩
      have hbo : b.bitOf (b.addressOf i) = i := hs.fits.bitOf_addressOf (by omega)
      refine ⟨(hs.starts _ hw).1 (by unfold isMarked; rw [hbo]; exact h3), ?_, ?_⟩
      · rw [← hs.fits.bitOf_le_bitOf hl hf hw.isEdge, hbo]
        exact h1
      · rw [← hs.fits.bitOf_lt_bitOf hl hw.isEdge ht, hbo]
        exact h2
    · rintro ⟨h1, h2, h3⟩
      have hw := hword a h1
      refine ⟨b.bitOf a, ?_, hs.fits.addressOf_bitOf hl hw.bottom hw.aligned⟩
      rw [Plane.mem_bitsFrom]
      refine ⟨⟨?_, ?_⟩, (hs.starts a hw).2 h1⟩
      · exact (hs.fits.bitOf_le_bitOf hl hf hw.isEdge).2 h2
      · exact (hs.fits.bitOf_lt_bitOf hl hw.isEdge ht).2 h3
  · have hnil : b.markedIn first limit = [] := by
      unfold markedIn
      rw [if_neg]
      rw [UInt64.lt_iff_toNat_lt]
      omega
    rw [hnil]
    constructor
    · intro h
      simp at h
    · rintro ⟨-, h2, h3⟩
      omega

/-- The list of a range ascends. -/
theorem Fits.pairwise_markedIn (hl : l.Spans) (hb : b.Fits l) {first limit : Address}
    (ht : l.IsEdge limit) :
    (b.markedIn first limit).Pairwise (fun a c => a.toNat < c.toNat) := by
  unfold markedIn
  split
  · have hbit : b.bitOf limit ≤ l.heapWords.toNat := by
      have h2 := ht.stop
      have h3 := hl.toNat_stop
      rw [hb.bitOf_eq ht.bottom]
      omega
    have hfits := hl.fits
    rw [List.pairwise_map]
    refine (Plane.pairwise_bitsFrom _ _ _).imp_of_mem ?_
    intro i j hi hj hij
    have h1 := Plane.bitsFrom_bounds _ _ _ i hi
    have h2 := Plane.bitsFrom_bounds _ _ _ j hj
    rw [hb.addressOf_eq, hb.addressOf_eq, Address.toNat_nth (by omega), Address.toNat_nth (by omega)]
    omega
  · exact List.Pairwise.nil

/-- Between two places that are in order, the bits of either plane are counted. -/
theorem count_of_le (b : Bitmap) (p : Plane) {first stop : Address}
    (h : first.toNat ≤ stop.toNat) :
    (if stop ≤ first then 0 else p.count (b.bitOf first) (b.bitOf stop))
      = p.count (b.bitOf first) (b.bitOf stop) := by
  split
  · rename_i hle
    obtain rfl : first = stop := UInt64.toNat_inj.1 (le_antisymm h (UInt64.le_iff_toNat_le.1 hle))
    rw [Plane.count_eq, Nat.sub_self]
    rfl
  · rfl

theorem countWords_eq_count (b : Bitmap) {first stop : Address} (h : first.toNat ≤ stop.toNat) :
    b.countWords first stop = b.live.count (b.bitOf first) (b.bitOf stop) :=
  b.count_of_le b.live h

theorem countObjects_eq_count (b : Bitmap) {first stop : Address} (h : first.toNat ≤ stop.toNat) :
    b.countObjects first stop = b.starts.count (b.bitOf first) (b.bitOf stop) :=
  b.count_of_le b.starts h

/-- As many objects are counted in a range as are listed. -/
theorem length_markedIn (b : Bitmap) (first limit : Address) :
    (b.markedIn first limit).length = b.countObjects first limit := by
  unfold markedIn countObjects
  by_cases h : first < limit
  · rw [if_pos h, if_neg (UInt64.not_le.2 h), List.length_map, Plane.length_bitsFrom]
  · rw [if_neg h, if_pos (UInt64.not_lt.1 h)]
    rfl

end Bitmap

end MarkCompact
