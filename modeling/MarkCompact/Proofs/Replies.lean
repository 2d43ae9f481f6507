/-
MarkCompact/Proofs/Replies.lean

How a heap answers a request for words.

Words are asked for anywhere, in one region, or in regions of their own (`Heap.Request`), and there
are four ways to answer (`Heap.Replies`): words from the top of a region on, a run of free regions,
a refusal, and a refusal by which a free region becomes a regular one.  The last is met in one case
only, a request for more words than there are in one free region: when a free region is looked at
for words anywhere, it has room for them, and a run of regions is found before it is taken.

Counts of words are not bounded here.  A count that is too large for a run of regions is refused,
but in one region a count is taken for what is left of it modulo `2 ^ 61`.

* `allocateAt_opening`, `allocateIn_eq` — in one region it is the room that decides;
* `Tabled.allocate_cases` — words that fit in a region come from the lowest one that suits
  (`Heap.LowestFit`);
* `Replies.tabled` — every answer leaves a complete table;
* `Settled.answered` — words that are granted belong to no object.

Main result: `Heap.Tabled.replies` (the four ways are all that there are).
-/
import MarkCompact.Proofs.Allocation

namespace MarkCompact

namespace Heap

variable {h h' : Heap}

/-! ### Requests -/

/-- What is asked of a heap. -/
inductive Request where
  /-- So many words, wherever there is room. -/
  | anywhere (words : WordCount)
  /-- So many words in the region at an index. -/
  | within (index : Nat) (words : WordCount)
  /-- Regions for so many words. -/
  | humongous (words : WordCount)
  deriving DecidableEq, Repr

/-- The words that are asked for. -/
def Request.words : Request → WordCount
  | .anywhere words => words
  | .within _ words => words
  | .humongous words => words

/-- The answer to a request, and the heap afterwards. -/
def answer (h : Heap) : Request → Except CompactError Address × Heap
  | .anywhere words => h.allocate words
  | .within index words => h.allocateIn index words
  | .humongous words => h.allocateHumongous words

/-- Whether a request may be granted by words of a region. -/
def Request.MayTake (h : Heap) (q : Request) (i : Nat) : Prop :=
  match q with
  | .anywhere words => 0 < words.toNat ∧ h.isHumongous words = false
  | .within index _ => index = i
  | .humongous _ => False

/-- Whether a request may be granted by a run of regions. -/
def Request.MayFill (h : Heap) : Request → Prop
  | .anywhere words => h.isHumongous words = true
  | .within _ _ => False
  | .humongous _ => True

/-- A region becomes a regular one. -/
def opening (h : Heap) (i : Nat) : Heap := h.modifyRegion i fun r => { r with kind := .regular }

/-- So many words from the top of a region on come into use. -/
def taking (h : Heap) (i : Nat) (words : WordCount) : Heap :=
  (h.modifyRegion i fun r =>
    { r with kind := .regular, top := (h.region i).top.offset words }).recordStart (h.region i).top

/-- Whether a region has room for so many words. They are counted in bytes as a shift does. -/
def Roomful (h : Heap) (i : Nat) (words : WordCount) : Prop :=
  (h.region i).top.toNat + (words <<< wordShift).toNat ≤ (h.region i).stop.toNat

instance (h : Heap) (i : Nat) (words : WordCount) : Decidable (h.Roomful i words) :=
  inferInstanceAs (Decidable (_ ≤ _))

/-- Whether a request is for words of a free region. -/
def Request.Opens (h : Heap) (i : Nat) : Request → Prop
  | .within index _ => index = i ∧ i < h.regions.size ∧ (h.region i).kind = .free
  | _ => False

/-- The ways in which a request may be answered. -/
inductive Replies (h : Heap) : Request → Except CompactError Address × Heap → Prop
  /-- Words of a region. -/
  | taken {q : Request} {i : Nat} (asked : q.MayTake h i) (inside : i < h.regions.size)
      (kind : (h.region i).kind.isHumongous = false) (room : h.Roomful i q.words) :
      Replies h q (.ok (h.region i).top, h.taking i q.words)
  /-- A run of regions. -/
  | filled {q : Request} {first : Nat} (asked : q.MayFill h) (free : h.FreeRun first q.words) :
      Replies h q (.ok (h.layout.bottom first), h.installHumongous first q.words)
  /-- Nothing, but a free region is no longer free. -/
  | opened {i : Nat} {words : WordCount} (e : CompactError) (inside : i < h.regions.size)
      (kind : (h.region i).kind = .free) (full : ¬ h.Roomful i words) :
      Replies h (.within i words) (.error e, h.opening i)
  /-- Nothing, and nothing has changed. -/
  | refused (q : Request) (e : CompactError) (kept : ∀ i, ¬ q.Opens h i) :
      Replies h q (.error e, h)

/-! ### Regions -/

theorem modifyRegion_self {i : Nat} {change : Region → Region}
    (hsame : change (h.region i) = h.region i) : h.modifyRegion i change = h := by
  have hid : h.modifyRegion i change = h.modifyRegion i id := modifyRegion_congr hsame
  rw [hid]
  unfold modifyRegion
  have hregions : h.regions.modify i id = h.regions := Array.ext (by simp) fun j _ _ => by
    rw [Array.getElem_modify]
    split <;> rfl
  rw [hregions]

theorem opening_eq (h : Heap) (i : Nat) : h.opening i
    = h.modifyRegion i fun r => { r with kind := .regular, top := (h.region i).top } :=
  modifyRegion_congr rfl

theorem opening_of_regular {i : Nat} (hk : (h.region i).kind = .regular) : h.opening i = h :=
  modifyRegion_self (by rw [← hk])

theorem modifyRegion_modifyRegion (i : Nat) (change change' : Region → Region) :
    (h.modifyRegion i change).modifyRegion i change' = h.modifyRegion i (change' ∘ change) := by
  unfold modifyRegion
  have htwice : (h.regions.modify i change).modify i change'
      = h.regions.modify i (change' ∘ change) := Array.ext (by simp) fun j _ _ => by
    simp only [Array.getElem_modify, Function.comp_apply]
    split <;> rfl
  rw [htwice]

theorem region_opening (h : Heap) (i j : Nat) :
    (h.opening i).region j
      = if i = j ∧ j < h.regions.size then { h.region j with kind := .regular } else h.region j :=
  region_modifyRegion h i j _

theorem top_opening (h : Heap) (i j : Nat) : ((h.opening i).region j).top = (h.region j).top := by
  rw [region_opening]
  split <;> rfl

/-- There is room if the new top is not past the region, and it is found without overflow. -/
theorem roomful_iff (h : Heap) (i : Nat) (words : WordCount) :
    ((decide ((h.region i).top.toNat + (words <<< wordShift).toNat < UInt64.size) &&
      decide ((h.region i).top + (words <<< wordShift) ≤ (h.region i).stop)) = true)
        ↔ h.Roomful i words := by
  have hstop := (h.region i).stop.toNat_lt
  have hsize : UInt64.size = 2 ^ 64 := rfl
  unfold Roomful
  rw [Bool.and_eq_true, decide_eq_true_eq, decide_eq_true_eq, UInt64.le_iff_toNat_le,
    UInt64.toNat_add]
  omega

/-- A region that becomes regular has room for the same words as before. -/
theorem allocateAt_opening {i : Nat} (hi : i < h.regions.size) (words : WordCount) :
    (h.opening i).allocateAt i words
      = if h.Roomful i words then some ((h.region i).top, h.taking i words) else none := by
  have hregion : (h.opening i).region i = { h.region i with kind := .regular } := by
    rw [region_opening, if_pos ⟨rfl, hi⟩]
  unfold allocateAt Region.allocate
  rw [hregion]
  dsimp only
  by_cases hroom : h.Roomful i words
  · rw [if_pos hroom, if_pos ((h.roomful_iff i words).2 hroom)]
    unfold opening taking
    dsimp only
    rw [modifyRegion_modifyRegion]
    refine congrArg (fun g : Heap => some ((h.region i).top, g.recordStart (h.region i).top)) ?_
    exact modifyRegion_congr rfl
  · rw [if_neg hroom, if_neg fun hh => hroom ((h.roomful_iff i words).1 hh)]

/-- A free region has room for words that are not too many for a region. -/
theorem Tabled.roomful_of_free (ht : h.Tabled) {i : Nat} {words : WordCount}
    (hi : i < h.regions.size) (hk : (h.region i).kind = .free)
    (hwords : h.isHumongous words = false) : h.Roomful i words := by
  have hl := ht.layout
  have hstop := hl.toNat_regionStop (ht.count ▸ hi)
  have hregion := hl.toNat_regionWords
  have hstride := hl.stride_le
  have hbytes := toNat_shiftLeft_three words
  have hle : words.toNat ≤ h.layout.regionWords.toNat := by
    unfold isHumongous at hwords
    rwa [decide_eq_false_iff_not, UInt64.not_lt, UInt64.le_iff_toNat_le] at hwords
  unfold Roomful
  rw [ht.free i hi hk, ht.bottom i hi, ht.stop i hi, hstop, hbytes]
  omega

/-! ### The lowest region that suits -/

/-- What a search of an ascending list finds lies at the least place where there is something. -/
theorem isLeast_of_findSome? {α : Type} {f : Nat → Option α} {is : List Nat}
    (hasc : is.Pairwise (· < ·)) {r : α} (hfound : is.findSome? f = some r) :
    ∃ i, f i = some r ∧ IsLeast {j | j ∈ is ∧ (f j).isSome = true} i := by
  obtain ⟨before, i, after, rfl, hi, hbefore⟩ := List.findSome?_eq_some_iff.1 hfound
  refine ⟨i, hi, ⟨by simp, by rw [hi]; rfl⟩, ?_⟩
  rintro j ⟨hj, hsome⟩
  rcases List.mem_append.1 hj with hj | hj
  · rw [hbefore j hj] at hsome
    cases hsome
  rcases List.mem_cons.1 hj with rfl | hj
  · exact le_refl _
  · exact ((List.pairwise_cons.1 (List.pairwise_append.1 hasc).2.1).1 j hj).le

/-- A regular region with so many words to spare. -/
structure HasRoom (h : Heap) (words : WordCount) (i : Nat) : Prop where
  inside : i < h.regions.size
  kind : (h.region i).kind = .regular
  room : words ≤ (h.region i).freeWords

/-- A free region. -/
structure IsFreeRegion (h : Heap) (i : Nat) : Prop where
  inside : i < h.regions.size
  kind : (h.region i).kind = .free

/-- The region from which words come that fit in one: the lowest regular one with room for them,
and the lowest free one only if no regular one has. -/
def LowestFit (h : Heap) (words : WordCount) (i : Nat) : Prop :=
  IsLeast {j | h.HasRoom words j} i ∨
    (∀ j, ¬ h.HasRoom words j) ∧ IsLeast {j | h.IsFreeRegion j} i

theorem LowestFit.inside {words : WordCount} {i : Nat} (hfit : h.LowestFit words i) :
    i < h.regions.size := by
  rcases hfit with hleast | ⟨-, hleast⟩
  · exact hleast.1.inside
  · exact hleast.1.inside

theorem LowestFit.kind {words : WordCount} {i : Nat} (hfit : h.LowestFit words i) :
    (h.region i).kind.isHumongous = false := by
  rcases hfit with hleast | ⟨-, hleast⟩
  · rw [hleast.1.kind]
    rfl
  · rw [hleast.1.kind]
    rfl

/-- Words that are not too many for a region are counted alike in words and in bytes. -/
theorem Tabled.le_freeWords_iff (ht : h.Tabled) {words : WordCount} {i : Nat}
    (hi : i < h.regions.size) (hwords : h.isHumongous words = false) :
    words ≤ (h.region i).freeWords ↔ h.Roomful i words := by
  have htop := ht.top i hi
  have hregion := ht.layout.toNat_regionWords
  have hstride := ht.layout.stride_le
  have hbytes := toNat_shiftLeft_three words
  have hle : words.toNat ≤ h.layout.regionWords.toNat := by
    unfold isHumongous at hwords
    rwa [decide_eq_false_iff_not, UInt64.not_lt, UInt64.le_iff_toNat_le] at hwords
  unfold Roomful Region.freeWords
  rw [UInt64.le_iff_toNat_le, Address.toNat_wordsTo htop.2.1, hbytes]
  omega

/-! ### The answers -/

theorem Tabled.replies_allocateHumongous (ht : h.Tabled) {q : Request} (hq : q.MayFill h) :
    h.Replies q (h.allocateHumongous q.words) := by
  cases hfind : h.findFreeRun (h.layout.regionsFor q.words).toNat with
  | none =>
    unfold allocateHumongous
    dsimp only
    rw [hfind]
    refine .refused q _ fun i hopens => ?_
    cases q with
    | within index words => exact hq
    | anywhere words => exact hopens
    | humongous words => exact hopens
  | some first =>
    rw [ht.allocateHumongous_eq hfind]
    exact .filled hq (ht.freeRun_of_find hfind)

/-- A free region that is looked at has room, so that the first one is taken and none is opened in
vain. -/
theorem Tabled.allocateInFree_eq (ht : h.Tabled) {words : WordCount}
    (hwords : h.isHumongous words = false) {is : List Nat} (hasc : is.Pairwise (· < ·))
    (hin : ∀ i ∈ is, i < h.regions.size) :
    (∀ i ∈ is, (h.region i).kind ≠ .free) ∧ allocateInFree words is h = (none, h) ∨
      ∃ i, IsLeast {j | j ∈ is ∧ (h.region j).kind = .free} i ∧ h.Roomful i words ∧
        allocateInFree words is h = (some (h.region i).top, h.taking i words) := by
  induction is with
  | nil => exact .inl ⟨fun i hi => absurd hi List.not_mem_nil, rfl⟩
  | cons i is ih =>
    obtain ⟨hfirst, hasc⟩ := List.pairwise_cons.1 hasc
    have hi := hin i (by simp)
    unfold allocateInFree
    -- the first free region is taken, so the others are passed by as they are
    by_cases hfree : (h.region i).isFree = true
    · have hk : (h.region i).kind = .free := by simpa [Region.isFree] using hfree
      have hroom := ht.roomful_of_free hi hk hwords
      have hall := allocateAt_opening hi words
      rw [if_pos hroom] at hall
      refine .inr ⟨i, ⟨⟨List.mem_cons_self, hk⟩, ?_⟩, hroom, ?_⟩
      · rintro j ⟨hj, -⟩
        rcases List.mem_cons.1 hj with rfl | hj
        · exact le_refl _
        · exact (hfirst j hj).le
      · rw [if_pos hfree]
        unfold opening at hall
        dsimp only
        rw [hall]
    · have hk : (h.region i).kind ≠ .free := by simpa [Region.isFree] using hfree
      rw [if_neg hfree]
      rcases ih hasc fun j hj => hin j (by simp [hj]) with ⟨hnone, heq⟩ | ⟨j, hleast, hroom, heq⟩
      · refine .inl ⟨fun j hj => ?_, heq⟩
        rcases List.mem_cons.1 hj with rfl | hj
        · exact hk
        · exact hnone j hj
      · refine .inr ⟨j, ⟨⟨List.mem_cons_of_mem _ hleast.1.1, hleast.1.2⟩, ?_⟩, hroom, heq⟩
        rintro k ⟨hmem, hkind⟩
        rcases List.mem_cons.1 hmem with rfl | hmem
        · exact absurd hkind hk
        · exact hleast.2 ⟨hmem, hkind⟩

/-- Words that fit in a region come from the lowest region that suits, and if none does they are
refused. -/
theorem Tabled.allocate_cases (ht : h.Tabled) {words : WordCount} (hzero : words ≠ 0)
    (hwords : h.isHumongous words = false) :
    (∃ i, h.LowestFit words i ∧ h.Roomful i words ∧
      h.allocate words = (.ok (h.region i).top, h.taking i words)) ∨
    (∀ i, ¬ h.HasRoom words i) ∧ (∀ i, ¬ h.IsFreeRegion i) ∧
      h.allocate words = (.error (.outOfMemory words h.mostFreeWords), h) := by
  have hasc : h.indices.Pairwise (· < ·) := List.pairwise_lt_range
  have hregular : ∀ i, i ∈ h.indices.filter (fun i => (h.region i).isRegular) ↔
      i < h.regions.size ∧ (h.region i).kind = .regular := fun i => by
    simp [indices, Region.isRegular]
  have hsearch : ∀ i, i < h.regions.size → (h.region i).kind = .regular →
      h.allocateAt i words
        = if h.Roomful i words then some ((h.region i).top, h.taking i words) else none := by
    intro i hi hk
    have hall := allocateAt_opening hi words
    rwa [opening_of_regular hk] at hall
  unfold allocate
  rw [if_neg hzero, if_neg (Bool.eq_false_iff.1 hwords)]
  cases hfound : (h.indices.filter fun i => (h.region i).isRegular).findSome?
      (h.allocateAt · words) with
  | some result =>
    obtain ⟨i, hall, hmem, hlow⟩ := isLeast_of_findSome? (hasc.filter _) hfound
    obtain ⟨hi, hk⟩ := (hregular i).1 hmem.1
    rw [hsearch i hi hk] at hall
    by_cases hroom : h.Roomful i words
    swap
    · rw [if_neg hroom] at hall
      cases hall
    rw [if_pos hroom] at hall
    obtain rfl := Option.some.inj hall
    refine .inl ⟨i, .inl ⟨⟨hi, hk, (ht.le_freeWords_iff hi hwords).2 hroom⟩, ?_⟩, hroom, rfl⟩
    rintro j ⟨hj, hjk, hjroom⟩
    refine hlow ⟨(hregular j).2 ⟨hj, hjk⟩, ?_⟩
    rw [hsearch j hj hjk, if_pos ((ht.le_freeWords_iff hj hwords).1 hjroom)]
    rfl
  | none =>
    have hnone : ∀ i, ¬ h.HasRoom words i := by
      rintro i ⟨hi, hk, hroom⟩
      have hall := List.findSome?_eq_none_iff.1 hfound i ((hregular i).2 ⟨hi, hk⟩)
      rw [hsearch i hi hk, if_pos ((ht.le_freeWords_iff hi hwords).1 hroom)] at hall
      cases hall
    dsimp only
    rcases ht.allocateInFree_eq hwords hasc fun i hi => List.mem_range.1 hi with
      ⟨hfree, heq⟩ | ⟨i, hleast, hroom, heq⟩
    · rw [heq]
      exact .inr ⟨hnone, fun i hi => hfree i (List.mem_range.2 hi.1) hi.2, rfl⟩
    · rw [heq]
      refine .inl ⟨i, .inr ⟨hnone, ⟨List.mem_range.1 hleast.1.1, hleast.1.2⟩, ?_⟩, hroom, rfl⟩
      exact fun j hj => hleast.2 ⟨List.mem_range.2 hj.1, hj.2⟩

theorem Tabled.replies_allocate (ht : h.Tabled) (words : WordCount) :
    h.Replies (.anywhere words) (h.allocate words) := by
  by_cases hzero : words = 0
  · unfold allocate
    rw [if_pos hzero]
    exact .refused (.anywhere words) _ fun _ => id
  by_cases hhum : h.isHumongous words = true
  · unfold allocate
    rw [if_neg hzero, if_pos hhum]
    exact ht.replies_allocateHumongous (q := .anywhere words) hhum
  have hpos : 0 < words.toNat := Nat.pos_of_ne_zero fun h0 => hzero (UInt64.toNat_inj.1 h0)
  have hsmall := Bool.eq_false_iff.2 hhum
  rcases ht.allocate_cases hzero hsmall with ⟨i, hfit, hroom, heq⟩ | ⟨-, -, heq⟩
  · rw [heq]
    exact .taken (q := .anywhere words) ⟨hpos, hsmall⟩ hfit.inside hfit.kind hroom
  · rw [heq]
    exact .refused (.anywhere words) _ fun _ => id

/-- In a region without humongous objects it is the room that decides. -/
theorem allocateIn_eq {i : Nat} (hi : i < h.regions.size)
    (hk : (h.region i).kind.isHumongous = false) (words : WordCount) :
    h.allocateIn i words = if h.Roomful i words then (.ok (h.region i).top, h.taking i words)
      else (.error (.outOfMemory words ((h.opening i).region i).freeWords), h.opening i) := by
  have hall := allocateAt_opening hi words
  have hhum : ¬ (h.region i).isHumongous = true := by
    unfold Region.isHumongous
    rw [hk]
    decide
  unfold allocateIn
  rw [if_pos hi]
  dsimp only
  rw [if_neg hhum]
  unfold opening at hall ⊢
  rw [hall]
  by_cases hroom : h.Roomful i words
  · rw [if_pos hroom, if_pos hroom]
  · rw [if_neg hroom, if_neg hroom]

theorem replies_allocateIn (h : Heap) (i : Nat) (words : WordCount) :
    h.Replies (.within i words) (h.allocateIn i words) := by
  by_cases hi : i < h.regions.size
  swap
  · unfold allocateIn
    rw [if_neg hi]
    exact .refused (.within i words) _ fun _ hopens => hi (hopens.1 ▸ hopens.2.1)
  cases hk : (h.region i).kind.isHumongous with
  | true =>
    unfold allocateIn
    rw [if_pos hi]
    dsimp only
    rw [if_pos (by exact hk)]
    refine .refused (.within i words) _ ?_
    rintro _ ⟨rfl, -, hfree⟩
    rw [hfree] at hk
    cases hk
  | false =>
    rw [allocateIn_eq hi hk]
    by_cases hroom : h.Roomful i words
    · rw [if_pos hroom]
      exact .taken (q := .within i words) rfl hi hk hroom
    · rw [if_neg hroom]
      cases hkind : (h.region i).kind with
      | free => exact .opened _ hi hkind hroom
      | regular =>
        rw [opening_of_regular hkind]
        refine .refused (.within i words) _ ?_
        rintro _ ⟨rfl, -, hfree⟩
        rw [hkind] at hfree
        cases hfree
      | humongousStart =>
        rw [hkind] at hk
        cases hk
      | humongousContinues =>
        rw [hkind] at hk
        cases hk

/-- There are no other answers. -/
theorem Tabled.replies (ht : h.Tabled) (q : Request) : h.Replies q (h.answer q) := by
  cases q with
  | anywhere words => exact ht.replies_allocate words
  | within i words => exact h.replies_allocateIn i words
  | humongous words => exact ht.replies_allocateHumongous (q := .humongous words) trivial

/-! ### The table afterwards -/

theorem retopped_opening (ht : h.Tabled) {i : Nat} (hi : i < h.regions.size)
    (hk : (h.region i).kind.isHumongous = false) : Retopped h (h.opening i) := by
  have htop := ht.top i hi
  rw [opening_eq]
  exact retopped_modifyRegion ht hk htop.1 htop.2.1 htop.2.2

theorem region_taking {i : Nat} {words : WordCount} (hi : i < h.regions.size) (j : Nat) :
    (h.taking i words).region j = if i = j then
        { h.region j with kind := .regular, top := (h.region i).top.offset words }
      else h.region j := by
  have hregion := region_modifyRegion h i j fun r =>
    { r with kind := .regular, top := (h.region i).top.offset words }
  by_cases hij : i = j
  · subst hij
    rw [if_pos rfl]
    rwa [if_pos ⟨rfl, hi⟩] at hregion
  · rw [if_neg hij]
    rwa [if_neg fun hh => hij hh.1] at hregion

theorem Roomful.toNat_offset {i : Nat} {words : WordCount} (hroom : h.Roomful i words) :
    ((h.region i).top.offset words).toNat
      = (h.region i).top.toNat + (words <<< wordShift).toNat := by
  have hstop := (h.region i).stop.toNat_lt
  unfold Roomful at hroom
  unfold Address.offset
  rw [UInt64.toNat_add]
  exact Nat.mod_eq_of_lt (by omega)

theorem retopped_taking (ht : h.Tabled) {i : Nat} {words : WordCount} (hi : i < h.regions.size)
    (hk : (h.region i).kind.isHumongous = false) (hroom : h.Roomful i words) :
    Retopped h (h.taking i words) := by
  have htop := ht.top i hi
  have hnew := hroom.toNat_offset
  have hbytes := toNat_shiftLeft_three words
  unfold Roomful at hroom
  have hretop : Retopped h (h.modifyRegion i fun r =>
      { r with kind := .regular, top := (h.region i).top.offset words }) :=
    retopped_modifyRegion ht hk (by omega) (by omega) (by omega)
  exact ⟨hretop.layout, hretop.size, hretop.extent, hretop.humongous, hretop.other⟩

/-- In every case the table is complete afterwards. -/
theorem Replies.tabled (ht : h.Tabled) {q : Request} {o : Except CompactError Address}
    (hans : h.Replies q (o, h')) : h'.Tabled := by
  cases hans with
  | taken _ inside kind room => exact (retopped_taking ht inside kind room).tabled ht
  | filled _ free => exact tabled_installHumongous free ht
  | opened _ inside kind _ => exact (retopped_opening ht inside (by rw [kind]; rfl)).tabled ht
  | refused => exact ht

/-! ### Objects -/

/-- The words from the top of a region on belong to no object. -/
theorem makes_taking (hs : h.Settled) {i : Nat} {words : WordCount} (hi : i < h.regions.size)
    (hk : (h.region i).kind.isHumongous = false) (hroom : h.Roomful i words)
    (hsmall : words.toNat < 2 ^ 61) : Makes h (h.taking i words) words (h.region i).top := by
  have hbytes := toNat_shiftLeft_three words
  rw [Nat.mod_eq_of_lt (by omega)] at hbytes
  have hnew := hroom.toNat_offset
  have hle : (h.region i).top.toNat + 8 * words.toNat ≤ (h.region i).stop.toNat := by
    rw [← hbytes]
    exact hroom
  rw [hbytes] at hnew
  have htop := hs.top i hi
  have hbottom := hs.bottom i hi
  have hraised : Keeps h (h.modifyRegion i fun r =>
      { r with kind := .regular, top := (h.region i).top.offset words }) :=
    keeps_modifyRegion hs hi hk (by omega) (by omega) (by omega)
  have hkeeps : Keeps h (h.taking i words) :=
    hraised.trans (keeps_of_regions hraised.settled (sameGround_recordStart ..) rfl)
  have hthis : (h.taking i words).region i = _ := (region_taking hi i).trans (if_pos rfl)
  have hother : ∀ j, i ≠ j → (h.taking i words).region j = h.region j := fun j hij =>
    (region_taking hi j).trans (if_neg hij)
  refine { hkeeps with
    placed := .inl ⟨i, by rwa [hkeeps.ground.size], by rw [hthis], ?_, ?_⟩
    aligned := htop.2.2
    apart := fun b w hp hw => hs.apart_top hi hk hle hp hw, starts := rfl
    regular := ?_, top := ?_, start := ?_ }
  · rw [hkeeps.ground.layout, ← hbottom]
    exact htop.1
  · rw [hthis]
    exact hnew.ge
  · intro j hj
    by_cases hij : i = j
    · subst hij
      cases hkind : (h.region i).kind with
      | free => exact .inr rfl
      | regular => exact .inl rfl
      | humongousStart => rw [hkind] at hk; cases hk
      | humongousContinues => rw [hkind] at hk; cases hk
    · exact .inl (by rwa [hother j hij] at hj)
  · intro j hj _
    by_cases hij : i = j
    · subst hij
      exact .inr ⟨rfl, by rw [hthis]; exact hnew⟩
    · -- another region ends before the new words begin, or begins after they end
      refine .inl ⟨by rw [hother j hij], fun hwpos hbelow => ?_⟩
      have hl := hs.layout
      have hi' : i < h.layout.numRegions := by rwa [← hs.count]
      have hj' : j < h.layout.numRegions := by rwa [← hs.count]
      have htopj := (hs.top j hj).2.1
      rw [hs.stop j hj, hl.toNat_regionStop hj'] at htopj
      rw [hs.stop i hi, hl.toNat_regionStop hi'] at hle
      rcases Nat.lt_or_gt_of_ne hij with hlt | hlt
      · have := hl.regionStop_le_bottom hlt hj'.le
        omega
      · have := hl.regionStop_le_bottom hlt hi'.le
        rw [hbottom] at htop
        omega
  · intro j _ hj
    by_cases hij : i = j
    · subst hij
      rw [hthis] at hj
      cases hj
    · exact .inl (by rwa [hother j hij] at hj)

/-- An opened region has no objects. -/
theorem refuses_opening (hs : h.Settled) {i : Nat} (hi : i < h.regions.size)
    (hk : (h.region i).kind = .free) : Refuses h (h.opening i) := by
  have htop := hs.top i hi
  have hkeeps : Keeps h (h.modifyRegion i fun r =>
      { r with kind := .regular, top := (h.region i).top }) :=
    keeps_modifyRegion hs hi (by rw [hk]; rfl) (le_refl _) htop.2.1 htop.2.2
  rw [← opening_eq] at hkeeps
  refine { hkeeps with starts := rfl, top := top_opening h i, kind := fun j => ?_ }
  rw [region_opening]
  split
  · rename_i hij
    obtain ⟨rfl, -⟩ := hij
    exact .inr ⟨hk, rfl⟩
  · exact .inl rfl

/-- Words that are granted belong to no object, and a refusal leaves the objects alone. -/
theorem Settled.answered (hs : h.Settled) {q : Request} (hsmall : q.words.toNat < 2 ^ 61) :
    Answered h q.words (h.answer q) := by
  have hreply := hs.replies q
  generalize h.answer q = o at hreply ⊢
  cases hreply with
  | taken _ inside kind room => exact makes_taking hs inside kind room hsmall
  | filled _ free => exact free.makes hs
  | opened _ inside kind _ => exact refuses_opening hs inside kind
  | refused => exact Refuses.refl hs

/-- Allocation anywhere hands out words that belong to no object, or nothing. -/
theorem answered_allocate (hs : h.Settled) {words : WordCount}
    (hsize : words.toNat ≤ h.layout.heapWords.toNat) : Answered h words (h.allocate words) :=
  hs.answered (q := .anywhere words) (small_of_le_heapWords hs.layout hsize)

/-- Allocation in one region does, too. -/
theorem answered_allocateIn (hs : h.Settled) (index : Nat) {words : WordCount}
    (hsize : words.toNat ≤ h.layout.heapWords.toNat) :
    Answered h words (h.allocateIn index words) :=
  hs.answered (q := .within index words) (small_of_le_heapWords hs.layout hsize)

end Heap

end MarkCompact
