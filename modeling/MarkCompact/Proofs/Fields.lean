/-
MarkCompact/Proofs/Fields.lean

The fields of live objects.

A field lies behind the header of its object, objects do not overlap, and no class
lists a field twice.  So the fields of all live objects are distinct words, none of
them a word of a header: adjusting replaces each of them once and leaves every
header as it is.

Main results: `Surveyed.nodup_fields` and `Surveyed.follows` (what adjusting relies
on holds for every look-up that does not depend on fields).
-/
import MarkCompact.Proofs.Following

namespace MarkCompact

/-- The places of the fields of an object, none if there is no object. -/
def Heap.fieldsAt (h : Heap) (t : ClassTable) (a : Address) : List Address :=
  match h.infoOf t a with
  | .ok c => c.fields.map a.offset
  | .error _ => []

/-- The class of an object is read from its header only. -/
theorem Heap.classOf_congr_header {h h' : Heap} {t : ClassTable} {a a' : Address}
    (hhead : ∀ k < t.headerWords.toNat, h'.memory.load (a'.nth k) = h.memory.load (a.nth k)) :
    h'.classOf t a' = h.classOf t a := by
  unfold classOf
  unfold ClassTable.headerWords at hhead
  by_cases hc : t.compactHeaders = true
  · have h0 := hhead 0 (by rw [if_pos hc]; decide)
    rw [Address.nth_zero, Address.nth_zero] at h0
    rw [if_pos hc, if_pos hc, Memory.loadMark, Memory.loadMark, h0]
  · have h1 := hhead 1 (by rw [if_neg hc]; decide)
    have hone : ∀ a : Address, a.nth 1 = a.offset 1 := fun _ => rfl
    rw [hone, hone] at h1
    rw [if_neg hc, if_neg hc, h1]

theorem Heap.infoOf_congr_header {h h' : Heap} {t : ClassTable} {a : Address}
    (hhead : ∀ k < t.headerWords.toNat, h'.memory.load (a.nth k) = h.memory.load (a.nth k)) :
    h'.infoOf t a = h.infoOf t a := by
  simp only [infoOf, Heap.classOf_congr_header hhead]

/-- So is the size. -/
theorem Heap.size_congr_header {h h' : Heap} {t : ClassTable} {a : Address}
    (hhead : ∀ k < t.headerWords.toNat, h'.memory.load (a.nth k) = h.memory.load (a.nth k)) :
    h'.size t a = h.size t a := by
  have hmark := hhead 0 t.headerWords_pos
  rw [Address.nth_zero] at hmark
  unfold size Memory.loadMark
  rw [infoOf_congr_header hhead, hmark]

/-- The class of an object that lies elsewhere in another heap. -/
theorem Heap.infoOf_of_classOf {h h' : Heap} {t : ClassTable} {a a' : Address} {c : ClassInfo}
    (hclass : h'.classOf t a' = h.classOf t a) (hc : h.infoOf t a = .ok c) :
    h'.infoOf t a' = .ok c := by
  apply infoOf_of_info
  rw [hclass]
  exact info_of_infoOf hc

namespace Stocked

variable {h : Heap} {t : ClassTable} {b : Bitmap} {live : Address → Prop}

theorem fits (hs : Stocked h t b live) {a : Address} (ha : live a) :
    a.toNat + 8 * h.wordsAt t a < 2 ^ 64 := by
  have h1 := hs.end_le ha
  have h2 := hs.tabled.layout.toNat_stop
  have h3 := hs.tabled.layout.fits
  omega

theorem ne_zero (hs : Stocked h t b live) {a : Address} (ha : live a) : a ≠ 0 := by
  rintro rfl
  have h1 := (hs.isWord ha).bottom
  have h2 := hs.tabled.layout.nonzero
  have h3 : (0 : Address).toNat = 0 := rfl
  omega

theorem refersInside (hs : Stocked h t b live) {a : Address} (ha : live a) :
    h.refersInside a = true := by
  obtain ⟨c, words, ho⟩ := hs.populated.object a ha
  unfold Heap.refersInside
  rw [ho.inside, Bool.and_true, bne_iff_ne]
  exact hs.ne_zero ha

/-- A word of a live object belongs to no other one. -/
theorem word_unique (hs : Stocked h t b live) {a c : Address} (ha : live a) (hc : live c)
    {i k : Nat} (hi : i < h.wordsAt t a) (hk : k < h.wordsAt t c) (heq : a.nth i = c.nth k) :
    a = c ∧ i = k := by
  have h1 := hs.fits ha
  have h2 := hs.fits hc
  have h3 : (a.nth i).toNat = a.toNat + 8 * i := Address.toNat_nth (by omega)
  have h4 : (c.nth k).toNat = c.toNat + 8 * k := Address.toNat_nth (by omega)
  rw [heq, h4] at h3
  have hac : a = c := by
    apply UInt64.toNat_inj.1
    rcases Nat.lt_trichotomy a.toNat c.toNat with hlt | heq' | hlt
    · have := hs.populated.disjoint a c ha hc hlt
      omega
    · exact heq'
    · have := hs.populated.disjoint c a hc ha hlt
      omega
  subst hac
  exact ⟨rfl, by omega⟩

theorem headerWords_le (hs : Stocked h t b live) {a : Address} (ha : live a) :
    t.headerWords.toNat ≤ h.wordsAt t a := by
  obtain ⟨c, words, ho⟩ := hs.populated.object a ha
  have h1 := hs.classes.header c (ClassTable.mem_of_info (Heap.info_of_infoOf ho.info))
  rw [ho.wordsAt_eq]
  exact (UInt64.le_iff_toNat_le.1 h1).trans (UInt64.le_iff_toNat_le.1 ho.whole)

end Stocked

namespace Surveyed

variable {h : Heap} {t : ClassTable} {b : Bitmap} {live : Address → Prop}

theorem fieldsAt_eq {a : Address} {c : ClassInfo} (hc : h.infoOf t a = .ok c) :
    h.fieldsAt t a = c.fields.map a.offset := by
  simp [Heap.fieldsAt, hc]

/-- A field lies in its object, behind the header. -/
theorem mem_fieldsAt (hs : Surveyed h t b live) {a x : Address} (ha : live a)
    (hx : x ∈ h.fieldsAt t a) :
    ∃ k, t.headerWords.toNat ≤ k ∧ k < h.wordsAt t a ∧ x = a.nth k := by
  obtain ⟨c, words, ho⟩ := hs.populated.object a ha
  rw [fieldsAt_eq ho.info] at hx
  obtain ⟨f, hf, rfl⟩ := List.mem_map.1 hx
  obtain ⟨h1, h2⟩ := hs.classes.inside c (ClassTable.mem_of_info (Heap.info_of_infoOf ho.info)) f hf
  have h3 := UInt64.le_iff_toNat_le.1 ho.whole
  have h4 := UInt64.lt_iff_toNat_lt.1 h2
  refine ⟨f.toNat, UInt64.le_iff_toNat_le.1 h1, ?_, Address.offset_eq_nth a f⟩
  rw [ho.wordsAt_eq]
  omega

/-- No field is a word of a header. -/
theorem header_notMem_fields (hs : Surveyed h t b live) {a c : Address} (ha : live a) (hc : live c)
    {k : Nat} (hk : k < t.headerWords.toNat) : a.nth k ∉ h.fieldsAt t c := by
  intro hx
  obtain ⟨i, h1, h2, heq⟩ := hs.mem_fieldsAt hc hx
  have h3 := hs.headerWords_le ha
  obtain ⟨-, hki⟩ := hs.word_unique ha hc (by omega) h2 heq
  omega

theorem nodup_fieldsAt (hs : Surveyed h t b live) {a : Address} (ha : live a) :
    (h.fieldsAt t a).Nodup := by
  obtain ⟨c, words, ho⟩ := hs.populated.object a ha
  have hmem := ClassTable.mem_of_info (Heap.info_of_infoOf ho.info)
  rw [fieldsAt_eq ho.info]
  refine (hs.classes.nodup c hmem).map_on fun f hf g hg heq => ?_
  have hwhole := UInt64.le_iff_toNat_le.1 ho.whole
  have hfit := hs.fits ha
  rw [ho.wordsAt_eq] at hfit
  have hf' := UInt64.lt_iff_toNat_lt.1 (hs.classes.inside c hmem f hf).2
  have hg' := UInt64.lt_iff_toNat_lt.1 (hs.classes.inside c hmem g hg).2
  rw [Address.offset_eq_nth, Address.offset_eq_nth] at heq
  exact UInt64.toNat_inj.1 (Address.nth_injective (by omega) (by omega) heq)

/-- The fields of all live objects are distinct. -/
theorem nodup_fields (hs : Surveyed h t b live) :
    ((h.liveList b).flatMap (h.fieldsAt t)).Nodup := by
  rw [List.nodup_flatMap]
  refine ⟨fun a ha => hs.nodup_fieldsAt ((hs.mem_liveList a).1 ha), ?_⟩
  refine (nodup_of_pairwise hs.pairwise_liveList).pairwise_of_forall_ne fun a ha c hc hne => ?_
  intro x hxa hxc
  have hla := (hs.mem_liveList a).1 ha
  have hlc := (hs.mem_liveList c).1 hc
  obtain ⟨i, -, hi, rfl⟩ := hs.mem_fieldsAt hla hxa
  obtain ⟨k, -, hk, heq⟩ := hs.mem_fieldsAt hlc hxc
  exact hne (hs.word_unique hla hlc hi hk heq).1

/-- A field of a live object refers to a live object, or not into the heap. -/
theorem field_refers (hs : Surveyed h t b live) {a x : Address} (ha : live a)
    (hx : x ∈ h.fieldsAt t a) :
    live (h.memory.load x) ∨ h.refersInside (h.memory.load x) = false := by
  obtain ⟨c, words, ho⟩ := hs.populated.object a ha
  rw [fieldsAt_eq ho.info] at hx
  obtain ⟨f, hf, rfl⟩ := List.mem_map.1 hx
  by_cases hin : h.refersInside (h.memory.load (a.offset f)) = true
  · left
    unfold Heap.refersInside at hin
    rw [Bool.and_eq_true, bne_iff_ne] at hin
    exact hs.closed a _ ha ⟨c, f, ho.info, hf, rfl, hin.1, hin.2⟩
  · right
    simpa using hin

/-- Adjusting leaves the headers of live objects as they are. -/
theorem load_header_adjusted (hs : Surveyed h t b live) {g g' : Heap} {move : Address → Address}
    {done : List Address} (hadj : g.Adjusted g' done move)
    (hdone : ∀ x ∈ done, ∃ c, live c ∧ x ∈ h.fieldsAt t c) {a : Address} (ha : live a) {k : Nat}
    (hk : k < t.headerWords.toNat) : g'.memory.load (a.nth k) = g.memory.load (a.nth k) := by
  rw [hadj.load, if_neg]
  intro hx
  obtain ⟨c, hc, hx⟩ := hdone _ hx
  exact hs.header_notMem_fields ha hc hk hx

/-- Adjusting replaces every field of a live object. -/
theorem load_field_adjusted (hs : Surveyed h t b live) {g g' : Heap} {move : Address → Address}
    (hadj : g.Adjusted g' ((h.liveList b).flatMap (h.fieldsAt t)) move) {a : Address}
    {c : ClassInfo} (ha : live a) (hc : h.infoOf t a = .ok c) {f : WordCount} (hf : f ∈ c.fields) :
    g'.memory.load (a.offset f) = move (g.memory.load (a.offset f)) := by
  rw [hadj.load, if_pos]
  refine List.mem_flatMap.2 ⟨a, (hs.mem_liveList a).2 ha, ?_⟩
  rw [fieldsAt_eq hc]
  exact List.mem_map_of_mem hf

/-- Adjusting leaves every other word of a live object. -/
theorem load_plain_adjusted (hs : Surveyed h t b live) {g g' : Heap} {move : Address → Address}
    (hadj : g.Adjusted g' ((h.liveList b).flatMap (h.fieldsAt t)) move) {a : Address}
    {c : ClassInfo} (ha : live a) (hc : h.infoOf t a = .ok c) {i : Nat} (hi : i < h.wordsAt t a)
    (hplain : i.toUInt64 ∉ c.fields) : g'.memory.load (a.nth i) = g.memory.load (a.nth i) := by
  rw [hadj.load, if_neg]
  intro hx
  obtain ⟨e, he, hx⟩ := List.mem_flatMap.1 hx
  have hle := (hs.mem_liveList e).1 he
  obtain ⟨k, -, hk, heq⟩ := hs.mem_fieldsAt hle hx
  obtain ⟨rfl, rfl⟩ := hs.word_unique ha hle hi hk heq
  rw [fieldsAt_eq hc] at hx
  obtain ⟨f, hf, hfi⟩ := List.mem_map.1 hx
  have hfit := hs.fits ha
  obtain ⟨cls, words, ho⟩ := hs.populated.object a ha
  have hfw := UInt64.lt_iff_toNat_lt.1
    (hs.classes.inside c (ClassTable.mem_of_info (Heap.info_of_infoOf hc)) f hf).2
  obtain rfl : cls = c := by
    have := ho.info
    rw [hc] at this
    simpa using this.symm
  have hwhole := UInt64.le_iff_toNat_le.1 ho.whole
  rw [ho.wordsAt_eq] at hfit
  rw [Address.offset_eq_nth] at hfi
  have hsame := Address.nth_injective (by omega) (by rw [ho.wordsAt_eq] at hi; omega) hfi
  apply hplain
  rw [← hsame]
  simpa using hf

/-- A heap `g` in which the headers of live objects name the same classes and their fields hold
the same references is ready to be adjusted, with any look-up that depends on headers only. -/
theorem follows (hs : Surveyed h t b live) {g : Heap} {forwardee : Forwardee}
    {move : Address → Address} (hlayout : g.layout = h.layout) (hspan : h.memory.SameSpan g.memory)
    (hinfo : ∀ a, live a → g.infoOf t a = h.infoOf t a)
    (hfields : ∀ a, live a → ∀ x ∈ h.fieldsAt t a, g.memory.load x = h.memory.load x)
    (hforwardee : ∀ m : Memory, (∀ a, live a → ∀ k < t.headerWords.toNat,
      m.load (a.nth k) = g.memory.load (a.nth k)) →
      ∀ a, live a → ∃ o, forwardee (g.withMemory m) a = .ok o ∧ o.getD a = move a)
    (hfixed : ∀ a, ¬ live a → move a = a) :
    g.Follows t live (h.fieldsAt t) forwardee move := by
  refine ⟨?_, ?_, ?_, ?_⟩
  · intro g' done hadj hdone a ha
    have hsame := Heap.infoOf_congr_header (h := g) (t := t) (a := a) fun k hk =>
      hs.load_header_adjusted hadj hdone ha hk
    obtain ⟨c, words, ho⟩ := hs.populated.object a ha
    have hc := ho.info
    rw [← hinfo a ha, ← hsame] at hc
    rw [fieldsAt_eq ho.info]
    exact Heap.slots_of_info hc
  · intro g' done hadj hdone a ha
    rw [hadj.heap]
    exact hforwardee g'.memory (fun c hc k hk => hs.load_header_adjusted hadj hdone hc hk) a ha
  · intro a ha
    apply hfixed
    intro hla
    have hin := hs.refersInside hla
    unfold Heap.refersInside at hin ha
    rw [Heap.contains_congr hlayout hspan] at ha
    rw [ha] at hin
    cases hin
  · intro a x ha hx
    have hrefers : g.refersInside (g.memory.load x) = h.refersInside (h.memory.load x) := by
      unfold Heap.refersInside
      rw [Heap.contains_congr hlayout hspan, hfields a ha x hx]
    rw [hrefers, hfields a ha x hx]
    exact hs.field_refers ha hx

/-- Regions without objects have no live ones. -/
theorem liveIn_of_empty (hs : Surveyed h t b live) {i : Nat} (hi : i < h.regions.size)
    (hempty : (h.region i).isFree = true ∨ (h.region i).isEmpty = true) : h.liveIn b i = [] := by
  rw [List.eq_nil_iff_forall_not_mem]
  intro a ha
  obtain ⟨hla, rfl⟩ := (hs.mem_liveIn hi a).1 ha
  have hreg := (hs.region hla).2
  have htop : (h.region (h.layout.indexOf a)).top = (h.region (h.layout.indexOf a)).bottom := by
    rcases hempty with hf | he
    · exact hs.tabled.free _ hi (by simpa [Region.isFree] using hf)
    · simpa [Region.isEmpty] using he
  rw [htop] at hreg
  omega

end Surveyed

end MarkCompact
