/-
MarkCompact/Proofs/SerialMoves.lean

How a serial collection moves the objects of its regions.

New addresses are looked up in the table, which adjusting and copying do not touch.
Objects are copied in ascending order, each of them to the left.  What has been
written so far lies below the target of the next object, and so below that object:
its size is still read from its own header, and its words are still its own.

Main results: `adjust_spec` (references follow the berths) and `compact_spec` (every
object of the part is found at its berth, nothing else has changed, and the objects that
move are counted).
-/
import MarkCompact.Proofs.SerialCycle
import MarkCompact.Proofs.Fields
import MarkCompact.Proofs.Settling

namespace MarkCompact.SerialCycle

variable {h : Heap} {t : ClassTable} {b : Bitmap} {live : Address → Prop} {d : Nat}

/-! ### Adjust -/

/-- The look-up answers for every live object, whatever its fields hold. -/
theorem forwardee_spec {c : SerialCycle} {bs : List Berth} (hs : Surveyed h t b live)
    (hd : d ≤ h.regions.size) (hbitmap : c.bitmap = b) (hregions : c.regions = h.partFrom d)
    (ha : Assigned h t b live (h.partFrom d) c.table c.spaces bs) (m : Memory) {a : Address}
    (hlive : live a) : (c.forwardee (h.withMemory m) a).getD a = Berth.placeOf bs a := by
  have hlt := (hs.region hlive).1
  have hindex := hs.tabled.index _ hlt
  have hmem := Heap.mem_partFrom hd (h.layout.indexOf a)
  unfold forwardee
  show (if (h.region (h.layout.indexOf a)).isHumongous
      || c.regions.head?.all ((h.region (h.layout.indexOf a)).index < ·) then none
    else _ : Option Address).getD a = _
  rw [hindex, hregions, hbitmap]
  by_cases hpart : h.layout.indexOf a ∈ h.partFrom d
  · obtain ⟨-, -, -, -, -, hforward⟩ := ha.berth hs hlive hpart
    have hstays : ((h.region (h.layout.indexOf a)).isHumongous
        || (h.partFrom d).head?.all (h.layout.indexOf a < ·)) = false := by
      rw [Bool.or_eq_false_iff]
      refine ⟨(hmem.1 hpart).2.2, ?_⟩
      obtain ⟨i, is, heq⟩ := List.exists_cons_of_ne_nil (List.ne_nil_of_mem hpart)
      have hasc := (Heap.part_partFrom (h := h) hd).ascending
      rw [heq] at hasc hpart ⊢
      rw [List.head?_cons, Option.all_some, decide_eq_false_iff_not]
      rcases List.mem_cons.1 hpart with heq' | hin
      · omega
      · have := (List.pairwise_cons.1 hasc).1 _ hin
        omega
    rw [hstays, if_neg (by simp), hforward]
    show (if Berth.placeOf bs a = a then none else some (Berth.placeOf bs a)).getD a = _
    by_cases hsame : Berth.placeOf bs a = a
    · rw [if_pos hsame, hsame]
      rfl
    · rw [if_neg hsame]
      rfl
  · rw [if_pos, ha.placeOf_eq fun hin => hpart hin.2]
    · rfl
    · -- the regions from the first one of the part on belong to it, humongous ones apart
      cases hk : (h.region (h.layout.indexOf a)).kind.isHumongous with
      | true => simp [Region.isHumongous, hk]
      | false =>
        rw [Bool.or_eq_true]
        right
        rw [Option.all_eq_true]
        intro i hi
        have hfirst := (Heap.mem_partFrom hd i).1 (List.mem_of_mem_head? hi)
        rw [decide_eq_true_eq]
        by_contra hge
        exact hpart (hmem.2 ⟨by omega, hlt, hk⟩)

/-- The references of all live objects and the roots follow the berths. -/
theorem adjust_spec {c : SerialCycle} {bs : List Berth} {roots : Roots} (hs : Surveyed h t b live)
    (hd : d ≤ h.regions.size) (hclasses : c.classes = t) (hbitmap : c.bitmap = b)
    (hheap : c.heap = h) (hregions : c.regions = h.partFrom d)
    (ha : Assigned h t b live (h.partFrom d) c.table c.spaces bs)
    (hroots : ∀ r ∈ roots.toList, live r ∨ h.refersInside r = false) :
    ∃ k g, c.adjust roots #[] = .ok (k, roots.map (Berth.placeOf bs), #[], { c with heap := g }) ∧
      h.Adjusted g ((h.liveList b).flatMap (h.fieldsAt t)) (Berth.placeOf bs) := by
  have hf : h.Follows t live (h.fieldsAt t) (fun g a => .ok (c.forwardee g a))
      (Berth.placeOf bs) :=
    hs.follows rfl (Memory.SameSpan.refl _) (fun _ _ => rfl) (fun _ _ _ _ => rfl)
      (fun m _ a hla => ⟨_, rfl, forwardee_spec hs hd hbitmap hregions ha m hla⟩)
      (fun a hla => ha.placeOf_eq fun hin => hla hin.1)
  obtain ⟨k, g, hrun, hadj⟩ := Heap.adjustAll_spec hf (fun a hla => (hs.mem_liveList a).1 hla)
    hs.nodup_fields fun i hi hempty => hs.liveIn_of_empty hi hempty
  have hnone : ∀ e ∈ (#[] : SavedMarks).toList, live e.object := by simp
  have howners := Heap.adjustOwners_spec hf hadj (fun x hx => by
    obtain ⟨a, hla, hx⟩ := List.mem_flatMap.1 hx
    exact ⟨a, (hs.mem_liveList a).1 hla, hx⟩) hroots hnone
  refine ⟨k, g, ?_, hadj⟩
  unfold adjust
  dsimp only
  rw [hheap, hclasses, hbitmap, hrun]
  show (g.adjustOwners roots #[] _ >>= _) = _
  rw [howners, Array.map_empty]
  rfl

/-! ### Compact -/

theorem clearStarts_foldl {g : Heap} (hg : g.Gridded) {is : List Nat}
    (hin : ∀ i ∈ is, i < g.regions.size) :
    g.SameGround (is.foldl clearStarts g) ∧ (is.foldl clearStarts g).regions = g.regions ∧
      (is.foldl clearStarts g).starts = g.starts.forget g.layout is := by
  refine foldl_induct (fun done g' => g.SameGround g' ∧ g'.regions = g.regions ∧
    g'.starts = g.starts.forget g.layout done) is g ⟨Heap.SameGround.refl g, rfl, rfl⟩ ?_
  rintro done i rest g' heq ⟨hground, hregions, hstarts⟩
  have hi := hin i (by simp [heq])
  have hregion : g'.region i = g.region i := by
    unfold Heap.region
    rw [hregions]
  refine ⟨hground.trans ⟨rfl, rfl, rfl, rfl⟩, hregions, ?_⟩
  show g'.starts.clearRange (g'.region i).bottom (g'.region i).stop = _
  rw [hregion, hg.bottom i hi, hg.stop i hi, hstarts, StartTable.forget_append]
  rfl

/-- The heap `g` is the adjusted heap `h₂` after the objects of `done` have moved, where the
table of starts was `starts` at first. -/
structure Moved (h h₂ g : Heap) (t : ClassTable) (bs : List Berth) (starts : StartTable)
    (done : List Address) : Prop where
  layout : g.layout = h.layout
  regions : g.regions = h.regions
  headers : g.compactHeaders = h.compactHeaders
  memory : h₂.memory.Transferred g.memory
    (done.map fun a => ⟨Berth.placeOf bs a, h.wordsAt t a, fun i => h₂.memory.load (a.nth i)⟩)
  starts : g.starts = (done.map (Berth.placeOf bs)).foldl StartTable.record starts

theorem Moved.gridded {bs : List Berth} {h₂ g : Heap} {starts : StartTable} {done : List Address}
    (hm : Moved h h₂ g t bs starts done) (hg : h.Gridded) : g.Gridded := by
  refine hg.congr hm.layout (congrArg Array.size hm.regions) fun i _ => ?_
  unfold Heap.region
  rw [hm.regions]
  exact ⟨rfl, rfl, rfl⟩

/-- A place of a live object of the part lies in the memory. -/
theorem covers_place {table : BlockOffsets} {spaces : Array Space} {bs : List Berth} {g : Heap}
    (hs : Surveyed h t b live) (hd : d ≤ h.regions.size)
    (ha : Assigned h t b live (h.partFrom d) table spaces bs)
    (hspan : h.memory.SameSpan g.memory) {a : Address} (hlive : live a)
    (hin : h.layout.indexOf a ∈ h.partFrom d) :
    g.memory.Covers a (h.wordsAt t a) ∧ g.memory.Covers (Berth.placeOf bs a) (h.wordsAt t a) := by
  have hl := hs.tabled.layout
  obtain ⟨j, i, s, hj, hspace, h1, h2, -⟩ := ha.region hs hlive hin
  have hi := (Heap.part_partFrom (h := h) hd).inside i (List.mem_of_getElem? hj)
  have hi' : i < h.layout.numRegions := by rwa [← hs.tabled.count]
  have htop := (ha.extent j i s hj hspace).2.2.1
  have hstop := hl.bottom_le_stop (i := i + 1) hi'
  rw [← Layout.regionStop_eq_bottom_succ] at hstop
  have hbottom := hl.base_le_bottom hi'.le
  exact ⟨hspan.covers (hs.mapped.covers_of_grid hl (hs.isWord hlive).bottom (hs.end_le hlive)),
    hspan.covers (hs.mapped.covers_of_grid hl (by omega) (by omega))⟩

/-- What is counted when the objects `as` go to new places. -/
def counted (h : Heap) (t : ClassTable) (move : Address → Address) (as : List Address) :
    SerialOutcome :=
  let moving := as.filter fun a => move a != a
  ⟨moving.length, (moving.map (h.wordsAt t)).sum, 0, 0⟩

theorem counted_snoc_stays {move : Address → Address} {as : List Address} {a : Address}
    (hstays : move a = a) : counted h t move (as ++ [a]) = counted h t move as := by
  simp [counted, hstays]

theorem counted_snoc_moves {move : Address → Address} {as : List Address} {a : Address}
    (hmoves : move a ≠ a) : counted h t move (as ++ [a])
      = { counted h t move as with
        movedObjects := (counted h t move as).movedObjects + 1
        movedWords := (counted h t move as).movedWords + h.wordsAt t a } := by
  simp [counted, hmoves]

/-- One more object is moved, after all those that lie below it. -/
theorem Moved.moveObject {c : SerialCycle} {bs : List Berth} {h₂ g : Heap}
    {starts : StartTable} {slots done : List Address} (hs : Surveyed h t b live)
    (hd : d ≤ h.regions.size) (hclasses : c.classes = t) (hbitmap : c.bitmap = b)
    (ha : Assigned h t b live (h.partFrom d) c.table c.spaces bs)
    (hadj : h.Adjusted h₂ slots (Berth.placeOf bs))
    (hslots : ∀ x ∈ slots, ∃ e, live e ∧ x ∈ h.fieldsAt t e) (hm : Moved h h₂ g t bs starts done)
    {a : Address} (hdone : ∀ e ∈ done, live e ∧ h.layout.indexOf e ∈ h.partFrom d ∧
      e.toNat < a.toNat)
    (hlive : live a) (hin : h.layout.indexOf a ∈ h.partFrom d) :
    ∃ g', c.moveObject (counted h t (Berth.placeOf bs) done, g) a
        = .ok (counted h t (Berth.placeOf bs) (done ++ [a]), g') ∧
      Moved h h₂ g' t bs starts (done ++ [a]) := by
  have hspan : h.memory.SameSpan g.memory := hadj.span.trans hm.memory.span
  obtain ⟨hfrom, hto⟩ := covers_place hs hd ha hspan hlive hin
  have hleft := ha.placeOf_le hs a
  -- what has been written lies below the target, and so below the object
  have hbelow : ∀ e ∈ done,
      (Berth.placeOf bs e).toNat + 8 * h.wordsAt t e ≤ (Berth.placeOf bs a).toNat := by
    intro e he
    obtain ⟨h1, h2, h3⟩ := hdone e he
    exact ha.placeOf_lt hs h1 h2 hlive hin h3
  have hload : ∀ i < h.wordsAt t a, g.memory.load (a.nth i) = h₂.memory.load (a.nth i) := by
    intro i hi
    refine hm.memory.load_nth (hs.fits hlive) (fun r hr => ?_) hi
    obtain ⟨e, he, rfl⟩ := List.mem_map.1 hr
    exact .inl ((hbelow e he).trans hleft)
  have hsize : g.size t a = h.size t a := Heap.size_congr_header fun k hk => by
    have hle := hs.headerWords_le hlive
    rw [hload k (by omega), hs.load_header_adjusted hadj hslots hlive hk]
  obtain ⟨cls, words, ho⟩ := hs.populated.object a hlive
  rw [ho.wordsAt_eq] at hfrom hto
  have hnext : ∀ g' : Heap, g'.layout = g.layout → g'.regions = g.regions →
      g'.compactHeaders = g.compactHeaders →
      g.memory.Copied g'.memory a (Berth.placeOf bs a) words.toNat →
      g'.starts = g.starts.record (Berth.placeOf bs a) →
      Moved h h₂ g' t bs starts (done ++ [a]) := by
    intro g' hlayout hregions hheaders hcopied hrecord
    refine ⟨hlayout.trans hm.layout, hregions.trans hm.regions, hheaders.trans hm.headers, ?_, ?_⟩
    rotate_left
    · rw [hrecord, hm.starts, List.map_append, List.foldl_append]
      rfl
    rw [List.map_append]
    have hfit := hto.fits
    have htop := hto.top
    have hwritten : g.memory.Written g'.memory (Berth.placeOf bs a) (h.wordsAt t a)
        fun i => h₂.memory.load (a.nth i) := by
      rw [ho.wordsAt_eq] at hload ⊢
      refine ⟨hcopied.span, fun i hi => ?_, hcopied.outside⟩
      rw [← hload i hi]
      exact hcopied.inside i hi
    refine hm.memory.snoc (r := ⟨_, _, _⟩) hwritten ?_ ?_
    · intro r hr
      obtain ⟨e, he, rfl⟩ := List.mem_map.1 hr
      exact .inl (hbelow e he)
    · intro r hr
      obtain ⟨e, he, rfl⟩ := List.mem_map.1 hr
      have := hbelow e he
      show (Berth.placeOf bs e).toNat + 8 * h.wordsAt t e < 2 ^ 64
      omega
  obtain ⟨-, -, -, -, -, hforward⟩ := ha.berth hs hlive hin
  unfold SerialCycle.moveObject
  dsimp only
  rw [hclasses, hbitmap, hsize, ho.size, hforward]
  by_cases hsame : Berth.placeOf bs a = a
  · refine ⟨g.recordStart (Berth.placeOf bs a), ?_, hnext _ rfl rfl rfl ?_ rfl⟩
    · show (if _ then _ else _) = _
      rw [if_pos hsame, counted_snoc_stays hsame]
      rfl
    · rw [hsame]
      exact ⟨Memory.SameSpan.refl _, fun _ _ => rfl, fun _ _ => rfl⟩
  · obtain ⟨m, hcopy, hcopied⟩ := Memory.copyWords_spec hfrom hto
    refine ⟨(g.withMemory m).recordStart (Berth.placeOf bs a), ?_,
      hnext _ rfl rfl rfl hcopied rfl⟩
    show (if _ then _ else _) = _
    rw [if_neg hsame, hcopy, counted_snoc_moves hsame, ho.wordsAt_eq]
    rfl

/-- Every live object of the part is moved to its berth. -/
theorem compact_spec {c : SerialCycle} {bs : List Berth} {h₂ : Heap} {slots : List Address}
    (hs : Surveyed h t b live) (hd : d ≤ h.regions.size) (hclasses : c.classes = t)
    (hbitmap : c.bitmap = b) (hheap : c.heap = h₂) (hregions : c.regions = h.partFrom d)
    (ha : Assigned h t b live (h.partFrom d) c.table c.spaces bs)
    (hadj : h.Adjusted h₂ slots (Berth.placeOf bs))
    (hslots : ∀ x ∈ slots, ∃ e, live e ∧ x ∈ h.fieldsAt t e) :
    ∃ g, c.compact = .ok (counted h t (Berth.placeOf bs) ((h.partFrom d).flatMap (h.liveIn b)),
        { c with heap := g }) ∧
      Moved h h₂ g t bs (h.starts.forget h.layout (h.partFrom d))
        ((h.partFrom d).flatMap (h.liveIn b)) := by
  have hpart := Heap.part_partFrom (h := h) hd
  have hheap₂ := hadj.heap
  have hg := hs.tabled.toGridded
  have hg₂ : h₂.Gridded := by
    rw [hheap₂]
    exact ⟨hg.layout, hg.count, hg.index, hg.bottom, hg.stop⟩
  have hinside : ∀ i ∈ h.partFrom d, i < h₂.regions.size := by
    rw [hheap₂]
    exact hpart.inside
  obtain ⟨hground, hkept, hcleared⟩ := clearStarts_foldl hg₂ hinside
  have hstart : Moved h h₂ ((h.partFrom d).foldl clearStarts h₂) t bs
      (h.starts.forget h.layout (h.partFrom d)) [] := by
    refine ⟨hground.layout.trans (by rw [hheap₂]; rfl), hkept.trans (by rw [hheap₂]; rfl),
      hground.headers.trans (by rw [hheap₂]; rfl), ?_, hcleared.trans (by rw [hheap₂]; rfl)⟩
    rw [hground.memory]
    exact Memory.transferred_nil _
  have hasc := hs.pairwise_flatMap_liveIn hpart.ascending hpart.inside
  have hall : ∀ e ∈ (h.partFrom d).flatMap (h.liveIn b),
      live e ∧ h.layout.indexOf e ∈ h.partFrom d := by
    intro e he
    obtain ⟨i, hi, he⟩ := List.mem_flatMap.1 he
    obtain ⟨h1, h2⟩ := (hs.mem_liveIn (hpart.inside i hi) e).1 he
    exact ⟨h1, h2 ▸ hi⟩
  -- what has been counted and what has been moved go together
  let Done (as : List Address) (s : SerialOutcome × Heap) : Prop :=
    s.1 = counted h t (Berth.placeOf bs) as ∧
      Moved h h₂ s.2 t bs (h.starts.forget h.layout (h.partFrom d)) as
  obtain ⟨⟨o, g⟩, hrun, hcount, hmoved⟩ := foldlM_flatMap_induct (f := c.moveObject)
    (h.liveIn b) (fun s i => c.bitmap.markedIn (s.2.region i).bottom (s.2.region i).top)
    Done (h.partFrom d) (⟨0, 0, 0, 0⟩, (h.partFrom d).foldl clearStarts h₂) ⟨rfl, hstart⟩
    (by
      rintro as ⟨o, g⟩ i ⟨-, hm⟩
      unfold Heap.liveIn Heap.region
      rw [hm.regions, hbitmap])
    (by
      rintro as a rest ⟨o, g⟩ heq ⟨rfl, hm⟩
      rw [heq] at hasc hall
      have hbelow := (List.pairwise_append.1 hasc).2.2
      obtain ⟨h1, h2⟩ := hall a (by simp)
      obtain ⟨g', hrun, hm'⟩ := hm.moveObject hs hd hclasses hbitmap ha hadj hslots
        (fun e he => ⟨(hall e (List.mem_append_left _ he)).1,
          (hall e (List.mem_append_left _ he)).2, hbelow e he a (by simp)⟩) h1 h2
      exact ⟨_, hrun, rfl, hm'⟩)
  refine ⟨g, ?_, hmoved⟩
  unfold compact
  rw [hheap, hregions, ← hcount]
  dsimp only
  rw [hrun]
  rfl

end MarkCompact.SerialCycle
