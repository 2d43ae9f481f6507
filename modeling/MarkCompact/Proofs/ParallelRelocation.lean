/-
MarkCompact/Proofs/ParallelRelocation.lean

A parallel collection relocates the live objects.

At its new place an object has the words that it had when references had followed, its hash
behind them if it has grown, and the mark `Heap.markAfter`: the old one copied, made anew, or
written back, which says what the old one said (`Completed.carried`).  None of this is lost when
the memory of free regions is given back, because every object ends up in regions that are used.

Main results: `Completed.load_place`, `Completed.load_hash`, `Completed.loadMark_place`,
`Completed.rehomed` and `Completed.apart`.
-/
import MarkCompact.Proofs.ParallelFinish
import MarkCompact.Proofs.Relocation

namespace MarkCompact

open Forwarding

/-- A mark that has been kept aside is written back. -/
theorem SavedMarks.loadMark_restore_of_mem {s : SavedMarks}
    (hnodup : (s.toList.map SavedMark.object).Nodup) (m : Memory) {e : MarkCompact.SavedMark}
    (he : e ∈ s.toList) : (s.restore m).loadMark e.object = SavedMark.restored e := by
  obtain ⟨done, rest, hsplit⟩ := List.append_of_mem he
  rw [hsplit, List.map_append, List.map_cons, List.nodup_append', List.nodup_cons] at hnodup
  unfold restore
  rw [hsplit, List.foldl_append, List.foldl_cons]
  generalize done.foldl _ m = m'
  -- no later mark is written to the same object
  have hlater := load_restore_of_notMem rest.toArray (m'.storeMark e.object (SavedMark.restored e))
    (a := e.object) fun x hx heq => hnodup.2.1.1 (heq ▸ List.mem_map_of_mem hx)
  unfold restore at hlater
  unfold Memory.loadMark
  rw [hlater, Memory.storeMark, Memory.load_store, if_pos rfl]

namespace ParallelCycle

variable {h h₂ g h' : Heap} {t : ClassTable} {b : Bitmap} {live : Address → Prop}
  {part : List Nat} {n : Announced} {e : Encoding} {starts : StartTable} {kept : Nat}
  {tops : Nat → Address} {bs : List Berth} {vs : List HumongousMove} {s : Relocation}
  {release : Bool}

/-- A parallel collection from its forward phase on: the heap `h₂` once references have
followed, the heap `g` once the objects of the part have moved, and the heap `h'` at the end. -/
structure Completed (h : Heap) (t : ClassTable) (b : Bitmap) (live : Address → Prop)
    (part : List Nat) (n : Announced) (e : Encoding) (starts : StartTable) (kept : Nat)
    (tops : Nat → Address) (bs : List Berth) (vs : List HumongousMove) (s : Relocation)
    (release : Bool) (h₂ g h' : Heap) : Prop where
  forwarded : Forwarded h t b live part n e starts kept tops bs vs s
  adjusted : s.heap.Adjusted h₂ ((h.liveList b).flatMap (h.fieldsAt t))
    (Berth.placeOf (h.places bs vs))
  moved : h₂.memory.Transferred g.memory
    ((h.recordsOf t s.heap.memory (!s.forwarding.overwritesMarks)
      (Berth.placeOf (h.places bs vs)) (part.flatMap (h.liveIn b))).map (·.transfer h₂.memory))
  untouched : g.starts = s.heap.starts
  finished : Finished h part tops vs (!s.forwarding.overwritesMarks)
    (s.saved.map fun x => { x with object := Berth.placeOf (h.places bs vs) x.object }) release
    g h'

namespace Completed

variable (hc : Completed h t b live part n e starts kept tops bs vs s release h₂ g h')
include hc

theorem housed : h.Housed t b live part tops bs vs := hc.forwarded.housed

theorem surveyed : Surveyed h t b live := hc.forwarded.housed.surveyed

theorem settled : h'.Settled := hc.finished.refilled.settled hc.housed

theorem layout : h'.layout = h.layout := hc.finished.refilled.layout

theorem mapped : h'.Mapped :=
  hc.surveyed.mapped.of_span hc.layout
    (hc.forwarded.records.span.trans (hc.adjusted.span.trans
      (hc.moved.span.trans hc.finished.span)))

/-! ### New places -/

theorem fits_place {a : Address} (ha : live a) :
    (Berth.placeOf (h.places bs vs) a).toNat
      + 8 * h.wordsFrom t a (Berth.placeOf (h.places bs vs) a) < 2 ^ 64 := by
  obtain ⟨f, k, -, -, hwithin, -⟩ := hc.housed.stretch ha
  have hstop := hwithin.stop
  have := (h.layout.bottom (f + k)).toNat_lt
  omega

theorem toNat_place_nth {a : Address} (ha : live a) {k : Nat}
    (hk : k < h.wordsFrom t a (Berth.placeOf (h.places bs vs) a)) :
    ((Berth.placeOf (h.places bs vs) a).nth k).toNat
      = (Berth.placeOf (h.places bs vs) a).toNat + 8 * k := by
  have := hc.fits_place ha
  exact Address.toNat_nth (by omega)

theorem aligned_place {a : Address} (ha : live a) :
    (Berth.placeOf (h.places bs vs) a).toNat % 8 = 0 := by
  by_cases hstays : Berth.placeOf (h.places bs vs) a = a
  · rw [hstays]
    exact (hc.surveyed.isWord ha).aligned
  · exact (hc.forwarded.records.words _
      ((Berth.mem_moves_iff hc.housed.nodup).2 ⟨rfl, hstays⟩)).2.aligned

/-- No two objects are moved to the same place. -/
theorem place_injective {a c : Address} (ha : live a) (hl : live c)
    (heq : Berth.placeOf (h.places bs vs) a = Berth.placeOf (h.places bs vs) c) : a = c := by
  by_contra hne
  have hapart := hc.housed.apart ha hl hne
  have h1 := hc.surveyed.wordsAt_pos ha
  have h2 := hc.surveyed.wordsAt_pos hl
  have h3 := (h.wordsFrom_le t a (Berth.placeOf (h.places bs vs) a)).1
  have h4 := (h.wordsFrom_le t c (Berth.placeOf (h.places bs vs) c)).1
  rw [heq] at hapart h3
  unfold Address.Apart at hapart
  omega

/-- A word after the mark of an object is no mark at a new place. -/
theorem place_nth_ne {a c : Address} (ha : live a) (hl : live c) {k : Nat} (h0 : 0 < k)
    (hk : k < h.wordsFrom t a (Berth.placeOf (h.places bs vs) a)) :
    Berth.placeOf (h.places bs vs) c ≠ (Berth.placeOf (h.places bs vs) a).nth k := by
  intro heq
  have hat := hc.toNat_place_nth ha hk
  rw [← heq] at hat
  by_cases hsame : a = c
  · rw [hsame] at hat
    omega
  · have hapart := hc.housed.apart ha hl hsame
    have h1 := hc.surveyed.wordsAt_pos hl
    have h2 := (h.wordsFrom_le t c (Berth.placeOf (h.places bs vs) c)).1
    unfold Address.Apart at hapart
    omega

/-- The regions in which objects lie are used. -/
theorem used_place {a x : Address} (ha : live a)
    (h1 : (Berth.placeOf (h.places bs vs) a).toNat ≤ x.toNat)
    (h2 : x.toNat < (Berth.placeOf (h.places bs vs) a).toNat
      + 8 * h.wordsFrom t a (Berth.placeOf (h.places bs vs) a)) :
    ∃ i < h.regions.size, (h'.region i).kind ≠ .free ∧
      (h.layout.bottom i).toNat ≤ x.toNat ∧ x.toNat < (h.layout.regionStop i).toNat := by
  have hh := hc.housed
  have hr := hc.finished.refilled
  obtain ⟨f, k, -, hin, hwithin, hwhere⟩ := hh.stretch ha
  obtain ⟨i, hi1, hi2, h3, h4⟩ := hwithin.exists_region hc.surveyed.tabled.layout hin h1 h2
  have hi : i < h.regions.size := by
    rw [hc.surveyed.tabled.count]
    omega
  refine ⟨i, hi, ?_, h3, h4⟩
  rcases hwhere with ⟨v, hv, -, rfl, rfl⟩ | hkept
  · rw [(hr.region_taken hh hv ⟨hi1, hi2⟩).2]
    dsimp only
    split <;> simp
  · have hkept := hkept i hi1 hi2
    by_cases hpart : i ∈ part
    · rw [hr.region_part hh hpart hkept]
      show (h.region i).kind ≠ .free
      rw [hh.regular i hpart]
      simp
    · rw [hr.region_kept hi hpart hkept]
      have hoccupied := hkept.occupied
      unfold Heap.isVacant Region.isFree at hoccupied
      rw [Bool.or_eq_false_iff] at hoccupied
      simpa using hoccupied.1

/-! ### Words -/

/-- An object outside the part is still where it was when the objects of the part have moved. -/
theorem load_outside {a : Address} (ha : live a) (hout : h.layout.indexOf a ∉ part) {k : Nat}
    (hk : k < h.wordsAt t a) : g.memory.load (a.nth k) = h₂.memory.load (a.nth k) :=
  hc.housed.load_outside hc.moved ha hout hk

/-- So is an object that stays. -/
theorem load_stays {a : Address} (ha : live a) (hstays : Berth.placeOf (h.places bs vs) a = a)
    {k : Nat} (hk : k < h.wordsAt t a) : g.memory.load (a.nth k) = h₂.memory.load (a.nth k) := by
  have hh := hc.housed
  refine hc.moved.load_nth (hc.surveyed.fits ha) (fun x hx => ?_) hk
  obtain ⟨r, hr, rfl⟩ := List.mem_map.1 hx
  obtain ⟨q, hq, hmoves, rfl⟩ := Heap.mem_recordsOf.1 hr
  have hlive := (hh.mem_objects.1 hq).1
  have hapart := hh.apart hlive ha fun heq => hmoves (heq ▸ hstays)
  unfold Heap.wordsFrom at hapart
  rw [if_neg hmoves, hstays, if_pos rfl] at hapart
  rw [Heap.words_transfer_recordFor hc.surveyed hlive]
  exact hapart

omit hc in
/-- Before marks are written back, an object that has moved is what its planned move leaves, and
any other one has not changed. -/
theorem load_moved (hc : Completed h t b live part n e starts kept tops bs vs s release h₂ g h')
    {m : Memory}
    (hm : g.memory.Transferred m
      ((vs.map (HumongousMove.record h.layout h.compactHeaders
        (!s.forwarding.overwritesMarks))).map (·.transfer g.memory))) {a : Address}
    (ha : live a) :
    if Berth.placeOf (h.places bs vs) a = a then
      ∀ k < h.wordsAt t a, m.load (a.nth k) = h₂.memory.load (a.nth k)
    else
      ∃ m₁, (m₁ = h.memory ∨ m₁ = s.heap.memory) ∧ ∀ k < h.movedWords t a,
        m.load ((Berth.placeOf (h.places bs vs) a).nth k)
          = (h.recordFor t m₁ (!s.forwarding.overwritesMarks)
            (Berth.placeOf (h.places bs vs)) a).word h₂.memory k := by
  have hh := hc.housed
  have hs := hc.surveyed
  -- humongous objects go to runs of their own
  have hrun : (∀ v ∈ vs, a ≠ h.layout.bottom v.source) →
      ∀ k < h.wordsFrom t a (Berth.placeOf (h.places bs vs) a),
        m.load ((Berth.placeOf (h.places bs vs) a).nth k)
          = g.memory.load ((Berth.placeOf (h.places bs vs) a).nth k) := by
    intro hout k hk
    refine hm.load_nth (hc.fits_place ha) (fun x hx => ?_) hk
    obtain ⟨r, hr, rfl⟩ := List.mem_map.1 hx
    obtain ⟨v, hv, rfl⟩ := List.mem_map.1 hr
    exact (hh.apart_run ha hv (hout v hv)).symm
  split
  · rename_i hstays
    have hout : ∀ v ∈ vs, a ≠ h.layout.bottom v.source := by
      rintro v hv rfl
      exact hh.placeOf_humongous_ne hv hstays
    have hrun := hrun hout
    unfold Heap.wordsFrom at hrun
    rw [hstays, if_pos rfl] at hrun
    intro k hk
    rw [hrun k hk, hc.load_stays ha hstays hk]
  · rename_i hmoves
    rcases hh.cases ha with ⟨hin, -⟩ | ⟨v, hv, rfl, heq⟩ | ⟨-, -, heq⟩
    · refine ⟨_, .inr rfl, fun k hk => ?_⟩
      have hout : ∀ v ∈ vs, a ≠ h.layout.bottom v.source := by
        rintro v hv rfl
        exact hh.source_notMem hv hin
      have hrun := hrun hout
      unfold Heap.wordsFrom at hrun
      rw [if_neg hmoves] at hrun
      rw [hrun k hk]
      refine hc.moved.there _ (List.mem_map_of_mem (Heap.mem_recordsOf.2
        ⟨a, hh.mem_objects.2 ⟨ha, hin⟩, hmoves, rfl⟩)) k ?_
      rwa [Heap.words_transfer_recordFor hs ha]
    · refine ⟨_, .inl rfl, fun k hk => ?_⟩
      have hrecord := hh.record_eq (!s.forwarding.overwritesMarks) hv
      have hthere := hm.there _ (List.mem_map_of_mem (List.mem_map_of_mem hv)) k (by
        show k < v.copySize.toNat
        rwa [(hh.resettled.rehoused v hv).moved])
      rw [← hrecord, heq]
      refine hthere.trans (MoveRecord.word_congr (fun i hi => ?_) k)
      refine hc.load_outside ha (hh.source_notMem hv) ?_
      rwa [← (hh.resettled.rehoused v hv).words]
    · exact absurd heq hmoves

/-- In regions that are used the memory at the end is that before marks have been written back,
and the marks. -/
theorem used_memory :
    ∃ m, g.memory.Transferred m
        ((vs.map (HumongousMove.record h.layout h.compactHeaders
          (!s.forwarding.overwritesMarks))).map (·.transfer g.memory)) ∧
      ∀ i < h.regions.size, (h'.region i).kind ≠ .free → ∀ x : Address,
        (h.layout.bottom i).toNat ≤ x.toNat → x.toNat < (h.layout.regionStop i).toNat →
        h'.memory.load x = (SavedMarks.restore
          (s.saved.map fun x => { x with object := Berth.placeOf (h.places bs vs) x.object })
          m).load x := by
  obtain ⟨m, hm, hback⟩ := hc.finished.memory
  refine ⟨m, hm, fun i hi hused x h1 h2 => ?_⟩
  rw [← hc.layout] at h1 h2
  rw [← hc.finished.refilled.size] at hi
  exact hback.load_used hc.mapped hc.settled.toGridded hi hused h1 h2

/-- The memory at the end is that before marks have been written back, and the marks. -/
theorem exists_memory :
    ∃ m, g.memory.Transferred m
        ((vs.map (HumongousMove.record h.layout h.compactHeaders
          (!s.forwarding.overwritesMarks))).map (·.transfer g.memory)) ∧
      ∀ a, live a → ∀ k < h.wordsFrom t a (Berth.placeOf (h.places bs vs) a),
        h'.memory.load ((Berth.placeOf (h.places bs vs) a).nth k)
          = (SavedMarks.restore
              (s.saved.map fun x => { x with object := Berth.placeOf (h.places bs vs) x.object })
              m).load ((Berth.placeOf (h.places bs vs) a).nth k) := by
  obtain ⟨m, hm, hload⟩ := hc.used_memory
  refine ⟨m, hm, fun a ha k hk => ?_⟩
  have hat := hc.toNat_place_nth ha hk
  obtain ⟨i, hi, hused, h1, h2⟩ := hc.used_place (x := (Berth.placeOf (h.places bs vs) a).nth k)
    ha (by omega) (by omega)
  exact hload i hi hused _ h1 h2

/-! ### Marks that are written back -/

/-- A mark is kept aside if the encoding overwrites it and it cannot be made anew. -/
theorem mem_saved {x : MarkCompact.SavedMark} :
    x ∈ s.saved.toList ↔ s.forwarding.overwritesMarks = true ∧ ∃ a, live a ∧
      Berth.placeOf (h.places bs vs) a ≠ a ∧
      (h.memory.loadMark a).mustPreserve h.compactHeaders = true ∧ x = h.savedMark a := by
  rw [hc.forwarded.saved]
  cases s.forwarding.overwritesMarks with
  | false => simp
  | true =>
    rw [if_pos rfl]
    unfold Heap.savedMarks
    simp only [List.mem_map, List.mem_filter, true_and]
    constructor
    · rintro ⟨a, ⟨⟨r, hr, rfl⟩, hkeep⟩, rfl⟩
      obtain ⟨heq, hne⟩ := (Berth.mem_moves_iff hc.housed.nodup (a := r.1) (v := r.2)).1 hr
      exact ⟨r.1, hc.forwarded.live_of_mem hr, by rwa [heq], hkeep, rfl⟩
    · rintro ⟨a, -, hmoves, hkeep, rfl⟩
      exact ⟨a, ⟨⟨_, (Berth.mem_moves_iff hc.housed.nodup).2 ⟨rfl, hmoves⟩, rfl⟩, hkeep⟩, rfl⟩

/-- The marks that are written back belong to different objects. -/
theorem nodup_saved :
    (((s.saved.map fun x => { x with object := Berth.placeOf (h.places bs vs) x.object }).toList).map
      SavedMark.object).Nodup := by
  have hobjects : (((s.saved.map fun x =>
      { x with object := Berth.placeOf (h.places bs vs) x.object }).toList).map SavedMark.object)
      = (s.saved.toList.map SavedMark.object).map (Berth.placeOf (h.places bs vs)) := by
    rw [Array.toList_map, List.map_map, List.map_map]
    rfl
  rw [hobjects]
  refine List.Nodup.map_on ?_ ?_
  · intro a ha c hl heq
    obtain ⟨x, hx, rfl⟩ := List.mem_map.1 ha
    obtain ⟨y, hy, rfl⟩ := List.mem_map.1 hl
    exact hc.place_injective (hc.forwarded.live_saved x hx) (hc.forwarded.live_saved y hy) heq
  · rw [hc.forwarded.saved]
    split
    · unfold Heap.savedMarks
      rw [List.map_map]
      refine List.Nodup.map_on (fun a _ c _ heq => heq) ?_
      exact hc.forwarded.records.nodup.filter _
    · exact List.nodup_nil

omit hc in
/-- Only marks of objects that have moved are written back. -/
theorem load_restored (hc : Completed h t b live part n e starts kept tops bs vs s release h₂ g h')
    {m : Memory} {x : Address}
    (hx : ∀ a, live a → Berth.placeOf (h.places bs vs) a ≠ a →
      s.forwarding.overwritesMarks = true →
      (h.memory.loadMark a).mustPreserve h.compactHeaders = true →
      Berth.placeOf (h.places bs vs) a ≠ x) :
    (SavedMarks.restore
      (s.saved.map fun x => { x with object := Berth.placeOf (h.places bs vs) x.object }) m).load x
      = m.load x := by
  refine SavedMarks.load_restore_of_notMem _ _ fun y hy => ?_
  rw [Array.toList_map] at hy
  obtain ⟨z, hz, rfl⟩ := List.mem_map.1 hy
  obtain ⟨hover, a, ha, hmoves, hkeep, rfl⟩ := hc.mem_saved.1 hz
  exact hx a ha hmoves hover hkeep

end Completed

end ParallelCycle

/-! ### Growing -/

namespace Heap

/-- Whether an object that goes to `v` takes its hash along. -/
def growsTo (h : Heap) (a v : Address) : Bool := v != a && h.growsAt a

theorem wordsFrom_eq (h : Heap) (t : ClassTable) (a v : Address) :
    h.wordsFrom t a v = h.wordsAt t a + if h.growsTo a v then 1 else 0 := by
  unfold wordsFrom movedWords growsTo
  by_cases hv : v = a
  · simp [hv]
  · simp [hv]

theorem growsTo_eq_true {h : Heap} {a v : Address} :
    h.growsTo a v = true ↔ v ≠ a ∧ h.compactHeaders = true ∧
      (h.memory.loadMark a).isHashed = true ∧ (h.memory.loadMark a).isExpanded = false := by
  unfold growsTo growsAt grows
  simp [and_assoc]

theorem growsTo_self (h : Heap) (a : Address) : h.growsTo a a = false := by
  simp [growsTo]

theorem growsTo_of_ne {h : Heap} {a v : Address} (hne : v ≠ a) :
    h.growsTo a v = h.growsAt a := by
  simp [growsTo, hne]

/-- The mark of the object at `a` once it lies at `v`. It is made anew if the encoding overwrites
marks and did not have to keep it. -/
def markAfter (h : Heap) (overwrites : Bool) (a v : Address) : Mark :=
  let mark := h.memory.loadMark a
  if v = a then mark
  else if overwrites && !mark.mustPreserve h.compactHeaders then
    mark.relocated h.compactHeaders (h.growsAt a)
  else if h.growsAt a then mark.withExpanded else mark

/-- The mark that an object has in the end says what its mark said before. -/
theorem carried_markAfter {h : Heap} {a : Address}
    (hm : (h.memory.loadMark a).Proper h.compactHeaders) (overwrites : Bool) (v : Address) :
    (h.memory.loadMark a).Carried (h.markAfter overwrites a v) h.compactHeaders
      (h.growsTo a v) := by
  have hgrown : h.growsTo a v = true →
      h.compactHeaders = true ∧ (h.memory.loadMark a).isHashed = true := fun hh =>
    ⟨(growsTo_eq_true.1 hh).2.1, (growsTo_eq_true.1 hh).2.2.1⟩
  unfold markAfter
  dsimp only
  by_cases hstays : v = a
  · rw [if_pos hstays, hstays, growsTo_self]
    exact Mark.Carried.refl hm
  rw [if_neg hstays]
  rw [growsTo_of_ne hstays] at hgrown ⊢
  by_cases hanew : (overwrites && !(h.memory.loadMark a).mustPreserve h.compactHeaders) = true
  · rw [if_pos hanew]
    rw [Bool.and_eq_true, Bool.not_eq_true'] at hanew
    exact Mark.carried_relocated hm hanew.2 (fun _ => rfl) hgrown
  · rw [if_neg hanew]
    exact Mark.carried_kept hm hgrown

end Heap

namespace ParallelCycle.Completed

variable {h h₂ g h' : Heap} {t : ClassTable} {b : Bitmap} {live : Address → Prop}
  {part : List Nat} {n : Announced} {e : Encoding} {starts : StartTable} {kept : Nat}
  {tops : Nat → Address} {bs : List Berth} {vs : List HumongousMove} {s : Relocation}
  {release : Bool}

variable (hc : Completed h t b live part n e starts kept tops bs vs s release h₂ g h')
include hc

/-! ### Words at new places -/

/-- Recording has written marks only. -/
theorem load_recorded {a : Address} (ha : live a) {k : Nat} (h0 : 0 < k) (hk : k < h.wordsAt t a) :
    s.heap.memory.load (a.nth k) = h.memory.load (a.nth k) := by
  refine hc.forwarded.records.elsewhere _ fun hmem => ?_
  obtain ⟨r, hr, heq⟩ := List.mem_map.1 hmem
  have hlive := hc.forwarded.live_of_mem hr
  rw [← Address.nth_zero r.1] at heq
  have := (hc.surveyed.word_unique hlive ha (hc.surveyed.wordsAt_pos hlive) hk heq).2
  omega

/-- Every word after the mark is found at the new place as it was when objects began to
move. -/
theorem load_place {a : Address} (ha : live a) {k : Nat} (h0 : 0 < k) (hk : k < h.wordsAt t a) :
    h'.memory.load ((Berth.placeOf (h.places bs vs) a).nth k) = h₂.memory.load (a.nth k) := by
  obtain ⟨m, hm, hload⟩ := hc.exists_memory
  have hle := (h.wordsFrom_le t a (Berth.placeOf (h.places bs vs) a)).1
  rw [hload a ha k (by omega), hc.load_restored fun c hl _ _ _ =>
    hc.place_nth_ne ha hl h0 (by omega)]
  have hmoved := hc.load_moved hm ha
  split at hmoved
  · rename_i hstays
    rw [hstays]
    exact hmoved k hk
  · obtain ⟨m₁, -, hmoved⟩ := hmoved
    have hgrown := (Surveyed.wordsAt_le_movedWords h t a).1
    have hsize := (Heap.words_recordFor hc.surveyed ha m₁ (!s.forwarding.overwritesMarks)
      (Berth.placeOf (h.places bs vs))).1
    rw [hmoved k (by omega)]
    unfold MoveRecord.word
    rw [if_neg (by omega), hsize, if_pos hk]
    rfl

/-- An object that has grown has the hash of its old address in its last word. -/
theorem load_hash {a : Address} (ha : live a)
    (hgrows : h.growsTo a (Berth.placeOf (h.places bs vs) a) = true) :
    h'.memory.load ((Berth.placeOf (h.places bs vs) a).nth (h.wordsAt t a))
      = a.identityHash.toUInt64 := by
  obtain ⟨m, hm, hload⟩ := hc.exists_memory
  have hpos := hc.surveyed.wordsAt_pos ha
  have hwords := h.wordsFrom_eq t a (Berth.placeOf (h.places bs vs) a)
  rw [if_pos hgrows] at hwords
  obtain ⟨hmoves, -⟩ := Heap.growsTo_eq_true.1 hgrows
  rw [Heap.growsTo_of_ne hmoves] at hgrows
  rw [hload a ha _ (by omega), hc.load_restored fun c hl _ _ _ =>
    hc.place_nth_ne ha hl hpos (by omega)]
  have hmoved := hc.load_moved hm ha
  rw [if_neg hmoves] at hmoved
  obtain ⟨m₁, -, hmoved⟩ := hmoved
  have hsize := (Heap.words_recordFor hc.surveyed ha m₁ (!s.forwarding.overwritesMarks)
    (Berth.placeOf (h.places bs vs))).1
  rw [hmoved _ (by
    unfold Heap.movedWords
    rw [if_pos hgrows]
    omega)]
  unfold MoveRecord.word
  rw [if_neg (by omega), hsize, if_neg (by omega)]
  rfl

/-! ### Marks at new places -/

/-- Recording has left the marks of objects that stay, and adjusting all of them. -/
theorem loadMark_adjusted {a : Address} (ha : live a) :
    h₂.memory.loadMark a = s.heap.memory.loadMark a := by
  have h0 := hc.surveyed.load_header_adjusted hc.adjusted (fun x hx => by
    obtain ⟨c, hl, hx⟩ := List.mem_flatMap.1 hx
    exact ⟨c, (hc.surveyed.mem_liveList c).1 hl, hx⟩) ha t.headerWords_pos
  rw [Address.nth_zero] at h0
  unfold Memory.loadMark
  rw [h0]

/-- An object that stays keeps its mark. -/
theorem loadMark_stays {a : Address} (ha : live a)
    (hstays : Berth.placeOf (h.places bs vs) a = a) :
    h'.memory.loadMark a = h.memory.loadMark a := by
  obtain ⟨m, hm, hload⟩ := hc.exists_memory
  have hpos := hc.surveyed.wordsAt_pos ha
  have hle := (h.wordsFrom_le t a (Berth.placeOf (h.places bs vs) a)).1
  have hfinal := hload a ha 0 (by omega)
  rw [hstays, Address.nth_zero, hc.load_restored fun c hl hmoves _ _ heq => hmoves (by
    rw [heq]
    exact (hc.place_injective hl ha (heq.trans hstays.symm)).symm)] at hfinal
  have hmoved := hc.load_moved hm ha
  rw [if_pos hstays] at hmoved
  have h0 := hmoved 0 hpos
  rw [Address.nth_zero] at h0
  have hrecorded : s.heap.memory.loadMark a = h.memory.loadMark a := by
    unfold Memory.loadMark
    rw [hc.forwarded.records.elsewhere a fun hmem => ?_]
    obtain ⟨r, hr, rfl⟩ := List.mem_map.1 hmem
    obtain ⟨heq, hne⟩ := (Berth.mem_moves_iff hc.housed.nodup (a := r.1) (v := r.2)).1 hr
    exact hne (heq.symm.trans hstays)
  rw [← hrecorded, ← hc.loadMark_adjusted ha]
  unfold Memory.loadMark
  rw [hfinal, h0]

/-- The mark of an object at its new place. -/
theorem loadMark_place {a : Address} (ha : live a) :
    h'.memory.loadMark (Berth.placeOf (h.places bs vs) a)
      = h.markAfter s.forwarding.overwritesMarks a (Berth.placeOf (h.places bs vs) a) := by
  unfold Heap.markAfter
  dsimp only
  by_cases hstays : Berth.placeOf (h.places bs vs) a = a
  · rw [if_pos hstays, hstays, hc.loadMark_stays ha hstays]
  rw [if_neg hstays]
  obtain ⟨m, hm, hload⟩ := hc.exists_memory
  have hpos := hc.surveyed.wordsAt_pos ha
  have hle := (h.wordsFrom_le t a (Berth.placeOf (h.places bs vs) a)).1
  have hfinal := hload a ha 0 (by omega)
  rw [Address.nth_zero] at hfinal
  by_cases hsaved : s.forwarding.overwritesMarks = true ∧
      (h.memory.loadMark a).mustPreserve h.compactHeaders = true
  · -- the mark has been kept aside
    have hmem := hc.mem_saved.2 ⟨hsaved.1, a, ha, hstays, hsaved.2, rfl⟩
    have hback := SavedMarks.loadMark_restore_of_mem hc.nodup_saved m (by
      rw [Array.toList_map]
      exact List.mem_map_of_mem hmem)
    rw [hsaved.1, hsaved.2]
    refine Eq.trans ?_ hback
    unfold Memory.loadMark
    exact congrArg Mark.mk hfinal
  · -- the mark is that of the planned move
    rw [hc.load_restored fun c hl _ hover hkeep heq => hsaved ⟨hover, by
      rwa [← hc.place_injective hl ha heq]⟩] at hfinal
    have hmoved := hc.load_moved hm ha
    rw [if_neg hstays] at hmoved
    obtain ⟨m₁, hm₁, hmoved⟩ := hmoved
    have h0 := hmoved 0 (by
      have := (Surveyed.wordsAt_le_movedWords h t a).1
      omega)
    rw [Address.nth_zero] at h0
    have hmark : h'.memory.loadMark (Berth.placeOf (h.places bs vs) a)
        = relocatedMark (m₁.loadMark a) h.compactHeaders (h.growsAt a)
          (!s.forwarding.overwritesMarks) := by
      unfold Memory.loadMark
      rw [hfinal, h0]
      rfl
    rw [hmark]
    unfold relocatedMark
    cases hover : s.forwarding.overwritesMarks with
    | false =>
      have hsame : m₁ = h.memory := by
        rcases hm₁ with rfl | rfl
        · rfl
        · exact hc.forwarded.records.intact hover
      rw [hsame]
      rfl
    | true =>
      have hkeep : (h.memory.loadMark a).mustPreserve h.compactHeaders = false := by
        by_contra hkeep
        exact hsaved ⟨hover, by simpa using hkeep⟩
      rw [hkeep]
      refine Mark.relocated_congr _ fun hcompact => ?_
      rcases hm₁ with rfl | rfl
      · rfl
      · refine hc.forwarded.records.kept ?_ ?_ a
        · rw [hc.forwarded.grid]
          exact hc.surveyed.tabled.layout
        · rw [hc.forwarded.compact]
          exact hcompact

/-- The mark of a live object says at its new place what it said before. -/
theorem carried {a : Address} (ha : live a) :
    (h.memory.loadMark a).Carried (h'.memory.loadMark (Berth.placeOf (h.places bs vs) a))
      h.compactHeaders (h.growsTo a (Berth.placeOf (h.places bs vs) a)) := by
  obtain ⟨c, words, ho⟩ := hc.surveyed.populated.object a ha
  rw [hc.loadMark_place ha]
  exact Heap.carried_markAfter ho.mark _ _

/-! ### Objects at new places -/

theorem classOf_place {a : Address} (ha : live a) :
    h'.classOf t (Berth.placeOf (h.places bs vs) a) = h.classOf t a := by
  have hs := hc.surveyed
  unfold Heap.classOf
  by_cases hcompact : t.compactHeaders = true
  · rw [if_pos hcompact, if_pos hcompact]
    exact (hc.carried ha).classId (hs.headers.symm.trans hcompact)
  · rw [if_neg hcompact, if_neg hcompact]
    have htwo : 1 < t.headerWords.toNat := by
      unfold ClassTable.headerWords
      rw [if_neg hcompact]
      decide
    have hwords := hs.headerWords_le ha
    have hfields : ∀ x ∈ (h.liveList b).flatMap (h.fieldsAt t), ∃ c, live c ∧ x ∈ h.fieldsAt t c :=
      fun x hx => by
        obtain ⟨c, hl, hx⟩ := List.mem_flatMap.1 hx
        exact ⟨c, (hs.mem_liveList c).1 hl, hx⟩
    rw [Address.offset_eq_nth, Address.offset_eq_nth]
    show (h'.memory.load ((Berth.placeOf (h.places bs vs) a).nth 1)).toUInt32
      = (h.memory.load (a.nth 1)).toUInt32
    rw [hc.load_place ha Nat.one_pos (by omega),
      hs.load_header_adjusted hc.adjusted hfields ha htwo,
      hc.load_recorded ha Nat.one_pos (by omega)]

theorem placedAt {a : Address} {c : ClassInfo} {words moved : WordCount} (ha : live a)
    (ho : h.ObjectAt t a c words)
    (hmoved : moved.toNat = h.wordsFrom t a (Berth.placeOf (h.places bs vs) a)) :
    h'.PlacedAt (Berth.placeOf (h.places bs vs) a) moved := by
  have hh := hc.housed
  have hs := hc.surveyed
  have hr := hc.finished.refilled
  rcases hh.cases ha with ⟨hin, heq⟩ | ⟨v, hv, rfl, heq⟩ | ⟨hout, hstays, heq⟩
  · obtain ⟨i, hi, hwithin, hkept, htop⟩ := hh.stretch_part ha hin
    rw [← heq] at hwithin htop
    refine .inl ⟨i, by rw [hr.size]; exact hh.isPart.inside i hi, ?_, ?_, ?_⟩
    · rw [hr.region_part hh hi hkept]
      exact hh.regular i hi
    · rw [hr.layout]
      exact hwithin.bottom
    · rw [hr.region_part hh hi hkept, hmoved]
      exact htop
  · have hv' := hh.resettled.rehoused v hv
    have hsame : moved = v.copySize := UInt64.toNat_inj.1 (by
      rw [hmoved, heq, hh.wordsFrom_run hv])
    have hlt := hv'.inside
    have hleft := hv'.left
    refine .inr ⟨v.target, by rw [hr.size]; omega, ?_, by rw [heq, hr.layout]⟩
    rw [hsame]
    exact hr.run_moved hh hv
  · unfold Heap.wordsFrom at hmoved
    rw [if_pos heq, ho.wordsAt_eq] at hmoved
    obtain rfl := UInt64.toNat_inj.1 hmoved
    rw [heq]
    rcases ho.place with ⟨i, hi, hk, h1, h2⟩ | ⟨i, hi, hrun, rfl⟩
    · have hindex : h.layout.indexOf a = i := by
        have hl := hs.tabled.layout
        have hi' : i < h.layout.numRegions := by rwa [← hs.tabled.count]
        have htop := (hs.tabled.top i hi).2.1
        have hpos := hs.words_pos ho
        rw [hs.tabled.stop i hi, hl.toNat_regionStop hi'] at htop
        exact hl.indexOf_eq hi' h1 (by omega)
      have hpart : i ∉ part := hindex ▸ hout
      have hregion := hr.region_kept hi hpart
        (hh.steady_of_regular hk fun hin => absurd hin hpart)
      refine .inl ⟨i, by rwa [hr.size], ?_, ?_, ?_⟩
      · rw [hregion]
        exact hk
      · rw [hr.layout]
        exact h1
      · rw [hregion]
        exact h2
    · refine .inr ⟨i, by rwa [hr.size], ?_, by rw [hr.layout]⟩
      exact hr.run_kept hh hrun hi fun v hv hsource => hstays v hv (by rw [hsource])

/-- Every live object is an object of the same class at its new place, and one word larger if it
has grown. -/
theorem objectAt {a : Address} {c : ClassInfo} {words : WordCount} (ha : live a)
    (ho : h.ObjectAt t a c words) :
    ∃ moved, h'.ObjectAt t (Berth.placeOf (h.places bs vs) a) c moved ∧
      moved.toNat = h.wordsFrom t a (Berth.placeOf (h.places bs vs) a) := by
  have hs := hc.surveyed
  have hinfo : h'.infoOf t (Berth.placeOf (h.places bs vs) a) = .ok c :=
    Heap.infoOf_of_classOf (hc.classOf_place ha) ho.info
  have hcarried := hc.carried ha
  have hwords := h.wordsFrom_eq t a (Berth.placeOf (h.places bs vs) a)
  have hfit := hs.fits ha
  have hat := ho.wordsAt_eq
  have hsize : ∃ moved, h'.size t (Berth.placeOf (h.places bs vs) a) = .ok moved ∧
      moved.toNat = h.wordsFrom t a (Berth.placeOf (h.places bs vs) a) := by
    have hbefore := ho.size
    rw [Heap.size_of_info ho.info] at hbefore
    have hbefore := Except.ok.inj hbefore
    refine ⟨_, Heap.size_of_info hinfo, ?_⟩
    rw [hcarried.expanded, hwords, hat, ← hbefore]
    cases hgrows : h.growsTo a (Berth.placeOf (h.places bs vs) a) with
    | false =>
      rw [Bool.or_false]
      rfl
    | true =>
      obtain ⟨-, hcompact, -, hexpanded⟩ := Heap.growsTo_eq_true.1 hgrows
      rw [hs.headers, hcompact, hexpanded] at hbefore ⊢
      have hbefore : c.words = words := hbefore
      show (c.words + 1).toNat = c.words.toNat + 1
      rw [UInt64.toNat_add]
      show (c.words.toNat + 1) % 2 ^ 64 = _
      rw [hbefore]
      omega
  obtain ⟨moved, hsize, hmoved⟩ := hsize
  have hplace := hc.placedAt ha ho hmoved
  have hle := (h.wordsFrom_le t a (Berth.placeOf (h.places bs vs) a)).1
  have hpos := hs.words_pos ho
  refine ⟨moved, ⟨?_, hinfo, hsize, ?_, ?_, hplace⟩, hmoved⟩
  · exact hplace.contains hc.settled.toTabled hc.mapped (by omega) (hc.aligned_place ha)
  · have hwhole := UInt64.le_iff_toNat_le.1 ho.whole
    rw [UInt64.le_iff_toNat_le]
    omega
  · rw [hc.finished.headers]
    exact hcarried.proper

theorem wordsAt_place {a : Address} (ha : live a) :
    h'.wordsAt t (Berth.placeOf (h.places bs vs) a)
      = h.wordsFrom t a (Berth.placeOf (h.places bs vs) a) := by
  obtain ⟨c, words, ho⟩ := hc.surveyed.populated.object a ha
  obtain ⟨moved, hobject, hmoved⟩ := hc.objectAt ha ho
  rw [hobject.wordsAt_eq, hmoved]

/-- New places do not overlap. -/
theorem apart {a c : Address} (ha : live a) (hl : live c) (hne : a ≠ c) :
    (Berth.placeOf (h.places bs vs) a).Apart
      (h'.wordsAt t (Berth.placeOf (h.places bs vs) a)) (Berth.placeOf (h.places bs vs) c)
      (h'.wordsAt t (Berth.placeOf (h.places bs vs) c)) := by
  rw [hc.wordsAt_place ha, hc.wordsAt_place hl]
  exact hc.housed.apart ha hl hne

/-- Every reference of a live object has followed. -/
theorem load_field_place {a : Address} {c : ClassInfo} {words : WordCount} (ha : live a)
    (ho : h.ObjectAt t a c words) {f : WordCount} (hf : f ∈ c.fields) :
    h'.memory.load ((Berth.placeOf (h.places bs vs) a).offset f)
      = Berth.placeOf (h.places bs vs) (h.memory.load (a.offset f)) := by
  have hs := hc.surveyed
  obtain ⟨hafter, hbefore⟩ :=
    hs.classes.inside c (ClassTable.mem_of_info (Heap.info_of_infoOf ho.info)) f hf
  have hafter := UInt64.le_iff_toNat_le.1 hafter
  have hbefore := UInt64.lt_iff_toNat_lt.1 hbefore
  have hheader := t.headerWords_pos
  have hwhole := UInt64.le_iff_toNat_le.1 ho.whole
  have hwords := ho.wordsAt_eq
  rw [Address.offset_eq_nth, hc.load_place ha (by omega) (by omega), ← Address.offset_eq_nth,
    hs.load_field_adjusted hc.adjusted ha ho.info hf, Address.offset_eq_nth,
    hc.load_recorded ha (by omega) (by omega)]

/-- Every other word after the mark is found unchanged. -/
theorem load_plain_place {a : Address} {c : ClassInfo} (ha : live a) (hi : h.infoOf t a = .ok c)
    {k : Nat} (h0 : 0 < k) (hk : k < h.wordsAt t a) (hplain : k.toUInt64 ∉ c.fields) :
    h'.memory.load ((Berth.placeOf (h.places bs vs) a).nth k) = h.memory.load (a.nth k) := by
  rw [hc.load_place ha h0 hk, hc.surveyed.load_plain_adjusted hc.adjusted ha hi hk hplain,
    hc.load_recorded ha h0 hk]

omit hc in
/-- The word that holds the hash of an object holds no reference. -/
theorem last_notMem_fields (hs : Surveyed h t b live) {a : Address} {c : ClassInfo}
    {words : WordCount} (ho : h.ObjectAt t a c words) (hcompact : h.compactHeaders = true)
    (hexpanded : (h.memory.loadMark a).isExpanded = true) :
    (words.toNat - 1).toUInt64 ∉ c.fields := by
  have hsize := ho.size
  rw [Heap.size_of_info ho.info, hs.headers, hcompact, hexpanded] at hsize
  have hsize : c.words + 1 = words := Except.ok.inj hsize
  have hwhole := UInt64.le_iff_toNat_le.1 ho.whole
  have hsum : words.toNat = c.words.toNat + 1 := by
    have hlt := c.words.toNat_lt
    rw [← hsize, UInt64.toNat_add] at hwhole ⊢
    show (c.words.toNat + 1) % 2 ^ 64 = _
    have hwhole : c.words.toNat ≤ (c.words.toNat + 1) % 2 ^ 64 := hwhole
    omega
  intro hf
  have hinside := (hs.classes.inside c
    (ClassTable.mem_of_info (Heap.info_of_infoOf ho.info)) _ hf).2
  rw [show (words.toNat - 1).toUInt64 = c.words by rw [hsum]; exact UInt64.ofNat_toNat] at hinside
  exact UInt64.lt_irrefl _ hinside

/-- An object that has carried its hash along before carries it on. -/
theorem identityHash_place_expanded {a : Address} {c : ClassInfo} {words : WordCount}
    (ha : live a) (ho : h.ObjectAt t a c words) (hcompact : h.compactHeaders = true)
    (hexpanded : (h.memory.loadMark a).isExpanded = true) :
    (h'.identityHash t (Berth.placeOf (h.places bs vs) a)).map Prod.fst
      = (h.identityHash t a).map Prod.fst := by
  have hs := hc.surveyed
  have hgrows : h.growsTo a (Berth.placeOf (h.places bs vs) a) = false := by
    rw [Bool.eq_false_iff]
    intro hgrows
    rw [(Heap.growsTo_eq_true.1 hgrows).2.2.2] at hexpanded
    cases hexpanded
  obtain ⟨moved, hobject, hmoved⟩ := hc.objectAt ha ho
  have hwords := h.wordsFrom_eq t a (Berth.placeOf (h.places bs vs) a)
  rw [if_neg (by rw [hgrows]; exact Bool.false_ne_true)] at hwords
  have hat := ho.wordsAt_eq
  obtain rfl : moved = words := UInt64.toNat_inj.1 (by omega)
  have hexpanded' : (h'.memory.loadMark (Berth.placeOf (h.places bs vs) a)).isExpanded = true := by
    rw [(hc.carried ha).expanded, hexpanded]
    rfl
  -- the last word lies behind the header
  have hclass := UInt64.le_iff_toNat_le.1
    (hs.classes.header c (ClassTable.mem_of_info (Heap.info_of_infoOf ho.info)))
  have hwhole := UInt64.le_iff_toNat_le.1 ho.whole
  have hheader := t.headerWords_pos
  have hsize := Except.ok.inj ((Heap.size_of_info ho.info).symm.trans ho.size)
  rw [hs.headers, hcompact, hexpanded] at hsize
  have hlast : 1 < moved.toNat := by
    have hne : c.words ≠ moved := by
      rintro rfl
      exact absurd hsize (by simp)
    have := mt UInt64.toNat_inj.1 hne
    omega
  rw [Heap.identityHash_expanded (hc.finished.headers.trans hcompact) hexpanded' hobject.size
      (by omega), Heap.identityHash_expanded hcompact hexpanded ho.size (by omega),
    hc.load_plain_place ha ho.info (by omega) (by omega)
      (last_notMem_fields hs ho hcompact hexpanded)]
  rfl

/-- An object that grows finds its hash in a word of its own. -/
theorem identityHash_place_grown {a : Address} {c : ClassInfo} {words : WordCount} (ha : live a)
    (ho : h.ObjectAt t a c words) (hcompact : h.compactHeaders = true)
    (hgrows : h.growsTo a (Berth.placeOf (h.places bs vs) a) = true) :
    (h'.identityHash t (Berth.placeOf (h.places bs vs) a)).map Prod.fst = .ok a.identityHash := by
  obtain ⟨moved, hobject, hmoved⟩ := hc.objectAt ha ho
  have hwords := h.wordsFrom_eq t a (Berth.placeOf (h.places bs vs) a)
  rw [if_pos hgrows] at hwords
  have hexpanded' : (h'.memory.loadMark (Berth.placeOf (h.places bs vs) a)).isExpanded = true := by
    rw [(hc.carried ha).expanded, hgrows, Bool.or_true]
  rw [Heap.identityHash_expanded (hc.finished.headers.trans hcompact) hexpanded' hobject.size
      (by omega), show moved.toNat - 1 = h.wordsAt t a by omega, hc.load_hash ha hgrows,
    UInt32.toUInt32_toUInt64]
  rfl

/-- A hash that has been asked for is still the answer. -/
theorem identityHash_place {a : Address} {c : ClassInfo} {words : WordCount} (ha : live a)
    (ho : h.ObjectAt t a c words) (hhashed : (h.memory.loadMark a).isHashed = true) :
    (h'.identityHash t (Berth.placeOf (h.places bs vs) a)).map Prod.fst
      = (h.identityHash t a).map Prod.fst := by
  have hcarried := hc.carried ha
  have hhashed' := hcarried.hashed.trans hhashed
  by_cases hclassic : h.compactHeaders = false
  · rw [Heap.identityHash_classic hclassic hhashed,
      Heap.identityHash_classic (hc.finished.headers.trans hclassic) hhashed']
    exact congrArg Except.ok (hcarried.hash hclassic hhashed)
  have hcompact : h.compactHeaders = true := by simpa using hclassic
  cases hexpanded : (h.memory.loadMark a).isExpanded with
  | true => exact hc.identityHash_place_expanded ha ho hcompact hexpanded
  | false =>
    rw [Heap.identityHash_compact hcompact hexpanded hhashed]
    cases hgrows : h.growsTo a (Berth.placeOf (h.places bs vs) a) with
    | true => exact hc.identityHash_place_grown ha ho hcompact hgrows
    | false =>
      -- it has stayed
      have hexpanded' :
          (h'.memory.loadMark (Berth.placeOf (h.places bs vs) a)).isExpanded = false := by
        rw [hcarried.expanded, hgrows, hexpanded]
        rfl
      have hstays : Berth.placeOf (h.places bs vs) a = a := by
        by_contra hmoves
        rw [Heap.growsTo_eq_true.2 ⟨hmoves, hcompact, hhashed, hexpanded⟩] at hgrows
        cases hgrows
      rw [Heap.identityHash_compact (hc.finished.headers.trans hcompact) hexpanded' hhashed', hstays]
      rfl

/-- Every live object is the same instance at its new place. -/
theorem rehomed {a : Address} {c : ClassInfo} {words : WordCount} (ha : live a)
    (ho : h.ObjectAt t a c words) : h.Rehomed h' t (Berth.placeOf (h.places bs vs)) a c := by
  have hcarried := hc.carried ha
  obtain ⟨moved, hobject, -⟩ := hc.objectAt ha ho
  refine ⟨⟨moved, hobject⟩, hcarried.lock, hcarried.hashed, hc.identityHash_place ha ho,
    fun f hf => hc.load_field_place ha ho hf, fun k h0 hk hplain => ?_⟩
  have hwhole := UInt64.le_iff_toNat_le.1 ho.whole
  have hwords := ho.wordsAt_eq
  exact hc.load_plain_place ha ho.info h0 (by omega) hplain

omit hc in
/-- A parallel collection relocates the objects that can be reached. -/
theorem relocated {h₀ : Heap} {roots : Roots} (hground : h₀.SameGround h)
    (hc : Completed h t b (Reaches h₀ t roots) part n e starts kept tops bs vs s release h₂ g h') :
    Relocated h₀ t roots h' (roots.map (Berth.placeOf (h.places bs vs)))
      (Berth.placeOf (h.places bs vs)) :=
  relocated_of_surveyed hground hc.surveyed hc.layout hc.finished.headers hc.settled hc.mapped
    (fun _ ha => hc.housed.placeOf_eq ha) (fun _ _ _ ha ho => hc.rehomed ha ho)
    fun _ _ ha hl hne => hc.apart ha hl hne

end ParallelCycle.Completed

end MarkCompact
