/-
MarkCompact/Proofs/LeftmostRuns.lean

Humongous objects go as far left as they can.

The search for room answers with the first run of the list (`CompactionPoint.exists_findRun`).
A region that can take part of a humongous object at the end of the pass could do so when the
objects to its right had their turn: it was vacant, or had been left by an object further left.
What the pass knows of the regions it has met (`Heap.Roomy`) says so.  So no object has room
before the place where it ends up (`Surveyed.rehouse_leftmost`).

Main result: `Surveyed.rehoused_leftmost`.
-/
import MarkCompact.Proofs.Rehousing

namespace MarkCompact

/-! ### Room at the end of the pass -/

namespace Heap

/-- Whether a region can take part of a humongous object once some have moved. -/
def RoomAfter (h : Heap) (vacant : Nat → Bool) (vs : List HumongousMove) (i : Nat) : Prop :=
  (vacant i = true ∨ ∃ v ∈ vs, v.Leaves h.layout i) ∧ ∀ v ∈ vs, ¬ v.Comes h.layout i

end Heap

/-- Whether so many regions in a row begin before `first`, of which those before `first` are
room. -/
def RunBefore (room : Nat → Prop) (n first : Nat) : Prop :=
  ∃ j < first, ∀ i, j ≤ i → i < j + n → i < first → room i

theorem RunBefore.mono {room room' : Nat → Prop} {n first : Nat} (h : RunBefore room n first)
    (hroom : ∀ i < first, room i → room' i) : RunBefore room' n first := by
  obtain ⟨j, hj, hrun⟩ := h
  exact ⟨j, hj, fun i h1 h2 h3 => hroom i h3 (hrun i h1 h2 h3)⟩

namespace Heap

variable {h : Heap} {t : ClassTable} {b : Bitmap} {live : Address → Prop} {vacant : Nat → Bool}

/-- Later moves do not make room further left. -/
theorem RoomAfter.of_append {vs new : List HumongousMove} {index i : Nat}
    (hi : h.RoomAfter vacant (vs ++ new) i) (hlater : ∀ v ∈ new, index ≤ v.source)
    (hlt : i < index) : h.RoomAfter vacant vs i := by
  refine ⟨hi.1.imp id fun ⟨v, hv, hleaves⟩ => ?_, fun v hv => hi.2 v (List.mem_append_left _ hv)⟩
  rcases List.mem_append.1 hv with hv | hv
  · exact ⟨v, hv, hleaves⟩
  · have := hlater v hv
    have := hleaves.1
    omega

/-- The pass has come to the region `index`, and `room` lists the regions before it that can take
part of a humongous object. -/
structure Roomy (h : Heap) (vacant : Nat → Bool) (vs : List HumongousMove) (index : Nat)
    (room : List Nat) : Prop where
  ascending : room.Pairwise (· < ·)
  mem : ∀ i, i ∈ room ↔ i < index ∧ h.RoomAfter vacant vs i
  before : ∀ v ∈ vs, v.source + v.regions h.layout ≤ index ∧ v.target < v.source

namespace Roomy

variable {vs : List HumongousMove} {index : Nat} {room : List Nat}

theorem below (hr : h.Roomy vacant vs index room) {i : Nat} (hi : i ∈ room) : i < index :=
  ((hr.mem i).1 hi).1

/-- What has been given up or taken so far lies before the region. -/
theorem lt_of_mem (hr : h.Roomy vacant vs index room) {v : HumongousMove} (hv : v ∈ vs) {i : Nat}
    (hi : v.Leaves h.layout i ∨ v.Comes h.layout i) : i < index := by
  have h1 := hr.before v hv
  rcases hi with hi | hi
  · have := hi.2
    omega
  · have := hi.2
    omega

/-- So nothing else makes room from there on. -/
theorem not_roomAfter (hr : h.Roomy vacant vs index room) {i : Nat} (hi : index ≤ i)
    (hoccupied : vacant i = false) : ¬ h.RoomAfter vacant vs i := by
  rintro ⟨hopen | ⟨v, hv, hleaves⟩, -⟩
  · rw [hoccupied] at hopen
    cases hopen
  · exact Nat.not_lt.2 hi (hr.lt_of_mem hv (.inl hleaves))

/-- A region in which no live humongous object begins is room if it is vacant. -/
theorem pass (hr : h.Roomy vacant vs index room) :
    h.Roomy vacant vs (index + 1) (if vacant index = true then room ++ [index] else room) := by
  refine ⟨?_, fun i => ?_,
    fun v hv => ⟨(hr.before v hv).1.trans (Nat.le_succ _), (hr.before v hv).2⟩⟩
  · split
    · refine List.pairwise_append.2 ⟨hr.ascending, List.pairwise_singleton .., fun i hi j hj => ?_⟩
      rw [List.mem_singleton.1 hj]
      exact hr.below hi
    · exact hr.ascending
  · rcases Nat.lt_trichotomy i index with hi | rfl | hi
    · rw [show (i ∈ if vacant index = true then room ++ [index] else room) ↔ i ∈ room by
        split
        · rw [List.mem_append, List.mem_singleton]
          exact ⟨fun h => h.resolve_right hi.ne, .inl⟩
        · rfl, hr.mem]
      exact ⟨fun h => ⟨by omega, h.2⟩, fun h => ⟨hi, h.2⟩⟩
    · split
      · rename_i hopen
        refine ⟨fun _ => ⟨Nat.lt_succ_self _, .inl hopen, fun v hv hcomes => ?_⟩, fun _ => by simp⟩
        exact Nat.lt_irrefl i (hr.lt_of_mem hv (.inr hcomes))
      · rename_i hoccupied
        rw [hr.mem]
        exact ⟨fun h => absurd h.1 (Nat.lt_irrefl i), fun h =>
          absurd h.2 (hr.not_roomAfter (Nat.le_refl i) (by simpa using hoccupied))⟩
    · refine ⟨fun hmem => ?_, fun h => absurd h.1 (by omega)⟩
      split at hmem
      · rcases List.mem_append.1 hmem with hmem | hmem
        · exact absurd (hr.below hmem) (by omega)
        · exact absurd (List.mem_singleton.1 hmem) (by omega)
      · exact absurd (hr.below hmem) (by omega)

/-- The regions of an object that stays are no room. -/
theorem kept (hr : h.Roomy vacant vs index room) {n : Nat}
    (hoccupied : ∀ i, index ≤ i → i < index + n → vacant i = false) :
    h.Roomy vacant vs (index + n) room := by
  refine ⟨hr.ascending, fun i => ?_,
    fun v hv => ⟨(hr.before v hv).1.trans (Nat.le_add_right ..), (hr.before v hv).2⟩⟩
  rw [hr.mem]
  refine ⟨fun h => ⟨by omega, h.2⟩, fun h => ⟨?_, h.2⟩⟩
  by_contra hi
  exact hr.not_roomAfter (Nat.not_lt.1 hi) (hoccupied i (Nat.not_lt.1 hi) h.1) h.2

/-- An object that moves takes some of the room, and leaves its own regions. -/
theorem taken (hr : h.Roomy vacant vs index room) {v : HumongousMove} {room' : List Nat}
    (hsource : v.source = index) (hleft : v.target < index) (hasc : room'.Pairwise (· < ·))
    (hmem : ∀ i, i ∈ room' ↔ (i ∈ room ∨ v.Leaves h.layout i) ∧ ¬ v.Comes h.layout i) :
    h.Roomy vacant (vs ++ [v]) (index + v.regions h.layout) room' := by
  refine ⟨hasc, fun i => (hmem i).trans ⟨?_, ?_⟩, fun w hw => ?_⟩
  · rintro ⟨hi | hi, hcomes⟩
    · obtain ⟨hlt, hopen⟩ := (hr.mem i).1 hi
      refine ⟨by omega, hopen.1.imp id fun ⟨w, hw, hleaves⟩ =>
        ⟨w, List.mem_append_left _ hw, hleaves⟩, fun w hw => ?_⟩
      rcases List.mem_append.1 hw with hw | hw
      · exact hopen.2 w hw
      · rwa [List.mem_singleton.1 hw]
    · refine ⟨by have := hi.2; omega, .inr ⟨v, by simp, hi⟩, fun w hw hwi => ?_⟩
      rcases List.mem_append.1 hw with hw | hw
      · -- earlier objects have come to regions before `index`, and `v` leaves regions from there on
        have := hr.lt_of_mem hw (.inr hwi)
        have := hi.1
        omega
      · rw [List.mem_singleton.1 hw] at hwi
        exact hcomes hwi
  · rintro ⟨hi, hopen⟩
    refine ⟨?_, hopen.2 v (by simp)⟩
    by_cases hlt : i < index
    · refine .inl ((hr.mem i).2 ⟨hlt, hopen.of_append (fun w hw => ?_) hlt⟩)
      rw [List.mem_singleton.1 hw, hsource]
    · exact .inr ⟨by omega, by omega⟩
  · rcases List.mem_append.1 hw with hw | hw
    · exact ⟨(hr.before w hw).1.trans (Nat.le_add_right ..), (hr.before w hw).2⟩
    · rw [List.mem_singleton.1 hw, hsource]
      exact ⟨Nat.le_refl _, hleft⟩

end Roomy

/-- What the search for room comes to: a run to the left, before which there is none, or none. -/
theorem runFor_spec {room : List Nat} {first : Nat} (hasc : room.Pairwise (· < ·))
    (hbelow : ∀ i ∈ room, i < first)
    (hpos : 0 < (h.moveTo t first first).regions h.layout) :
    (∀ start, h.runFor t room first = some start →
      let v := h.moveTo t first (room[start]?.getD 0)
      v.target < first ∧ ¬ RunBefore (· ∈ room) (v.regions h.layout) v.target ∧
        (h.layout.regionsFor v.copySize).toNat = v.regions h.layout ∧
        ((room ++ List.range' first (v.regions h.layout)).take start
          ++ (room ++ List.range' first (v.regions h.layout)).drop
            (start + v.regions h.layout)).Pairwise (· < ·) ∧
        ∀ i, i ∈ (room ++ List.range' first (v.regions h.layout)).take start
            ++ (room ++ List.range' first (v.regions h.layout)).drop (start + v.regions h.layout) ↔
          (i ∈ room ∨ v.Leaves h.layout i) ∧ ¬ v.Comes h.layout i) ∧
    (h.runFor t room first = none → (h.layout.regionsFor (h.moveTo t first first).copySize).toNat
        = (h.moveTo t first first).regions h.layout →
      ¬ RunBefore (· ∈ room) ((h.moveTo t first first).regions h.layout) first) := by
  let p : CompactionPoint := { CompactionPoint.empty with regions := room.toArray }
  have hlist : p.regions.toList = room := rfl
  have hat : ∀ start, p.regionAt start = room[start]?.getD 0 := fun start => by
    unfold CompactionPoint.regionAt
    rw [← Array.getElem?_toList, hlist]
  rw [← hlist] at hasc hbelow
  refine ⟨fun start hfor => ?_, fun hfor hfits => ?_⟩
  · unfold runFor at hfor
    dsimp only at hfor
    split at hfor
    · cases hfor
    rename_i hfits
    obtain ⟨hleft, hroom, hasc', hmem, hrun⟩ :=
      CompactionPoint.room_after hpos hasc hbelow hfor h
    rw [hat] at hleft hmem hrun
    rw [hroom, hlist] at hmem hasc'
    refine ⟨hleft, ?_, not_not.1 hfits, hasc', hmem⟩
    -- room farther left, up to the run that was found, would have been found first
    rintro ⟨j, hj, hbefore⟩
    change j < room[start]?.getD 0 at hj
    obtain ⟨start', hfor', hle⟩ := CompactionPoint.exists_findRun hpos hasc hbelow
      (hj.trans hleft) fun i h1 h2 h3 => by
        by_cases htarget : i < room[start]?.getD 0
        · exact hbefore i h1 h2 htarget
        · exact (hrun i (Nat.not_lt.1 htarget) (by omega)).resolve_right fun hi => by omega
    obtain rfl := Option.some.inj (hfor.symm.trans hfor')
    rw [hat] at hle
    exact Nat.not_lt.2 hle hj
  · rintro ⟨j, hj, hbefore⟩
    obtain ⟨start, hfound, -⟩ := CompactionPoint.exists_findRun hpos hasc hbelow hj hbefore
    unfold runFor at hfor
    dsimp only at hfor
    rw [if_neg (not_not.2 hfits)] at hfor
    exact Option.some_ne_none _ (hfound.symm.trans hfor)

end Heap

namespace Heap

/-- The moves `new` of the objects from the region `index` on, after the moves `vs`: no object that
moves has room before its new run, and none that stays before the old one. -/
structure LeftmostFrom (h : Heap) (t : ClassTable) (b : Bitmap) (vacant : Nat → Bool) (index : Nat)
    (vs new : List HumongousMove) : Prop where
  later : ∀ v ∈ new, index ≤ v.source
  moved : ∀ v ∈ new, ¬ RunBefore (h.RoomAfter vacant (vs ++ new)) (v.regions h.layout) v.target
  stayed : ∀ f, index ≤ f → f < h.regions.size → h.isLiveStart b f = true →
    (∀ v ∈ new, v.source ≠ f) →
    (h.layout.regionsFor (h.moveTo t f f).copySize).toNat = (h.moveTo t f f).regions h.layout →
    ¬ RunBefore (h.RoomAfter vacant (vs ++ new)) ((h.moveTo t f f).regions h.layout) f

namespace LeftmostFrom

variable {h : Heap} {t : ClassTable} {b : Bitmap} {vacant : Nat → Bool} {index : Nat}
  {vs new : List HumongousMove}

theorem nil (hend : h.regions.size ≤ index) : h.LeftmostFrom t b vacant index vs [] :=
  ⟨by simp, by simp, fun f h1 h2 => absurd (hend.trans h1) (Nat.not_le.2 h2)⟩

/-- No live humongous object begins in the first region. -/
theorem pass (hl : h.LeftmostFrom t b vacant (index + 1) vs new)
    (hstart : h.isLiveStart b index = false) : h.LeftmostFrom t b vacant index vs new := by
  refine ⟨fun v hv => (Nat.le_succ _).trans (hl.later v hv), hl.moved, fun f h1 h2 h3 => ?_⟩
  refine hl.stayed f (Nat.lt_of_le_of_ne h1 ?_) h2 h3
  rintro rfl
  rw [hstart] at h3
  cases h3

/-- No live humongous object begins in a later region of a run. -/
theorem le_of_isLiveStart {words : WordCount} (hrun : h.HumongousRun index words) {f : Nat}
    (hle : index ≤ f) (hne : f ≠ index) (hstart : h.isLiveStart b f = true) :
    index + (h.layout.regionsFor words).toNat ≤ f := by
  by_contra hlt
  unfold Heap.isLiveStart at hstart
  rw [hrun.later f (by omega) (Nat.not_le.1 hlt)] at hstart
  simp at hstart

/-- The object that begins in the first region stays, for there is no room before it. -/
theorem kept {room : List Nat} (hr : h.Roomy vacant vs index room)
    (hrun : h.HumongousRun index (h.moveTo t index index).size)
    (hl : h.LeftmostFrom t b vacant (index + (h.moveTo t index index).regions h.layout) vs new)
    (hnone : (h.layout.regionsFor (h.moveTo t index index).copySize).toNat
        = (h.moveTo t index index).regions h.layout →
      ¬ RunBefore (· ∈ room) ((h.moveTo t index index).regions h.layout) index) :
    h.LeftmostFrom t b vacant index vs new := by
  have hlater := fun v hv => (Nat.le_add_right ..).trans (hl.later v hv)
  refine ⟨hlater, hl.moved, fun f h1 h2 h3 h4 hfits => ?_⟩
  by_cases hf : f = index
  · subst hf
    exact fun hbefore => hnone hfits (hbefore.mono fun i hi hopen =>
      (hr.mem i).2 ⟨hi, hopen.of_append hlater hi⟩)
  · exact hl.stayed f (le_of_isLiveStart hrun h1 hf h3) h2 h3 h4 hfits

/-- The object that begins in the first region moves to the first room for it. -/
theorem cons {room : List Nat} (hr : h.Roomy vacant vs index room) {v : HumongousMove}
    (hsource : v.source = index) (hrun : h.HumongousRun index v.size) (hleft : v.target < index)
    (hl : h.LeftmostFrom t b vacant (index + v.regions h.layout) (vs ++ [v]) new)
    (hfirst : ¬ RunBefore (· ∈ room) (v.regions h.layout) v.target) :
    h.LeftmostFrom t b vacant index vs (v :: new) := by
  have hall : vs ++ v :: new = vs ++ [v] ++ new := by simp
  have hlater : ∀ w ∈ v :: new, index ≤ w.source := by
    intro w hw
    rcases List.mem_cons.1 hw with rfl | hw
    · exact hsource.ge
    · exact (Nat.le_add_right ..).trans (hl.later w hw)
  refine ⟨hlater, fun w hw => ?_, fun f h1 h2 h3 h4 hfits => ?_⟩
  · rcases List.mem_cons.1 hw with rfl | hw
    · exact fun hbefore => hfirst (hbefore.mono fun i hi hopen =>
        (hr.mem i).2 ⟨hi.trans hleft, hopen.of_append hlater (hi.trans hleft)⟩)
    · rw [hall]
      exact hl.moved w hw
  · rw [hall]
    refine hl.stayed f (le_of_isLiveStart hrun h1 (fun hf => ?_) h3) h2 h3
      (fun w hw => h4 w (List.mem_cons_of_mem _ hw)) hfits
    exact h4 v List.mem_cons_self (hsource.trans hf.symm)

end LeftmostFrom

end Heap

namespace Surveyed

variable {h : Heap} {t : ClassTable} {b : Bitmap} {live : Address → Prop} {vacant : Nat → Bool}

/-- From each region on the pass moves objects as far to the left as there is room. -/
theorem rehouse_leftmost (hs : Surveyed h t b live)
    (hvacant : ∀ f words i, h.InRun f words i → vacant i = false) (fuel : Nat) {index : Nat}
    {room : List Nat} {vs : List HumongousMove} (hr : h.Roomy vacant vs index room)
    (hfuel : h.regions.size ≤ fuel + index) :
    h.LeftmostFrom t b vacant index vs
      (h.rehouse t vacant fuel index (h.liveStartsFrom b index) room) := by
  -- on the regions left to pass; the room is known from the objects that have been met
  induction fuel generalizing index room vs with
  | zero => exact .nil (by omega)
  | succ fuel ih =>
    unfold Heap.rehouse
    by_cases hlt : index < h.regions.size
    swap
    · rw [if_neg hlt]
      exact .nil (Nat.not_lt.1 hlt)
    rw [if_pos hlt]
    cases hstart : h.isLiveStart b index with
    | false =>
      rw [if_neg (Heap.head?_liveStartsFrom_of_other hstart),
        Heap.liveStartsFrom_of_other hlt hstart]
      exact (ih hr.pass (by omega)).pass hstart
    | true =>
      obtain ⟨hlive, c, words, ho, hrun⟩ := hs.humongous hlt hstart
      obtain ⟨hsize, -⟩ := hs.size_moveTo index hlive
      rw [ho.size, Except.ok.injEq] at hsize
      rw [hsize] at hrun
      obtain ⟨-, hpos, -⟩ := hrun.inside hs.tabled.toGridded hlt
      change 0 < (h.moveTo t index index).regions h.layout at hpos
      have htail : (h.liveStartsFrom b index).tail
          = h.liveStartsFrom b (index + (h.moveTo t index index).regions h.layout) := by
        rw [Heap.liveStartsFrom_of_start hlt hstart]
        exact Heap.liveStartsFrom_of_run hrun hs.tabled.toGridded hlt
      have hhead : (h.liveStartsFrom b index).head? = some index := by
        rw [Heap.liveStartsFrom_of_start hlt hstart]
        rfl
      -- an object that stays keeps its regions, so none of them becomes room
      have hoccupied : ∀ i, index ≤ i →
          i < index + (h.moveTo t index index).regions h.layout → vacant i = false :=
        fun i h1 h2 => hvacant index _ i ⟨hrun, h1, h2⟩
      obtain ⟨hsome, hnone⟩ := Heap.runFor_spec hr.ascending (fun i hi => hr.below hi) hpos
      rw [if_pos hhead, htail]
      cases hfor : h.runFor t room index with
      | none => exact .kept hr hrun (ih (hr.kept hoccupied) (by omega)) (hnone hfor)
      | some start =>
        obtain ⟨hleft, hfirst, -, hasc', hmem⟩ := hsome start hfor
        exact .cons hr rfl hrun hleft (ih (hr.taken rfl hleft hasc' hmem) (by
          show _ ≤ fuel + (index + (h.moveTo t index index).regions h.layout)
          omega)) hfirst

/-- So it is at the end of the pass over all regions. -/
theorem rehoused_leftmost (hs : Surveyed h t b live) (part : List Nat) (tops : Nat → Address)
    (hvacant : ∀ f words i, h.InRun f words i → h.isVacant part tops i = false) :
    let vs := h.rehoused t b part tops
    let room := h.RoomAfter (h.isVacant part tops) vs
    (∀ v ∈ vs, ¬ RunBefore room (v.regions h.layout) v.target) ∧
      ∀ f < h.regions.size, h.isLiveStart b f = true → (∀ v ∈ vs, v.source ≠ f) →
        (h.layout.regionsFor (h.moveTo t f f).copySize).toNat = (h.moveTo t f f).regions h.layout →
        ¬ RunBefore room ((h.moveTo t f f).regions h.layout) f := by
  have hnone : h.Roomy (h.isVacant part tops) [] 0 [] := ⟨.nil, by simp, by simp⟩
  have hleftmost := hs.rehouse_leftmost hvacant h.regions.size hnone (Nat.le_add_right ..)
  exact ⟨hleftmost.moved, fun f => hleftmost.stayed f (Nat.zero_le f)⟩

end Surveyed

end MarkCompact
