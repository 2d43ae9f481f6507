/-
MarkCompact/Proofs/Lodging.lean

Places for the live objects of the part.

A list of berths is a lodging of a list of objects in the part if every object has a berth
in a region of the part, no farther right than where it lies, and the berths do not overlap
(`Heap.Laid`).  An object that stays takes the words it has, one that goes elsewhere those of
its copy.  From the berths follow the new addresses that an encoding records (`Berth.moves`) and
the marks that it puts aside (`Heap.savedMarks`).

Main results: `Laid.place` (where an object of the part goes) and `Laid.apart` (the places of two
objects do not overlap).
-/
import MarkCompact.Proofs.Cursors

namespace MarkCompact

namespace Berth

/-! ### New addresses -/

/-- Whether the object goes elsewhere. -/
def isMoved (p : Berth) : Bool := p.target != p.object

/-- The new addresses of the objects that go elsewhere. -/
def moves (bs : List Berth) : List (Address × Address) :=
  (bs.filter isMoved).map fun p => (p.object, p.target)

theorem isMoved_iff (p : Berth) : p.isMoved = true ↔ p.target ≠ p.object := by
  simp [isMoved]

theorem mem_moves {bs : List Berth} {e : Address × Address} :
    e ∈ moves bs ↔ ∃ p ∈ bs, p.target ≠ p.object ∧ (p.object, p.target) = e := by
  simp only [moves, List.mem_map, List.mem_filter, isMoved_iff, and_assoc]

theorem moves_snoc (bs : List Berth) (p : Berth) :
    moves (bs ++ [p]) = moves bs ++ if p.target ≠ p.object then [(p.object, p.target)] else [] := by
  unfold moves
  rw [List.filter_append, List.map_append]
  by_cases hp : p.target ≠ p.object
  · rw [if_pos hp, List.filter_cons_of_pos ((isMoved_iff p).2 hp)]
    rfl
  · rw [if_neg hp, List.filter_cons_of_neg fun hh => hp ((isMoved_iff p).1 hh)]
    rfl

/-- The new addresses are those of the objects that go elsewhere. -/
theorem mem_moves_iff {bs : List Berth} (hnodup : (bs.map object).Nodup) {a v : Address} :
    (a, v) ∈ moves bs ↔ placeOf bs a = v ∧ v ≠ a := by
  rw [mem_moves]
  constructor
  · rintro ⟨p, hp, hne, heq⟩
    obtain ⟨rfl, rfl⟩ := Prod.mk.inj heq
    exact ⟨placeOf_of_mem hnodup hp, hne⟩
  · rintro ⟨rfl, hne⟩
    by_cases hmem : a ∈ bs.map object
    · obtain ⟨p, hp, rfl⟩ := List.mem_map.1 hmem
      rw [placeOf_of_mem hnodup hp] at hne ⊢
      exact ⟨p, hp, hne, rfl⟩
    · exact absurd (placeOf_of_notMem hmem) hne

theorem map_fst_moves (bs : List Berth) :
    (moves bs).map Prod.fst = (bs.filter isMoved).map object := by
  simp [moves, Function.comp_def]

theorem sublist_map_fst_moves (bs : List Berth) :
    ((moves bs).map Prod.fst).Sublist (bs.map object) := by
  rw [map_fst_moves]
  exact List.filter_sublist.map object

/-- The new address of an object is looked up, whatever has become of words other than its mark. -/
theorem forwardee_placeOf {f : Forwarding} {n : Forwarding.Announced} {m₀ m : Memory}
    {bs : List Berth} (hr : f.Records n m₀ m (moves bs)) (hl : n.layout.Sound)
    (hnodup : (bs.map object).Nodup) {a : Address} (hword : n.layout.IsWord a)
    (hclean : (m₀.loadMark a).isForwarded = false) {m' : Memory}
    (hmark : m'.loadMark a = m.loadMark a) :
    f.forwardee m' a = .ok (if placeOf bs a = a then none else some (placeOf bs a)) := by
  by_cases hstays : placeOf bs a = a
  · rw [if_pos hstays]
    have hnew : a ∉ (moves bs).map Prod.fst := by
      intro hmem
      obtain ⟨r, hr, rfl⟩ := List.mem_map.1 hmem
      obtain ⟨heq, hne⟩ := (mem_moves_iff hnodup (a := r.1) (v := r.2)).1 hr
      exact hne (heq.symm.trans hstays)
    refine hr.forwardee_of_notMem hl hword hnew ?_
    rw [hmark]
    unfold Memory.loadMark
    rw [hr.elsewhere a hnew]
    exact hclean
  · rw [if_neg hstays]
    exact hr.forwardee_of_mem hl ((mem_moves_iff hnodup).2 ⟨rfl, hstays⟩) hmark

/-- A berth in the region of the one before it begins where that one ends, unless both objects
stay. -/
def Joins (p q : Berth) : Prop :=
  q.space = p.space → q.target.toNat = p.stop ∨ p.target = p.object ∧ q.target = q.object

end Berth

namespace Heap

/-! ### Marks that are kept aside -/

/-- What is kept aside of the mark of an object that goes elsewhere. -/
def savedMark (h : Heap) (a : Address) : SavedMark := ⟨a, h.memory.loadMark a, h.growsAt a⟩

/-- The marks that are kept aside when the given objects go elsewhere. -/
def savedMarks (h : Heap) (as : List Address) : List SavedMark :=
  (as.filter fun a => (h.memory.loadMark a).mustPreserve h.compactHeaders).map h.savedMark

theorem savedMarks_append (h : Heap) (as as' : List Address) :
    h.savedMarks (as ++ as') = h.savedMarks as ++ h.savedMarks as' := by
  simp [savedMarks]

/-- The mark of one more object is kept aside, if the encoding overwrites marks. -/
theorem toList_save {h : Heap} {s : SavedMarks} {as : List Address} {overwrites : Bool}
    (hs : s.toList = if overwrites then h.savedMarks as else []) (a : Address) :
    (if overwrites then s.save a (h.memory.loadMark a) h.compactHeaders (h.growsAt a) else s).toList
      = if overwrites then h.savedMarks (as ++ [a]) else [] := by
  cases overwrites with
  | false => exact hs
  | true =>
    rw [if_pos rfl] at hs
    rw [if_pos rfl, if_pos rfl, savedMarks_append, ← hs]
    unfold SavedMarks.save savedMarks
    cases hm : (h.memory.loadMark a).mustPreserve h.compactHeaders with
    | false => simp [hm]
    | true => simp [hm, savedMark]

/-! ### Berths in the part -/

/-- The words an object takes at `v`: those it has if it stays, else those of its copy. -/
def wordsFrom (h : Heap) (t : ClassTable) (a v : Address) : Nat :=
  if v = a then h.wordsAt t a else h.movedWords t a

theorem wordsFrom_of_memory {g h : Heap} (hheaders : g.compactHeaders = h.compactHeaders)
    (hmemory : g.memory = h.memory) (t : ClassTable) (a v : Address) :
    g.wordsFrom t a v = h.wordsFrom t a v := by
  unfold wordsFrom
  rw [wordsAt_congr hmemory, movedWords_of_memory hheaders hmemory]

theorem wordsFrom_le (h : Heap) (t : ClassTable) (a v : Address) :
    h.wordsAt t a ≤ h.wordsFrom t a v ∧ h.wordsFrom t a v ≤ h.wordsAt t a + 1 := by
  have := Surveyed.wordsAt_le_movedWords h t a
  unfold wordsFrom
  split <;> omega

/-- A berth in a region of the part, which is filled up to `tops`. -/
structure Berthed (h : Heap) (t : ClassTable) (part : List Nat) (tops : Nat → Address) (p : Berth) :
    Prop where
  space : p.space ∈ part
  bottom : (h.layout.bottom p.space).toNat ≤ p.target.toNat
  stop : p.stop ≤ (tops p.space).toNat
  aligned : p.target.toNat % 8 = 0
  left : p.target.toNat ≤ p.object.toNat
  words : p.words = h.wordsFrom t p.object p.target

/-- How far berths fill a region. -/
def topOf (h : Heap) (bs : List Berth) (i : Nat) : Nat :=
  bs.foldl (fun top p => if p.space = i then p.stop else top) (h.layout.bottom i).toNat

theorem topOf_snoc (h : Heap) (bs : List Berth) (p : Berth) (i : Nat) :
    h.topOf (bs ++ [p]) i = if p.space = i then p.stop else h.topOf bs i := by
  unfold topOf
  rw [List.foldl_append, List.foldl_cons, List.foldl_nil]

/-- Berths in other regions do not count. -/
theorem topOf_append (h : Heap) (bs : List Berth) {bs' : List Berth} {i : Nat}
    (hother : ∀ p ∈ bs', p.space ≠ i) : h.topOf (bs ++ bs') i = h.topOf bs i := by
  induction bs' using List.reverseRecOn with
  | nil => rw [List.append_nil]
  | append_singleton bs' p ih =>
    rw [← List.append_assoc, topOf_snoc, if_neg (hother p (by simp))]
    exact ih fun q hq => hother q (List.mem_append_left _ hq)

/-- The berths are places for the given objects in the part, which is filled up to `tops`. -/
structure Laid (h : Heap) (t : ClassTable) (part : List Nat) (tops : Nat → Address)
    (as : List Address) (bs : List Berth) : Prop where
  objects : bs.map Berth.object = as
  berthed : ∀ p ∈ bs, h.Berthed t part tops p
  extent : ∀ i ∈ part, (h.layout.bottom i).toNat ≤ (tops i).toNat ∧
    (tops i).toNat ≤ (h.layout.regionStop i).toNat ∧ (tops i).toNat % 8 = 0
  targets : bs.Pairwise fun p q => p.stop ≤ q.target.toNat
  tops : ∀ i ∈ part, (tops i).toNat = h.topOf bs i

variable {h : Heap} {t : ClassTable} {part : List Nat} {tops tops' : Nat → Address}
  {as : List Address} {bs : List Berth}

/-- The regions are filled farther. -/
theorem Berthed.mono {p : Berth} (hp : h.Berthed t part tops p)
    (hle : ∀ i ∈ part, (tops i).toNat ≤ (tops' i).toNat) : h.Berthed t part tops' p :=
  ⟨hp.space, hp.bottom, hp.stop.trans (hle _ hp.space), hp.aligned, hp.left, hp.words⟩

/-- One more object, behind all others. -/
theorem Laid.snoc (hl : h.Laid t part tops as bs) {p : Berth} (hspace : p.space ∈ part)
    (hsame : ∀ i ∈ part, i ≠ p.space → tops' i = tops i) (htop : (tops' p.space).toNat = p.stop)
    (hfrom : (tops p.space).toNat ≤ p.target.toNat)
    (hstop : p.stop ≤ (h.layout.regionStop p.space).toNat) (haligned : p.target.toNat % 8 = 0)
    (hleft : p.target.toNat ≤ p.object.toNat)
    (hwords : p.words = h.wordsFrom t p.object p.target)
    (hbehind : ∀ q ∈ bs, q.stop ≤ p.target.toNat) :
    h.Laid t part tops' (as ++ [p.object]) (bs ++ [p]) := by
  have hend : p.stop = p.target.toNat + 8 * p.words := rfl
  have hle : ∀ i ∈ part, (tops i).toNat ≤ (tops' i).toNat := by
    intro i hi
    by_cases hsp : i = p.space
    · rw [hsp]
      omega
    · rw [hsame i hi hsp]
  have hbottom := (hl.extent _ hspace).1
  refine ⟨by rw [List.map_append, hl.objects]; rfl, ?_, ?_, ?_, ?_⟩
  · intro q hq
    rcases List.mem_append.1 hq with hq | hq
    · exact (hl.berthed q hq).mono hle
    · rw [List.mem_singleton.1 hq]
      exact ⟨hspace, hbottom.trans hfrom, htop.ge, haligned, hleft, hwords⟩
  · intro i hi
    by_cases hsp : i = p.space
    · rw [hsp, htop]
      exact ⟨by omega, hstop, by omega⟩
    · rw [hsame i hi hsp]
      exact hl.extent i hi
  · rw [List.pairwise_append]
    refine ⟨hl.targets, List.pairwise_singleton .., fun q hq r hr => ?_⟩
    rw [List.mem_singleton.1 hr]
    exact hbehind q hq
  · intro i hi
    rw [topOf_snoc]
    by_cases hsp : i = p.space
    · rw [if_pos hsp.symm, hsp]
      exact htop
    · rw [if_neg (Ne.symm hsp), hsame i hi hsp]
      exact hl.tops i hi

/-! ### Where objects go -/

section Places

variable (hl : h.Laid t part tops as bs) (hasc : as.Pairwise fun a c => a.toNat < c.toNat)
include hl hasc

theorem Laid.nodup : (bs.map Berth.object).Nodup := by
  rw [hl.objects]
  exact Surveyed.nodup_of_pairwise hasc

/-- An object goes to a region of the part, and not to the right. -/
theorem Laid.place {a : Address} (ha : a ∈ as) : ∃ i ∈ part,
    (h.layout.bottom i).toNat ≤ (Berth.placeOf bs a).toNat ∧
    (Berth.placeOf bs a).toNat + 8 * h.wordsFrom t a (Berth.placeOf bs a) ≤ (tops i).toNat ∧
    (Berth.placeOf bs a).toNat % 8 = 0 ∧ (Berth.placeOf bs a).toNat ≤ a.toNat := by
  rw [← hl.objects] at ha
  obtain ⟨p, hp, rfl⟩ := List.mem_map.1 ha
  have hb := hl.berthed p hp
  rw [Berth.placeOf_of_mem (hl.nodup hasc) hp, ← hb.words]
  exact ⟨p.space, hb.space, hb.bottom, hb.stop, hb.aligned, hb.left⟩

/-- The objects keep their order, and do not overlap at their new places. -/
theorem Laid.apart {a c : Address} (ha : a ∈ as) (hc : c ∈ as) (hlt : a.toNat < c.toNat) :
    (Berth.placeOf bs a).toNat + 8 * h.wordsFrom t a (Berth.placeOf bs a)
      ≤ (Berth.placeOf bs c).toNat := by
  have hobjects := hl.objects ▸ hasc
  rw [← hl.objects] at ha hc
  obtain ⟨p, hp, rfl⟩ := List.mem_map.1 ha
  obtain ⟨q, hq, rfl⟩ := List.mem_map.1 hc
  rw [Berth.placeOf_of_mem (hl.nodup hasc) hp, Berth.placeOf_of_mem (hl.nodup hasc) hq,
    ← (hl.berthed p hp).words]
  obtain ⟨i, hi, rfl⟩ := List.mem_iff_getElem.1 hp
  obtain ⟨j, hj, rfl⟩ := List.mem_iff_getElem.1 hq
  rw [List.pairwise_map, List.pairwise_iff_getElem] at hobjects
  rcases Nat.lt_trichotomy i j with hij | rfl | hij
  · exact List.pairwise_iff_getElem.1 hl.targets i j hi hj hij
  · omega
  · have := hobjects j i hj hi hij
    omega

end Places

/-! ### Next fit -/

/-- One more object, at the first place with room. -/
def layNext (h : Heap) (t : ClassTable) (s : List Berth × Address × List Nat) (a : Address) :
    List Berth × Address × List Nat :=
  match h.nextFit a (h.wordsAt t a) (h.movedWords t a) s.2.1 s.2.2 with
  | some (v, rest) =>
    (s.1 ++ [⟨a, v, h.wordsFrom t a v, rest.headD 0⟩], v.nth (h.wordsFrom t a v), rest)
  | none => s

/-- The berths of some objects if nothing but room counts, the place of the next one and the
regions from there on. -/
def layOut (h : Heap) (t : ClassTable) (part : List Nat) (as : List Address) :
    List Berth × Address × List Nat :=
  as.foldl (h.layNext t) ([], h.layout.bottom (part.headD 0), part)

theorem layOut_snoc (h : Heap) (t : ClassTable) (part : List Nat) (as : List Address)
    (a : Address) : h.layOut t part (as ++ [a]) = h.layNext t (h.layOut t part as) a := by
  unfold layOut
  rw [List.foldl_append, List.foldl_cons, List.foldl_nil]

end Heap

end MarkCompact
