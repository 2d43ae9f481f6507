/-
MarkCompact/Proofs/JoinedMoves.lean

Moves without gaps.

In place each object is written where its own planned move says.  A shadow has no addresses but
that of its first word, so what is put into it lands one object behind the other.  The two come
to the same if each move begins where the one before it ends (`MoveRecord.Joined`), and neither
how long the list is nor which of the objects grow matters to that.

Main results: `MoveRecord.writeAll_transferred` (the images of joined moves, written in one run,
leave what the moves leave) and `MoveRecord.flush_transferred` (so does a shadow).
-/
import MarkCompact.Proofs.Transfers
import MarkCompact.Heap.Shadow

namespace MarkCompact

/-! ### Runs of writes -/

namespace Memory

/-- A run of writes is made in two parts. -/
theorem writeAll_append (ws ws' : List Word) (m : Memory) {start : Address}
    (fits : start.toNat + 8 * ws.length < 2 ^ 64) :
    m.writeAll start (ws ++ ws') = (m.writeAll start ws).writeAll (start.nth ws.length) ws' := by
  induction ws generalizing m start with
  | nil => rw [List.nil_append, List.length_nil, Address.nth_zero, writeAll]
  | cons w ws ih =>
    rw [List.length_cons] at fits
    have hval : (start + wordBytes).toNat = start.toNat + 8 := Address.toNat_add_wordBytes (by omega)
    have hstep : (start + wordBytes).nth ws.length = start.nth (ws.length + 1) := by
      apply UInt64.toNat_inj.1
      rw [Address.toNat_nth (by omega), Address.toNat_nth (by omega)]
      omega
    rw [List.cons_append, writeAll, ih _ (by omega), hstep, List.length_cons, writeAll]

end Memory

namespace MoveRecord

variable {r : MoveRecord} {m m₀ : Memory}

/-! ### Images -/

/-- The image of an object has the words that its move leaves. -/
theorem getElem_image (r : MoveRecord) (m : Memory) {i : Nat} (hi : i < (r.image m).length) :
    (r.image m)[i] = r.word m i := by
  have hlen := Memory.length_readWords m r.source r.size.toNat
  unfold word
  by_cases h0 : i = 0
  · subst h0
    simp [image]
  · rw [if_neg h0]
    simp only [image, List.getElem_set_ne (Ne.symm h0)]
    by_cases hsize : i < r.size.toNat
    · rw [if_pos hsize, List.getElem_append_left (by omega), Memory.getElem_readWords]
    · -- past the words of the object there is its hash
      rw [if_neg hsize, List.getElem_append_right (by omega)]
      split
      · simp
      · rename_i hg
        rw [MoveRecord.length_image, if_neg hg] at hi
        omega

namespace Sound

variable (h : r.Sound m₀)
include h

/-- It has as many words as the object takes at its target. -/
theorem length_image (m : Memory) : (r.image m).length = r.copySize.toNat := by
  have hgrown : r.grown = true ↔ r.copySize.toNat = r.size.toNat + 1 := by
    have hcases := h.grown
    unfold MoveRecord.grown
    rw [decide_eq_true_eq, UInt64.lt_iff_toNat_lt]
    omega
  rw [MoveRecord.length_image]
  split
  case isTrue hg => exact (hgrown.1 hg).symm
  case isFalse hg => exact (h.grown.resolve_right fun heq => hg (hgrown.2 heq)).symm

/-- Writing the image does what the move does. -/
theorem written_image (m m' : Memory) :
    m'.Written (m'.writeAll r.target (r.image m)) r.target r.copySize.toNat (r.word m) := by
  have hlen := h.length_image m
  have htop := h.target.top
  have hfits := h.target.fits
  refine ⟨Memory.sameSpan_writeAll .., fun i hi => ?_, fun c hc => ?_⟩
  · rw [Memory.load_writeAll_nth _ _ (by omega) (by omega), getElem_image]
  · exact Memory.load_writeAll_of_outside _ _ (by omega) (by omega)

/-- So it does after moves that are clear of it. -/
theorem image_transferred {done : List MoveRecord}
    (hdone : m₀.Transferred m (done.map (·.transfer m₀))) (hsound : ∀ q ∈ done, q.Sound m₀)
    (hclear : ∀ q ∈ done, q.Clear r) :
    m₀.Transferred (m.writeAll r.target (r.image m₀)) ((done ++ [r]).map (·.transfer m₀)) := by
  rw [List.map_append, List.map_singleton]
  refine hdone.snoc (h.written_image m₀ m) (fun x hx => ?_) fun x hx => ?_
  · obtain ⟨q, hq, rfl⟩ := List.mem_map.1 hx
    exact (hclear q hq).target
  · obtain ⟨q, hq, rfl⟩ := List.mem_map.1 hx
    exact Nat.lt_of_le_of_lt (hsound q hq).target.top (hsound q hq).target.fits

end Sound

/-! ### Moves without gaps -/

/-- Each move begins where the one before it ends. -/
def Joined (rs : List MoveRecord) : Prop :=
  rs.IsChain fun q r => r.target.toNat = q.target.toNat + 8 * q.copySize.toNat

theorem images_cons (r : MoveRecord) (rs : List MoveRecord) (m : Memory) :
    images (r :: rs) m = r.image m ++ images rs m := List.flatMap_cons

theorem images_singleton (r : MoveRecord) (m : Memory) : images [r] m = r.image m :=
  List.flatMap_singleton ..

theorem images_append (rs rs' : List MoveRecord) (m : Memory) :
    images (rs ++ rs') m = images rs m ++ images rs' m := List.flatMap_append ..

namespace Joined

/-- Joined moves go to one run of words, which their images fill. -/
theorem covers {rs : List MoveRecord} (hj : Joined (r :: rs)) (hsound : ∀ q ∈ r :: rs, q.Sound m₀)
    (m : Memory) : m₀.Covers r.target (images (r :: rs) m).length := by
  induction rs generalizing r with
  | nil =>
    have hr := hsound r (by simp)
    rw [images_singleton, hr.length_image]
    exact hr.target
  | cons q rs ih =>
    obtain ⟨hnext, hrest⟩ := List.isChain_cons_cons.1 hj
    have hr := hsound r (by simp)
    obtain ⟨-, htop, hfits⟩ := ih hrest fun q hq => hsound q (List.mem_cons_of_mem _ hq)
    rw [images_cons, List.length_append, hr.length_image]
    exact ⟨hr.target.bottom, by omega, hfits⟩

/-- The second one goes to where the image of the first one ends. -/
theorem target_next {q : MoveRecord} {rs : List MoveRecord} (hj : Joined (r :: q :: rs))
    (hr : r.Sound m₀) (m : Memory) : q.target = r.target.nth (r.image m).length := by
  have htop := hr.target.top
  have hfits := hr.target.fits
  apply UInt64.toNat_inj.1
  rw [(List.isChain_cons_cons.1 hj).1, hr.length_image, Address.toNat_nth (by omega)]

/-- In the run each image lies where its move goes. -/
theorem target_eq {rs done after : List MoveRecord} {q : MoveRecord} (hj : Joined (r :: rs))
    (hsound : ∀ q ∈ r :: rs, q.Sound m₀) (m : Memory) (hsplit : r :: rs = done ++ q :: after) :
    q.target = r.target.nth (images done m).length := by
  induction done generalizing r rs with
  | nil =>
    obtain ⟨rfl, -⟩ := List.cons.inj hsplit
    rw [images, List.flatMap_nil, List.length_nil, Address.nth_zero]
  | cons d done ih =>
    rw [List.cons_append] at hsplit
    obtain ⟨rfl, rfl⟩ := List.cons.inj hsplit
    have hr := hsound r (by simp)
    have hcovers := hj.covers hsound m
    have htop := hcovers.top
    have hfits := hcovers.fits
    rw [images_cons, images_append, List.length_append, List.length_append] at htop
    cases hrest : done ++ q :: after with
    | nil => simp at hrest
    | cons next rest =>
      rw [hrest] at hj hsound
      rw [ih (List.isChain_cons_cons.1 hj).2 (fun q hq => hsound q (List.mem_cons_of_mem _ hq))
        hrest.symm, hj.target_next hr m, Address.nth_nth (by omega), images_cons,
        List.length_append]

end Joined

/-- The images of joined moves, written in one run, leave what the moves leave. -/
theorem writeAll_transferred {done rs : List MoveRecord}
    (hdone : m₀.Transferred m (done.map (·.transfer m₀)))
    (hsound : ∀ q ∈ done ++ r :: rs, q.Sound m₀) (hclear : (done ++ r :: rs).Pairwise Clear)
    (hj : Joined (r :: rs)) :
    m₀.Transferred (m.writeAll r.target (images (r :: rs) m₀))
      ((done ++ r :: rs).map (·.transfer m₀)) := by
  induction rs generalizing done m r with
  | nil =>
    rw [images_singleton]
    exact (hsound r (by simp)).image_transferred hdone
      (fun q hq => hsound q (List.mem_append_left _ hq))
      fun q hq => (List.pairwise_append.1 hclear).2.2 q hq r List.mem_cons_self
  | cons q rs ih =>
    have hr := hsound r (by simp)
    have htop := hr.target.top
    have hfits := hr.target.fits
    have hfirst := hr.image_transferred hdone (fun q hq => hsound q (List.mem_append_left _ hq))
      fun q hq => (List.pairwise_append.1 hclear).2.2 q hq r List.mem_cons_self
    rw [images_cons, Memory.writeAll_append _ _ _ (by rw [hr.length_image]; omega),
      ← hj.target_next hr]
    rw [List.append_cons] at hsound hclear ⊢
    exact ih hfirst hsound hclear (List.isChain_cons_cons.1 hj).2

/-- A shadow of joined moves is put in place, and then all is as if the moves had been made. -/
theorem flush_transferred {rs : List MoveRecord} (hsound : ∀ q ∈ r :: rs, q.Sound m)
    (hclear : (r :: rs).Pairwise Clear) (hj : Joined (r :: rs)) (target : Nat) :
    ∃ m', Shadow.flush ⟨target, r.target, images (r :: rs) m⟩ m = .ok m' ∧
      m.Transferred m' ((r :: rs).map (·.transfer m)) := by
  have hcovers := hj.covers hsound m
  have htop := hcovers.top
  have hfits := hcovers.fits
  have hlen : (images (r :: rs) m).length.toUInt64.toNat = (images (r :: rs) m).length := by
    rw [UInt64.toNat_ofNat']
    omega
  have hnone : m.Transferred m (([] : List MoveRecord).map (·.transfer m)) := m.transferred_nil
  refine ⟨_, ?_, writeAll_transferred hnone hsound hclear hj⟩
  unfold Shadow.flush Memory.writeWords
  rw [Memory.checkRange_of_covers (hlen.symm ▸ hcovers)]
  rfl

end MoveRecord

end MarkCompact
