/-
MarkCompact/Proofs/ReferencePass.lean

The block offset table against a pass without a table.

`referencePass` walks the objects in the order of their addresses and assigns the
new addresses one by one: what begins in one block of a source is a group, a group
goes to the first space from the current one on in which it fits, and there its
objects lie one behind the other.  The table keeps one address for each block and
knows no list of objects.

`Filling.Passed` says what some blocks make of a filling in the words of the pass:
the same objects, at the same places, with the same spaces left over.  One block
does it (`passed_block`), and what one list of blocks does and then another one,
both do together (`Passed.append`), so a whole run does it.

Main results: `passed_run` (every run that goes through follows the pass) and
`Enclosed.exists_run` (spaces that enclose the sources never run out, and then
nothing goes to the right).
-/
import MarkCompact.Proofs.Filling

namespace MarkCompact

namespace BlockOffsets

variable {b : Bitmap} {l : Layout} {live : Address → Prop} {words : Address → Nat}

/-! ### The words of one object -/

/-- From an object up to the next one, its own words are live. -/
theorem liveExtent_eq (hl : l.Spans) (hs : b.Shows l live words) (hd : Bitmap.Spread l live words)
    {a top : Address} (ha : live a) (htop : l.IsEdge top) (hle : a.toNat + 8 * words a ≤ top.toNat) :
    liveExtent b top a = (words a).toUInt64 := by
  have hword := hd.isWord a ha
  have hpos := hd.nonempty a ha
  have hlt := top.toNat_lt
  have h8 : (a + wordBytes).toNat = a.toNat + 8 := by
    rw [UInt64.toNat_add]
    show (a.toNat + 8) % 2 ^ 64 = _
    omega
  obtain ⟨w1, w2, w3⟩ := hword
  have htop' := htop.stop
  have hafter : l.IsEdge (a + wordBytes) := ⟨by omega, by omega, by omega⟩
  obtain ⟨h1, h2, h3, h4, h5⟩ := hs.nextMarked_spec hl hd hafter htop (by omega)
  unfold liveExtent
  rw [hs.countWords_eq_sum hl hd [a] (Layout.IsWord.isEdge ⟨w1, w2, w3⟩) h1 (by omega)
    (List.pairwise_singleton ..)]
  · simp
  · intro c
    rw [List.mem_singleton]
    constructor
    · rintro rfl
      exact ⟨ha, le_refl _, by omega⟩
    · rintro ⟨hc, h6, h7⟩
      have hcw := (hd.isWord c hc).aligned
      by_contra hne
      have hne' : c.toNat ≠ a.toNat := fun h => hne (UInt64.toNat_inj.1 h)
      -- another object would begin at the next mark or behind it
      have := h4 c hc (by omega)
      omega
  · exact fun c hc hlt' => hd.disjoint c a hc ha hlt'
  · intro c hc
    obtain rfl := List.mem_singleton.1 hc
    by_cases hend : (b.nextMarked (c + wordBytes) top).toNat < top.toNat
    · exact hd.disjoint c _ ha (h5 hend) (by omega)
    · omega

theorem layOut_eq {top : Address} (space : Nat) (as : List Address) (target : Address)
    (has : ∀ a ∈ as, liveExtent b top a = (words a).toUInt64) :
    layOut b top target as
      = (Berth.row words space target as).map fun p => (p.object, p.target) := by
  induction as generalizing target with
  | nil => rfl
  | cons a as ih =>
    unfold layOut
    rw [has a (by simp), ih _ fun c hc => has c (by simp [hc])]
    rfl

theorem foldr_liveExtent {top : Address} (as : List Address)
    (has : ∀ a ∈ as, liveExtent b top a = (words a).toUInt64) :
    (as.map (liveExtent b top)).foldr (· + ·) 0 = (as.map words).sum.toUInt64 := by
  induction as with
  | nil => rfl
  | cons a as ih =>
    rw [List.map_cons, List.foldr_cons, ih fun c hc => has c (by simp [hc]), has a (by simp),
      List.map_cons, List.sum_cons, toUInt64_add]

/-- The pass lays out a group as a row, in the first space in which it fits. -/
theorem referencePass_cons {top : Address} {as : List Address}
    (groups : List (Address × List Address)) {spaces left : List Space} {s : Space} (space : Nat)
    (hne : as ≠ []) (has : ∀ a ∈ as, liveExtent b top a = (words a).toUInt64)
    (hfirst : firstFitting (as.map words).sum.toUInt64 spaces = some (s, left)) :
    referencePass b ((top, as) :: groups) spaces
      = (referencePass b groups ({ s with top := s.top.nth (as.map words).sum } :: left)).map
          ((Berth.row words space s.top as).map (fun p => (p.object, p.target)) ++ ·) := by
  obtain ⟨first, rest, rfl⟩ := List.exists_cons_of_ne_nil hne
  rw [referencePass]
  dsimp only
  rw [foldr_liveExtent _ has, hfirst]
  show (referencePass b groups
      ({ s with top := s.top.nth ((first :: rest).map words).sum } :: left) >>= fun later =>
        some (layOut b top s.top (first :: rest) ++ later)) = _
  rw [layOut_eq space _ _ has]
  cases referencePass b groups
      ({ s with top := s.top.nth ((first :: rest).map words).sum } :: left) <;> rfl

/-! ### The next space with room -/

namespace Filling

theorem drop_spaces {f : Filling} {j : Nat} (hj : j < f.spaces.size) :
    f.spaces.toList.drop j = f.spaceAt j :: f.spaces.toList.drop (j + 1) := by
  have hat : f.spaceAt j = f.spaces.toList[j] := by
    unfold spaceAt
    rw [Array.getElem?_eq_getElem hj, Option.getD_some, Array.getElem_toList]
  rw [hat]
  exact List.drop_eq_getElem_cons _

/-- The cursor goes on to the space that the pass without a table finds. -/
theorem makeRoom_eq {f f' : Filling} {words : WordCount} {block : Nat} (hne : words ≠ 0)
    (hrun : f.makeRoom words block = .ok f') :
    f' = { f with space := f'.space } ∧ f.space ≤ f'.space ∧ f'.space < f.spaces.size ∧
      words ≤ (f.spaceAt f'.space).freeWords ∧
      firstFitting words (f.spaces.toList.drop f.space)
        = some (f.spaceAt f'.space, f.spaces.toList.drop (f'.space + 1)) := by
  fun_induction makeRoom f words block with
  | case1 f hfit =>
    obtain rfl := Except.ok.inj hrun
    have hin : f.space < f.spaces.size := by
      by_contra hout
      -- behind the last space there is no room at all
      have hdefault : f.target = default := by
        unfold target
        rw [Array.getElem?_eq_none (Nat.not_lt.1 hout)]
        rfl
      rw [hdefault] at hfit
      exact hne (UInt64.le_zero_iff.1 hfit)
    refine ⟨rfl, le_refl _, hin, hfit, ?_⟩
    rw [drop_spaces hin]
    unfold firstFitting
    exact if_pos hfit
  | case2 f hfull hnext ih =>
    obtain ⟨h1, h2, h3, h4, h5⟩ := ih hrun
    have hstep : f.space + 1 ≤ f'.space := h2
    refine ⟨h1, by omega, h3, h4, ?_⟩
    rw [drop_spaces (by omega : f.space < f.spaces.size)]
    unfold firstFitting
    exact (if_neg hfull).trans h5
  | case3 f hfull hlast => cases hrun

/-- A later space with room stops the cursor. -/
theorem exists_makeRoom {f : Filling} {words : WordCount} {pos : Nat} (hle : f.space ≤ pos)
    (hpos : pos < f.spaces.size) (hfit : words ≤ (f.spaceAt pos).freeWords) (block : Nat) :
    ∃ s, f.makeRoom words block = .ok { f with space := s } ∧ f.space ≤ s ∧ s ≤ pos := by
  obtain ⟨k, rfl⟩ : ∃ k, pos = f.space + k := ⟨pos - f.space, by omega⟩
  induction k generalizing f with
  | zero =>
    refine ⟨f.space, ?_, le_refl _, by omega⟩
    unfold makeRoom
    exact if_pos hfit
  | succ k ih =>
    unfold makeRoom
    by_cases hhere : words ≤ f.target.freeWords
    · exact ⟨f.space, if_pos hhere, le_refl _, by omega⟩
    · have hnext : f.space + 1 + k < f.spaces.size := by omega
      obtain ⟨s, h1, h2, h3⟩ := ih (f := { f with space := f.space + 1 }) (Nat.le_add_right ..)
        hnext (by
          show words ≤ (f.spaceAt (f.space + 1 + k)).freeWords
          rwa [show f.space + 1 + k = f.space + (k + 1) by omega])
      have h2' : f.space + 1 ≤ s := h2
      have h3' : s ≤ f.space + 1 + k := h3
      refine ⟨s, ?_, by omega, by omega⟩
      rw [if_neg hhere, if_pos (by omega)]
      exact h1

/-! ### What blocks make of a filling -/

/-- The blocks `qs` have led from the filling `f` to `f'`, and the objects that begin in them have
been placed at `bs`. -/
structure Passed (b : Bitmap) (words : Address → Nat) (qs : List (Address × Address))
    (f f' : Filling) (bs : List Berth) : Prop where
  blocks : f.table.SameBlocks f'.table
  objects : bs.map Berth.object = qs.flatMap fun q => f.group b q.1 q.2
  /-- Without a table the objects come to the same places, and the same spaces are left. -/
  reference : ∀ groups, referencePass b (qs.map (fun q => (q.2, f.group b q.1 q.2)) ++ groups)
      (f.spaces.toList.drop f.space)
    = (referencePass b groups (f'.spaces.toList.drop f'.space)).map
        (bs.map (fun p => (p.object, p.target)) ++ ·)
  size : ∀ p ∈ bs, p.words = words p.object
  places : ∀ p ∈ bs, f'.table.forwardee b p.object = p.target
  /-- Objects of other blocks keep their new addresses. -/
  kept : ∀ a, (∀ q ∈ qs, f.table.blockOf q.1 ≠ f.table.blockOf a) →
    f'.table.forwardee b a = f.table.forwardee b a
  count : f'.spaces.size = f.spaces.size
  current : f.space ≤ f'.space
  inside : f.space < f.spaces.size → f'.space < f.spaces.size
  space : ∀ p ∈ bs, f.space ≤ p.space ∧ p.space ≤ f'.space ∧ p.space < f.spaces.size
  ascending : bs.Pairwise fun p q => p.space ≤ q.space
  extent : ∀ j, (f'.spaceAt j).bottom = (f.spaceAt j).bottom ∧
    (f'.spaceAt j).stop = (f.spaceAt j).stop
  bounds : ∀ j, (f'.spaceAt j).top.toNat ≤ (f'.spaceAt j).stop.toNat
  tiled : ∀ j, Tiles (f.spaceAt j).top.toNat (f'.spaceAt j).top.toNat
    ((bs.filter fun p => p.space == j).map Berth.run)

variable {f f' f'' : Filling} {qs qs' : List (Address × Address)} {bs bs' : List Berth}

theorem group_congr (h : f.table.SameBlocks f'.table) (b : Bitmap) (start top : Address) :
    f'.group b start top = f.group b start top := by
  unfold group blockStop
  rw [h.blockBytes]

/-- No block, no change. -/
theorem passed_nil (hbounds : ∀ j, (f.spaceAt j).top.toNat ≤ (f.spaceAt j).stop.toNat) :
    Passed b words [] f f [] where
  blocks := .refl _
  objects := rfl
  reference groups := by simp
  size := by simp
  places := by simp
  kept _ _ := rfl
  count := rfl
  current := le_refl _
  inside := id
  space := by simp
  ascending := List.Pairwise.nil
  extent _ := ⟨rfl, rfl⟩
  bounds := hbounds
  tiled _ := rfl

/-- What some blocks do and then other ones, they do together. -/
theorem Passed.append (h : Passed b words qs f f' bs) (h' : Passed b words qs' f' f'' bs')
    (hother : ∀ p ∈ bs, ∀ q ∈ qs', f.table.blockOf q.1 ≠ f.table.blockOf p.object) :
    Passed b words (qs ++ qs') f f'' (bs ++ bs') where
  blocks := h.blocks.trans h'.blocks
  objects := by
    rw [List.map_append, List.flatMap_append, h.objects, h'.objects]
    simp only [group_congr h.blocks]
  reference groups := by
    have h2 := h'.reference groups
    simp only [group_congr h.blocks] at h2
    rw [List.map_append, List.append_assoc, h.reference, h2, Option.map_map, List.map_append]
    simp only [Function.comp_def, List.append_assoc]
  size := List.forall_mem_append.2 ⟨h.size, h'.size⟩
  places := by
    refine List.forall_mem_append.2 ⟨fun p hp => ?_, h'.places⟩
    -- later blocks are other ones, so their entries change no place that has been given
    rw [h'.kept _ fun q hq => ?_, h.places p hp]
    rw [h.blocks.blockOf, h.blocks.blockOf]
    exact hother p hp q hq
  kept a ha := by
    rw [h'.kept a fun q hq => ?_, h.kept a fun q hq => ha q (List.mem_append_left _ hq)]
    rw [h.blocks.blockOf, h.blocks.blockOf]
    exact ha q (List.mem_append_right _ hq)
  count := h'.count.trans h.count
  current := h.current.trans h'.current
  inside hin := by
    have hin' := h'.inside (by rw [h.count]; exact h.inside hin)
    rwa [h.count] at hin'
  space := by
    refine List.forall_mem_append.2 ⟨fun p hp => ?_, fun p hp => ?_⟩
    · obtain ⟨h1, h2, h3⟩ := h.space p hp
      exact ⟨h1, h2.trans h'.current, h3⟩
    · obtain ⟨h1, h2, h3⟩ := h'.space p hp
      exact ⟨h.current.trans h1, h2, by rwa [h.count] at h3⟩
  ascending := List.pairwise_append.2 ⟨h.ascending, h'.ascending, fun p hp q hq =>
    (h.space p hp).2.1.trans (h'.space q hq).1⟩
  extent j := ⟨(h'.extent j).1.trans (h.extent j).1, (h'.extent j).2.trans (h.extent j).2⟩
  bounds := h'.bounds
  tiled j := by
    rw [List.filter_append, List.map_append]
    exact (h.tiled j).append (h'.tiled j)

/-- After a row has been laid out in the space `s`, that space comes first, with its new top. -/
theorem drop_spaces_placed (table : BlockOffsets) {s : Nat} (n : Nat) (hin : s < f.spaces.size) :
    (f.placed table s n).spaces.toList.drop s
      = { f.spaceAt s with top := (f.spaceAt s).top.nth n } :: f.spaces.toList.drop (s + 1) := by
  have hrest : (f.placed table s n).spaces.toList.drop (s + 1) = f.spaces.toList.drop (s + 1) := by
    refine List.ext_getElem? fun i => ?_
    rw [List.getElem?_drop, List.getElem?_drop]
    unfold Filling.placed
    rw [Array.toList_modify, List.getElem?_modify_ne _ _ (by omega)]
  rw [drop_spaces (by simpa [Filling.placed] using hin), f.spaceAt_placed table n hin, if_pos rfl,
    hrest]

/-- A row that is laid out in the space `s`. -/
theorem passed_row {start top : Address} {table : BlockOffsets} {s : Nat}
    (hblocks : f.table.SameBlocks table)
    (hbounds : ∀ j, (f.spaceAt j).top.toNat ≤ (f.spaceAt j).stop.toNat)
    (hgroup : f.group b start top ≠ [])
    (hextents : ∀ a ∈ f.group b start top, liveExtent b top a = (words a).toUInt64)
    (hle : f.space ≤ s) (hin : s < f.spaces.size)
    (hroom : (f.spaceAt s).top.toNat + 8 * ((f.group b start top).map words).sum
      ≤ (f.spaceAt s).stop.toNat)
    (hfirst : firstFitting ((f.group b start top).map words).sum.toUInt64
      (f.spaces.toList.drop f.space) = some (f.spaceAt s, f.spaces.toList.drop (s + 1)))
    (hplaces : ∀ p ∈ Berth.row words s (f.spaceAt s).top (f.group b start top),
      table.forwardee b p.object = p.target)
    (hkept : ∀ a, f.table.blockOf start ≠ f.table.blockOf a →
      table.forwardee b a = f.table.forwardee b a) :
    Passed b words [(start, top)] f (f.placed table s ((f.group b start top).map words).sum)
      (Berth.row words s (f.spaceAt s).top (f.group b start top)) := by
  have hstop := (f.spaceAt s).stop.toNat_lt
  have hfits : (f.spaceAt s).top.toNat + 8 * ((f.group b start top).map words).sum < 2 ^ 64 := by omega
  have hend := Address.toNat_nth hfits
  have hmem := fun p (hp : p ∈ Berth.row words s (f.spaceAt s).top (f.group b start top)) =>
    Berth.mem_row hp hfits
  have hspace : ∀ p ∈ Berth.row words s (f.spaceAt s).top (f.group b start top), p.space = s :=
    fun p hp => (hmem p hp).2.1
  have hat := f.spaceAt_placed table ((f.group b start top).map words).sum hin
  refine ⟨hblocks, ?_, ?_, fun p hp => (hmem p hp).1, hplaces, ?_, ?_, hle,
    fun _ => hin, ?_, ?_, ?_, ?_, ?_⟩
  · simp
  · intro groups
    show referencePass b ((top, f.group b start top) :: groups) _ = _
    rw [referencePass_cons groups s hgroup hextents hfirst]
    show _ = Option.map _ (referencePass b groups
      ((f.placed table s ((f.group b start top).map words).sum).spaces.toList.drop s))
    rw [drop_spaces_placed table _ hin]
  · exact fun a ha => hkept a (ha (start, top) List.mem_cons_self)
  · simp [Filling.placed]
  · intro p hp
    rw [hspace p hp]
    exact ⟨hle, le_refl _, hin⟩
  · exact List.pairwise_of_forall_mem_list fun p hp q hq => by rw [hspace p hp, hspace q hq]
  · intro j
    rw [hat]
    split
    · rename_i heq
      exact heq ▸ ⟨rfl, rfl⟩
    · exact ⟨rfl, rfl⟩
  · intro j
    rw [hat]
    split
    · show ((f.spaceAt s).top.nth _).toNat ≤ (f.spaceAt s).stop.toNat
      omega
    · exact hbounds j
  · intro j
    rw [hat]
    split
    · rename_i heq
      subst heq
      rw [List.filter_eq_self.2 fun p hp => by rw [hspace p hp]; exact beq_self_eq_true s]
      -- the whole row is in `s`, and no other space gets anything
      show Tiles _ ((f.spaceAt s).top.nth _).toNat _
      rw [hend]
      exact Berth.tiles_row s hfits
    · rename_i hne
      rw [List.filter_eq_nil_iff.2 fun p hp => by rw [hspace p hp]; simpa using hne]
      exact rfl

/-- The objects that begin in a block end in its source. -/
theorem Block.ends_group (hl : l.Spans) (hs : b.Shows l live words)
    (hd : Bitmap.Spread l live words) {start top : Address} (hb : f.Block l live words start top)
    {a : Address} (ha : a ∈ f.group b start top) :
    live a ∧ start.toNat ≤ a.toNat ∧ a.toNat < start.toNat + f.table.blockSize ∧
      a.toNat + 8 * words a ≤ top.toNat := by
  obtain ⟨h1, h2, h3⟩ := (hb.mem_group hl hs hd a).1 ha
  exact ⟨h1, h2, by omega, hb.whole a h1 h2 (by omega)⟩

theorem Block.apart_group (hl : l.Spans) (hs : b.Shows l live words)
    (hd : Bitmap.Spread l live words) {start top : Address} (hb : f.Block l live words start top) :
    (f.group b start top).Pairwise fun a c => a.toNat + 8 * words a ≤ c.toNat :=
  (hb.pairwise_group hl hs).imp_of_mem fun ha hc hlt =>
    hd.disjoint _ _ (hb.ends_group hl hs hd ha).1 (hb.ends_group hl hs hd hc).1 hlt

theorem Block.toNat_words (hl : l.Spans) (hs : b.Shows l live words)
    (hd : Bitmap.Spread l live words) {start top : Address} (hb : f.Block l live words start top) :
    ((f.group b start top).map words).sum.toUInt64.toNat = ((f.group b start top).map words).sum := by
  have hsum := Berth.packed_le (hb.apart_group hl hs hd) hb.lt.le fun a ha =>
    ⟨(hb.ends_group hl hs hd ha).2.1, (hb.ends_group hl hs hd ha).2.2.2⟩
  have htop := top.toNat_lt
  rw [UInt64.toNat_ofNat']
  omega

/-- A block in which no object begins only has its entry cleared. -/
theorem passed_empty {start top : Address} (hgroup : f.group b start top = [])
    (hbounds : ∀ j, (f.spaceAt j).top.toNat ≤ (f.spaceAt j).stop.toNat) :
    Passed b words [(start, top)] f
      { f with table := f.table.withEntry (f.table.blockOf start) none } [] where
  blocks := f.table.sameBlocks_withEntry _ none
  objects := by simp [hgroup]
  reference groups := by simp [hgroup, referencePass]
  size := by simp
  places := by simp
  kept a ha := forwardee_withEntry_of_ne _ _ (ha (start, top) List.mem_cons_self) _
  count := rfl
  current := le_refl _
  inside := id
  space := by simp
  ascending := List.Pairwise.nil
  extent _ := ⟨rfl, rfl⟩
  bounds := hbounds
  tiled _ := rfl

/-- One block: its objects are laid out as a row at the top of the space that has been found for
them. -/
theorem passed_block (hl : l.Spans) (hs : b.Shows l live words) (hd : Bitmap.Spread l live words)
    {start top : Address} (hb : f.Block l live words start top)
    (hbounds : ∀ j, (f.spaceAt j).top.toNat ≤ (f.spaceAt j).stop.toNat)
    (hrun : addBlock b top f start = .ok f') :
    Passed b words [(start, top)] f f'
      (Berth.row words f'.space (f.spaceAt f'.space).top (f.group b start top)) := by
  by_cases hgroup : f.group b start top = []
  · rw [addBlock_of_empty hl hs hd hb hgroup] at hrun
    obtain rfl := Except.ok.inj hrun
    rw [hgroup]
    exact passed_empty hgroup hbounds
  · obtain ⟨tail, -, heq⟩ := addBlock_eq hl hs hd hb hgroup
    obtain ⟨g, hroom, -⟩ := exists_of_bind_eq_ok (heq ▸ hrun)
    have hextents : ∀ a ∈ f.group b start top, liveExtent b top a = (words a).toUInt64 := by
      intro a ha
      obtain ⟨hlive, -, -, hend⟩ := hb.ends_group hl hs hd ha
      exact liveExtent_eq hl hs hd hlive hb.topEdge hend
    have hn := hb.toNat_words hl hs hd
    obtain ⟨first, rest, hcons⟩ := List.exists_cons_of_ne_nil hgroup
    have hpos : 0 < ((f.group b start top).map words).sum := by
      have := hd.nonempty first (hb.ends_group hl hs hd (by simp [hcons])).1
      rw [hcons, List.map_cons, List.sum_cons]
      omega
    obtain ⟨hg, hle, hin, hfit, hfirst⟩ := makeRoom_eq (by
      intro hzero
      rw [hzero] at hn
      simp at hn
      omega) hroom
    obtain ⟨s, rfl⟩ : ∃ s, g = { f with space := s } := ⟨_, hg⟩
    have hroomWords : (f.spaceAt s).top.toNat + 8 * ((f.group b start top).map words).sum
        ≤ (f.spaceAt s).stop.toNat := by
      have hbound := hbounds s
      rw [UInt64.le_iff_toNat_le, hn, Space.freeWords, Address.toNat_wordsTo hbound] at hfit
      change _ ≤ ((f.spaceAt s).stop.toNat - (f.spaceAt s).top.toNat) / 8 at hfit
      omega
    have hstop := (f.spaceAt s).stop.toNat_lt
    obtain ⟨e, hadd, hplaces⟩ := addBlock_spec hl hs hd hb hgroup hroom rfl (by
      show (f.spaceAt s).top.toNat + _ < _
      omega)
    rw [hadd] at hrun
    obtain rfl := Except.ok.inj hrun
    exact passed_row (f.table.sameBlocks_withEntry _ e) hbounds hgroup hextents hle hin hroomWords
      hfirst hplaces fun a ha => forwardee_withEntry_of_ne _ _ ha _

/-! ### All blocks -/

/-- Blocks that follow each other. -/
structure Blocks (f : Filling) (l : Layout) (live : Address → Prop) (words : Address → Nat)
    (qs : List (Address × Address)) : Prop where
  block : ∀ q ∈ qs, f.Block l live words q.1 q.2
  ascending : qs.Pairwise fun q q' => q.1.toNat + f.table.blockSize ≤ q'.1.toNat

theorem Blocks.next {q : Address × Address} (h : f.Blocks l live words (q :: qs))
    (hsame : f.table.SameBlocks f'.table) : f'.Blocks l live words qs :=
  ⟨fun q' hq' => (h.block q' (List.mem_cons_of_mem _ hq')).congr hsame,
    (List.pairwise_cons.1 h.ascending).2.imp fun hle => by rwa [hsame.blockSize]⟩

/-- No object of a block begins in a later one. -/
theorem Blocks.blockOf_ne {q q' : Address × Address} (h : f.Blocks l live words (q :: qs))
    (hq' : q' ∈ qs) {a : Address} (h1 : q.1.toNat ≤ a.toNat)
    (h2 : a.toNat < q.1.toNat + f.table.blockSize) : f.table.blockOf q'.1 ≠ f.table.blockOf a := by
  have hpos := f.table.blockSize_pos
  have hb := h.block q List.mem_cons_self
  have hb' := h.block q' (List.mem_cons_of_mem _ hq')
  have hle := (List.pairwise_cons.1 h.ascending).1 q' hq'
  have hbase := hb.fromBase
  rw [(hb.sized.blockStart_blockOf hbase hb.aligned h1 h2).1, hb.sized.blockOf_eq hbase,
    hb.sized.blockOf_eq hb'.fromBase]
  have hdiv := Nat.div_le_div_right (c := f.table.blockSize)
    (show q.1.toNat - f.table.base.toNat + f.table.blockSize ≤ q'.1.toNat - f.table.base.toNat by omega)
  rw [Nat.add_div_right _ hpos] at hdiv
  omega

theorem Blocks.object_blockOf_ne (hl : l.Spans) (hs : b.Shows l live words)
    (hd : Bitmap.Spread l live words) {q : Address × Address} (h : f.Blocks l live words (q :: qs))
    (hp : Passed b words [q] f f' bs) : ∀ p ∈ bs, ∀ q' ∈ qs,
      f.table.blockOf q'.1 ≠ f.table.blockOf p.object := by
  intro p hp' q' hq'
  have hin : p.object ∈ f.group b q.1 q.2 := by
    have hobject := List.mem_map_of_mem (f := Berth.object) hp'
    rw [hp.objects] at hobject
    simpa using hobject
  obtain ⟨-, h1, h2, -⟩ := (h.block q List.mem_cons_self).ends_group hl hs hd hin
  exact h.blockOf_ne hq' h1 h2

/-- A filling that does not run out of spaces follows the pass without a table. -/
theorem passed_run (hl : l.Spans) (hs : b.Shows l live words) (hd : Bitmap.Spread l live words)
    (hblocks : f.Blocks l live words qs)
    (hbounds : ∀ j, (f.spaceAt j).top.toNat ≤ (f.spaceAt j).stop.toNat)
    (hrun : qs.foldlM (fun f q => addBlock b q.2 f q.1) f = .ok f') :
    ∃ bs, Passed b words qs f f' bs := by
  induction qs generalizing f with
  | nil =>
    obtain rfl := Except.ok.inj hrun
    exact ⟨[], passed_nil hbounds⟩
  | cons q qs ih =>
    rw [List.foldlM_cons] at hrun
    obtain ⟨f₁, hfirst, hrest⟩ := exists_of_bind_eq_ok hrun
    have hone := passed_block hl hs hd (hblocks.block q List.mem_cons_self) hbounds hfirst
    obtain ⟨bs, hlater⟩ := ih (hblocks.next hone.blocks) hone.bounds hrest
    exact ⟨_, hone.append hlater (hblocks.object_blockOf_ne hl hs hd hone)⟩

/-! ### Spaces that enclose their sources -/

/-- Each source lies in the space with the same number and begins where that begins, and spaces
after the current one are empty. -/
structure Enclosed (sources : List (Address × Address)) (f : Filling) : Prop where
  current : f.space < f.spaces.size
  count : f.spaces.size = sources.length
  encloses : ∀ j s, sources[j]? = some s →
    (f.spaceAt j).bottom = s.1 ∧ s.2.toNat ≤ (f.spaceAt j).stop.toNat
  low : ∀ j, (f.spaceAt j).bottom.toNat ≤ (f.spaceAt j).top.toNat
  later : ∀ j, f.space < j → (f.spaceAt j).top = (f.spaceAt j).bottom

variable {sources : List (Address × Address)}

theorem Enclosed.passed (h : Enclosed sources f) (hp : Passed b words qs f f' bs) :
    Enclosed sources f' := by
  refine ⟨by rw [hp.count]; exact hp.inside h.current, hp.count.trans h.count, ?_, ?_, ?_⟩
  · intro j s hj
    rw [(hp.extent j).1, (hp.extent j).2]
    exact h.encloses j s hj
  · intro j
    rw [(hp.extent j).1]
    exact (h.low j).trans (hp.tiled j).le
  · intro j hj
    have htiled := hp.tiled j
    rw [List.filter_eq_nil_iff.2 fun p hp' => by
      have := (hp.space p hp').2.1
      simp only [beq_iff_eq]
      omega] at htiled
    have htop : (f.spaceAt j).top.toNat = (f'.spaceAt j).top.toNat := htiled
    rw [(hp.extent j).1, ← h.later j (hp.current.trans_lt hj)]
    exact UInt64.toNat_inj.1 htop.symm

/-- A block of a source finds room in the space of that source at the latest. -/
theorem Enclosed.exists_addBlock (hl : l.Spans) (hs : b.Shows l live words)
    (hd : Bitmap.Spread l live words) (h : Enclosed sources f)
    (hle : ∀ s ∈ sources, s.1.toNat ≤ s.2.toNat)
    (hasc : sources.Pairwise fun s s' => s.2.toNat ≤ s'.1.toNat)
    (hbounds : ∀ j, (f.spaceAt j).top.toNat ≤ (f.spaceAt j).stop.toNat)
    {start bottom top : Address} (hb : f.Block l live words start top) {pos : Nat}
    (hpos : sources[pos]? = some (bottom, top)) (hbottom : bottom.toNat ≤ start.toNat)
    (hcursor : ∀ a ∈ f.group b start top, f.target.top.toNat ≤ a.toNat) :
    ∃ f', addBlock b top f start = .ok f' ∧
      (f.spaceAt f'.space).top.toNat ≤ max f.target.top.toNat start.toNat := by
  by_cases hgroup : f.group b start top = []
  · exact ⟨_, addBlock_of_empty hl hs hd hb hgroup, le_max_left ..⟩
  · have hpair : ∀ {j k : Nat} {s s' : Address × Address}, sources[j]? = some s →
        sources[k]? = some s' → j < k → s.2.toNat ≤ s'.1.toNat := by
      intro j k s s' hj hk hjk
      obtain ⟨hj', rfl⟩ := List.getElem?_eq_some_iff.1 hj
      obtain ⟨hk', rfl⟩ := List.getElem?_eq_some_iff.1 hk
      exact List.pairwise_iff_getElem.1 hasc j k hj' hk' hjk
    obtain ⟨hposlt, -⟩ := List.getElem?_eq_some_iff.1 hpos
    obtain ⟨first, rest, hcons⟩ := List.exists_cons_of_ne_nil hgroup
    have hfirst : first ∈ f.group b start top := by simp [hcons]
    obtain ⟨-, h1, -, h2⟩ := hb.ends_group hl hs hd hfirst
    have hat := hcursor first hfirst
    -- the cursor has not left the space of the source
    have hbefore : f.space ≤ pos := by
      by_contra hgt
      have hin : f.space < sources.length := by
        rw [← h.count]
        exact h.current
      have hcur : sources[f.space]? = some sources[f.space] := List.getElem?_eq_getElem hin
      have h3 := hpair hpos hcur (by omega)
      have h4 := (h.encloses _ _ hcur).1
      have h5 := h.low f.space
      have h6 := hd.nonempty first (hb.ends_group hl hs hd hfirst).1
      rw [h4] at h5
      change (f.spaceAt f.space).top.toNat ≤ _ at hat
      change top.toNat ≤ _ at h3
      omega
    have hroom : ((f.group b start top).map words).sum.toUInt64 ≤ (f.spaceAt pos).freeWords := by
      have hsum := Berth.packed_le (m := first.toNat) (hb.apart_group hl hs hd) (by omega) fun a ha =>
        ⟨by
          have hlater := hb.pairwise_group hl hs
          rw [hcons] at ha hlater
          rcases List.mem_cons.1 ha with rfl | ha
          · exact le_refl _
          · exact ((List.pairwise_cons.1 hlater).1 a ha).le, (hb.ends_group hl hs hd ha).2.2.2⟩
      have hin : (f.spaceAt pos).top.toNat ≤ first.toNat := by
        rcases Nat.lt_or_ge f.space pos with hlt | hge
        · rw [h.later pos hlt, (h.encloses pos _ hpos).1]
          exact hbottom.trans h1
        · obtain rfl : f.space = pos := by omega
          exact hat
      have hout := (h.encloses pos _ hpos).2
      change top.toNat ≤ _ at hout
      rw [UInt64.le_iff_toNat_le, hb.toNat_words hl hs hd, Space.freeWords,
        Address.toNat_wordsTo (hbounds pos)]
      omega
    obtain ⟨s, hfound, hs1, hs2⟩ := exists_makeRoom hbefore (by rw [h.count]; exact hposlt) hroom
      (f.table.blockOf start)
    obtain ⟨tail, -, heq⟩ := addBlock_eq hl hs hd hb hgroup
    rw [hfound] at heq
    refine ⟨_, heq, ?_⟩
    show (f.spaceAt s).top.toNat ≤ _
    rcases Nat.lt_or_ge f.space s with hlt | hge
    · have hs' : sources[s]? = some sources[s] := List.getElem?_eq_getElem (by omega)
      rw [h.later s hlt, (h.encloses s _ hs').1]
      refine le_trans ?_ (le_max_right ..)
      rcases Nat.lt_or_ge s pos with hlt' | hge'
      · have h3 := hle _ (List.getElem_mem (show s < sources.length by omega))
        have h4 := hpair hs' hpos hlt'
        change _ ≤ bottom.toNat at h4
        omega
      · obtain rfl : s = pos := by omega
        rw [hpos] at hs'
        rw [← Option.some.inj hs']
        exact hbottom
    · obtain rfl : s = f.space := by omega
      exact le_max_left ..

/-- Spaces that enclose their sources have room for all objects, none of which goes to the right. -/
theorem Enclosed.exists_run (hl : l.Spans) (hs : b.Shows l live words)
    (hd : Bitmap.Spread l live words) (h : Enclosed sources f)
    (hle : ∀ s ∈ sources, s.1.toNat ≤ s.2.toNat)
    (hasc : sources.Pairwise fun s s' => s.2.toNat ≤ s'.1.toNat)
    (hbounds : ∀ j, (f.spaceAt j).top.toNat ≤ (f.spaceAt j).stop.toNat)
    (hblocks : f.Blocks l live words qs)
    (hqs : ∀ q ∈ qs, ∃ (pos : Nat) (bottom : Address), sources[pos]? = some (bottom, q.2) ∧ bottom.toNat ≤ q.1.toNat)
    (hcursor : ∀ q ∈ qs, ∀ a ∈ f.group b q.1 q.2, f.target.top.toNat ≤ a.toNat) :
    ∃ f' bs, qs.foldlM (fun f q => addBlock b q.2 f q.1) f = .ok f' ∧ Passed b words qs f f' bs ∧
      ∀ p ∈ bs, p.target.toNat ≤ p.object.toNat := by
  induction qs generalizing f with
  | nil => exact ⟨f, [], rfl, passed_nil hbounds, by simp⟩
  | cons q qs ih =>
    have hb := hblocks.block q List.mem_cons_self
    obtain ⟨pos, bottom, hpos, hbottom⟩ := hqs q List.mem_cons_self
    have hhere := hcursor q List.mem_cons_self
    obtain ⟨f₁, hfirst, htop⟩ := h.exists_addBlock hl hs hd hle hasc hbounds hb hpos hbottom hhere
    have hone := passed_block hl hs hd hb hbounds hfirst
    have hends := fun a (ha : a ∈ f.group b q.1 q.2) => hb.ends_group hl hs hd ha
    have hfrom : ∀ a ∈ f.group b q.1 q.2, (f.spaceAt f₁.space).top.toNat ≤ a.toNat := fun a ha =>
      htop.trans (max_le (hhere a ha) (hends a ha).2.1)
    have hend : f₁.target.top.toNat
        = (f.spaceAt f₁.space).top.toNat + 8 * ((f.group b q.1 q.2).map words).sum := by
      have htiled := (hone.tiled f₁.space).stop_eq
      rw [List.filter_eq_self.2 fun p hp => by rw [Berth.space_of_mem_row hp, beq_self_eq_true],
        List.map_map] at htiled
      change _ = _ + 8 * ((Berth.row ..).map Berth.words).sum at htiled
      rwa [Berth.map_words_row] at htiled
    have hlt := f₁.target.top.toNat_lt
    have happart := hb.apart_group hl hs hd
    -- the row ends before every later object: it begins before its own ones, and they are packed
    have hfollow : ∀ q' ∈ qs, ∀ c ∈ f₁.group b q'.1 q'.2, f₁.target.top.toNat ≤ c.toNat := by
      intro q' hq' c hc
      rw [group_congr hone.blocks] at hc
      obtain ⟨hlive, h1, -⟩ := (hblocks.block q' (List.mem_cons_of_mem _ hq')).ends_group hl hs hd hc
      have h2 := (List.pairwise_cons.1 hblocks.ascending).1 q' hq'
      have h3 := hcursor q' (List.mem_cons_of_mem _ hq') c hc
      rw [hend]
      exact Berth.packed_le happart (htop.trans (max_le h3 (by omega))) fun a ha =>
        ⟨hfrom a ha, hd.disjoint a c (hends a ha).1 hlive (by
          have := (hends a ha).2.2.1
          omega)⟩
    obtain ⟨f', bs, hrest, hlater, hleft⟩ := ih (h.passed hone) hone.bounds
      (hblocks.next hone.blocks) (fun q' hq' => hqs q' (List.mem_cons_of_mem _ hq')) hfollow
    refine ⟨f', _, bind_eq_ok hfirst hrest,
      hone.append hlater (hblocks.object_blockOf_ne hl hs hd hone),
      List.forall_mem_append.2 ⟨fun p hp => ?_, hleft⟩⟩
    exact Berth.row_left hp (by omega) happart hfrom

end Filling

end BlockOffsets

end MarkCompact
