/-
MarkCompact/Proofs/Cells.lean

What the operations on memory leave in each word.

The words of an object at `a` are `a.nth 0`, `a.nth 1`, ….  A run of writes is
described by two facts: what stands in the run afterwards, and that nothing
outside it has changed.  A copy is described the same way; since it reads
before it writes, source and destination may overlap.

`Memory.Covers` says that a run lies in memory, `Memory.SameSpan` that two
memories have the same extent.

Main results: `Memory.copyWords_spec`, `Memory.fillWords_spec` and
`Memory.load_release_eq` (giving pages back clears the words in them, and no other).
-/
import MarkCompact.Proofs.Words
import MarkCompact.Heap.Memory

namespace MarkCompact

/-- The address of the word number `i` from `a` on. -/
def Address.nth (a : Address) (i : Nat) : Address := a.offset i.toUInt64

namespace Address

theorem offset_eq_nth (a : Address) (n : WordCount) : a.offset n = a.nth n.toNat := by
  unfold nth
  congr 1
  apply UInt64.toNat_inj.1
  have := n.toNat_lt
  rw [UInt64.toNat_ofNat']
  omega

theorem toNat_nth {a : Address} {i : Nat} (h : a.toNat + 8 * i < 2 ^ 64) :
    (a.nth i).toNat = a.toNat + 8 * i :=
  toNat_offset_ofNat h

@[simp] theorem nth_zero (a : Address) : a.nth 0 = a :=
  offset_zero a

theorem add_mul_eq_nth {a : Address} {i : Nat} (h : a.toNat + 8 * i < 2 ^ 64) :
    a + i.toUInt64 * wordBytes = a.nth i := by
  apply UInt64.toNat_inj.1
  rw [toNat_add_mul h, toNat_nth h]

theorem nth_nth {a : Address} {i j : Nat} (h : a.toNat + 8 * (i + j) < 2 ^ 64) :
    (a.nth i).nth j = a.nth (i + j) := by
  apply UInt64.toNat_inj.1
  have h1 : (a.nth i).toNat = a.toNat + 8 * i := toNat_nth (by omega)
  rw [toNat_nth (by omega), toNat_nth h, h1]
  omega

/-- Every word from `a` on is one of its words. -/
theorem exists_nth {a b : Address} (h : a.toNat ≤ b.toNat) (aligned : (b.toNat - a.toNat) % 8 = 0) :
    b = a.nth ((b.toNat - a.toNat) / 8) := by
  apply UInt64.toNat_inj.1
  have := b.toNat_lt
  rw [toNat_nth (by omega)]
  omega

theorem nth_injective {a : Address} {i j : Nat} (hi : a.toNat + 8 * i < 2 ^ 64)
    (hj : a.toNat + 8 * j < 2 ^ 64) (h : a.nth i = a.nth j) : i = j := by
  have h1 := toNat_nth hi
  have h2 := toNat_nth hj
  rw [h] at h1
  omega

/-- A word of a run of words is none of those outside of it. -/
theorem nth_ne_of_outside {a b : Address} {i n : Nat} (hi : i < n) (hn : a.toNat + 8 * n < 2 ^ 64)
    (hb : b.toNat < a.toNat ∨ a.toNat + 8 * n ≤ b.toNat) : a.nth i ≠ b := by
  rintro rfl
  rw [toNat_nth (by omega)] at hb
  omega

end Address

namespace Memory

/-! ### Extent -/

/-- Whether a run of words lies in the memory. -/
structure Covers (m : Memory) (a : Address) (n : Nat) : Prop where
  bottom : m.base.toNat ≤ a.toNat
  top : a.toNat + 8 * n ≤ m.base.toNat + m.size.toNat
  /-- The address after the memory is an address. -/
  fits : m.base.toNat + m.size.toNat < 2 ^ 64

/-- Whether two memories have the same extent. -/
structure SameSpan (m m' : Memory) : Prop where
  base : m'.base = m.base
  size : m'.size = m.size

theorem SameSpan.refl (m : Memory) : SameSpan m m := ⟨rfl, rfl⟩

theorem SameSpan.trans {m m' m'' : Memory} (h : SameSpan m m') (h' : SameSpan m' m'') :
    SameSpan m m'' :=
  ⟨h'.base.trans h.base, h'.size.trans h.size⟩

theorem SameSpan.covers {m m' : Memory} (h : SameSpan m m') {a : Address} {n : Nat}
    (hc : m.Covers a n) : m'.Covers a n := by
  obtain ⟨h1, h2, h3⟩ := hc
  refine ⟨?_, ?_, ?_⟩ <;> rw [h.base] <;> try rw [h.size]
  · exact h1
  · exact h2
  · exact h3

theorem sameSpan_store (m : Memory) (a : Address) (w : Word) : SameSpan m (m.store a w) :=
  ⟨rfl, rfl⟩

theorem sameSpan_writeAll (m : Memory) (a : Address) (ws : List Word) :
    SameSpan m (m.writeAll a ws) := by
  induction ws generalizing m a with
  | nil => exact SameSpan.refl m
  | cons w ws ih => exact (sameSpan_store m a w).trans (ih _ _)

theorem toNat_stop_of_fits {m : Memory} (h : m.base.toNat + m.size.toNat < 2 ^ 64) :
    m.stop.toNat = m.base.toNat + m.size.toNat := by
  unfold stop
  rw [UInt64.toNat_add]
  omega

theorem checkRange_of_covers {m : Memory} {a : Address} {n : WordCount}
    (h : m.Covers a n.toNat) : m.checkRange a n = .ok () := by
  obtain ⟨h1, h2, h3⟩ := h
  have h4 : (a + n * wordBytes).toNat = a.toNat + 8 * n.toNat := by
    rw [UInt64.toNat_add, UInt64.toNat_mul]
    show (a.toNat + n.toNat * 8 % 2 ^ 64) % 2 ^ 64 = _
    omega
  have h5 : m.holds a n = true := by
    unfold holds
    rw [Bool.and_eq_true, decide_eq_true_eq, decide_eq_true_eq, UInt64.le_iff_toNat_le,
      UInt64.le_iff_toNat_le, h4, toNat_stop_of_fits h3]
    exact ⟨h1, h2⟩
  unfold checkRange
  rw [h5]
  rfl

/-! ### Runs of writes -/

theorem load_store_of_ne (m : Memory) {a b : Address} (h : a ≠ b) (w : Word) :
    (m.store a w).load b = m.load b := by
  rw [load_store, if_neg h]

/-- A word outside a run of writes stays. -/
theorem load_writeAll_of_outside (ws : List Word) (m : Memory) {start b : Address}
    (fits : start.toNat + 8 * ws.length < 2 ^ 64)
    (h : b.toNat < start.toNat ∨ start.toNat + 8 * ws.length ≤ b.toNat) :
    (m.writeAll start ws).load b = m.load b := by
  apply load_writeAll_of_notMem
  intro i hi heq
  rw [← heq, Address.toNat_add_mul (by omega)] at h
  omega

/-- A run of writes leaves its words one after the other. -/
theorem load_writeAll_nth (ws : List Word) (m : Memory) {start : Address}
    (fits : start.toNat + 8 * ws.length < 2 ^ 64) {i : Nat} (hi : i < ws.length) :
    (m.writeAll start ws).load (start.nth i) = ws[i] := by
  induction ws generalizing m start i with
  | nil => simp at hi
  | cons w ws ih =>
    rw [List.length_cons] at fits hi
    have hnext : start + wordBytes = start.nth 1 := by
      apply UInt64.toNat_inj.1
      rw [Address.toNat_add_wordBytes (by omega), Address.toNat_nth (by omega)]
    have hval : (start + wordBytes).toNat = start.toNat + 8 := Address.toNat_add_wordBytes (by omega)
    rw [writeAll]
    cases i with
    | zero =>
      rw [Address.nth_zero, load_writeAll_of_outside ws _ (by omega) (by omega), load_store_self]
      rfl
    | succ i =>
      have hshift : start.nth (i + 1) = (start + wordBytes).nth i := by
        rw [hnext, Address.nth_nth (by omega), Nat.add_comm]
      rw [hshift, ih _ (by omega) (by omega)]
      rfl

/-! ### Copies -/

theorem length_readWords (m : Memory) (a : Address) (n : Nat) : (m.readWords a n).length = n := by
  simp [readWords]

theorem getElem_readWords (m : Memory) (a : Address) {n i : Nat}
    (h : i < (m.readWords a n).length) : (m.readWords a n)[i] = m.load (a.nth i) := by
  simp [readWords, Address.span, Address.nth]

/-- What a copy of `n` words from `a` to `b` leaves. -/
structure Copied (m m' : Memory) (a b : Address) (n : Nat) : Prop where
  span : SameSpan m m'
  /-- The destination holds what the source held before. -/
  inside : ∀ i < n, m'.load (b.nth i) = m.load (a.nth i)
  outside : ∀ c : Address, c.toNat < b.toNat ∨ b.toNat + 8 * n ≤ c.toNat → m'.load c = m.load c

theorem copyWords_spec {m : Memory} {a b : Address} {n : WordCount} (ha : m.Covers a n.toNat)
    (hb : m.Covers b n.toNat) : ∃ m', m.copyWords a b n = .ok m' ∧ Copied m m' a b n.toNat := by
  unfold copyWords
  by_cases htrivial : n = 0 ∨ a = b
  · refine ⟨m, ?_, SameSpan.refl m, ?_, fun _ _ => rfl⟩
    · have hc : (decide (n = 0) || decide (a = b)) = true := by simpa using htrivial
      rw [if_pos hc]
      rfl
    · intro i hi
      rcases htrivial with h0 | hab
      · subst h0
        exact absurd hi (Nat.not_lt_zero i)
      · rw [hab]
  · refine ⟨_, ?_, sameSpan_writeAll m b (m.readWords a n.toNat), ?_, ?_⟩
    · have hc : ¬ (decide (n = 0) || decide (a = b)) = true := by simpa using htrivial
      rw [if_neg hc, checkRange_of_covers ha, checkRange_of_covers hb]
      rfl
    · intro i hi
      have hlen := length_readWords m a n.toNat
      have hfits := hb.fits
      have htop := hb.top
      rw [load_writeAll_nth _ _ (by omega) (by omega), getElem_readWords]
    · intro c hc
      have hlen := length_readWords m a n.toNat
      have hfits := hb.fits
      have htop := hb.top
      exact load_writeAll_of_outside _ _ (by omega) (by omega)

/-- Filling a run leaves one value in it and nothing else. -/
theorem fillWords_spec {m : Memory} {a : Address} {n : WordCount} (h : m.Covers a n.toNat)
    (value : Word) :
    ∃ m', m.fillWords a n value = .ok m' ∧ SameSpan m m' ∧
      (∀ i < n.toNat, m'.load (a.nth i) = value) ∧
      ∀ c : Address, c.toNat < a.toNat ∨ a.toNat + 8 * n.toNat ≤ c.toNat → m'.load c = m.load c := by
  have hlen : (List.replicate n.toNat value).length = n.toNat := List.length_replicate
  have hfits := h.fits
  have htop := h.top
  refine ⟨m.writeAll a (List.replicate n.toNat value), ?_, sameSpan_writeAll .., ?_, ?_⟩
  · unfold fillWords
    rw [checkRange_of_covers h]
    rfl
  · intro i hi
    rw [load_writeAll_nth _ _ (by omega) (by omega), List.getElem_replicate]
  · intro c hc
    exact load_writeAll_of_outside _ _ (by omega) (by omega)

/-! ### Giving pages back -/

theorem sameSpan_release (m : Memory) (a : Address) (bytes : UInt64) :
    SameSpan m (m.release a bytes).2 := by
  unfold release
  dsimp only
  split
  · exact SameSpan.refl m
  · exact ⟨rfl, rfl⟩

/-- Giving pages back clears the words in them, and no other. -/
theorem load_release_eq (m : Memory) (a c : Address) (bytes : UInt64) :
    (m.release a bytes).2.load c
      = if a.alignUp pageBytes ≤ c ∧ c < (a + bytes).alignDown pageBytes then 0
        else m.load c := by
  unfold release
  dsimp only
  split
  · rename_i hnone
    rw [if_neg fun hin => ?_]
    exact UInt64.lt_irrefl _ (UInt64.lt_of_lt_of_le (UInt64.lt_of_le_of_lt hin.1 hin.2) hnone)
  · unfold load
    simp only [Std.HashMap.getD_eq_getD_getElem?, Std.HashMap.getElem?_filter']
    by_cases hin : a.alignUp pageBytes ≤ c ∧ c < (a + bytes).alignDown pageBytes
    · rw [if_pos hin]
      cases m.cells[c]? <;> simp [hin]
    · rw [if_neg hin]
      cases m.cells[c]? with
      | none => rfl
      | some w =>
        have hout : (!(decide (a.alignUp pageBytes ≤ c)
            && decide (c < (a + bytes).alignDown pageBytes))) = true := by
          rw [Bool.not_eq_true', Bool.and_eq_false_iff, decide_eq_false_iff_not,
            decide_eq_false_iff_not]
          exact not_and_or.1 hin
        rw [Option.filter_some, hout]
        rfl

end Memory

end MarkCompact
