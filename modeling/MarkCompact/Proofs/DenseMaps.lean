/-
MarkCompact/Proofs/DenseMaps.lean

The table of one region as a map.

Addresses are entered one after the other, in any order and as often as one likes.  An address that
has an entry gets another target and no second entry (`RegionTable.Holds.insert_known`), and the
table takes as many addresses as have been announced and not one more
(`RegionTable.Holds.insert_overflow`).  It has a vacant slot all the same, so that it is never full.

A search for an address that has an entry may not use the short cut: what lies past the last
address in order has not been entered, and so the search starts at its home.

Homes ascend with the addresses as long as the scaled place of an address does not wrap.  In a
region so large that it does, an address can get lost (`RegionTable.lookup_wrapped`).

Main result: `RegionTable.insertAll_map`.
-/
import MarkCompact.Proofs.DenseTables

namespace MarkCompact.RegionTable

variable {t : RegionTable} {es ps : List (Address × Address)} {a v : Address}

/-- Enters addresses with their targets, one after the other. -/
def insertAll (t : RegionTable) (ps : List (Address × Address)) : Except Fault RegionTable :=
  ps.foldlM (fun t p => t.insert p.1 p.2) t

theorem insertAll_snoc (t : RegionTable) (ps : List (Address × Address)) (a v : Address) :
    t.insertAll (ps ++ [(a, v)]) = t.insertAll ps >>= fun t' => t'.insert a v := by
  unfold insertAll
  rw [List.foldlM_append]
  simp only [List.foldlM_cons, List.foldlM_nil, bind_pure]

/-! ### The latest targets -/

/-- The number of addresses among some entries, each counted once. -/
def addressCount (ps : List (Address × Address)) : Nat := (ps.map Prod.fst).dedup.length

/-- The entries with another target for an address. -/
def retargeted (es : List (Address × Address)) (a v : Address) : List (Address × Address) :=
  es.map fun e => if e.1 = a then (a, v) else e

theorem map_fst_retargeted (es : List (Address × Address)) (a v : Address) :
    (retargeted es a v).map Prod.fst = es.map Prod.fst := by
  unfold retargeted
  rw [List.map_map]
  refine List.map_congr_left fun e _ => ?_
  show (if e.1 = a then (a, v) else e).1 = e.1
  split
  · rename_i heq
    exact heq.symm
  · rfl

theorem mem_retargeted {e : Address × Address} (ha : a ∈ es.map Prod.fst) :
    e ∈ retargeted es a v ↔ e = (a, v) ∨ e ∈ es ∧ e.1 ≠ a := by
  unfold retargeted
  rw [List.mem_map]
  constructor
  · rintro ⟨e', he', rfl⟩
    by_cases heq : e'.1 = a
    · exact .inl (if_pos heq)
    · rw [if_neg heq]
      exact .inr ⟨he', heq⟩
  · rintro (rfl | ⟨he, hne⟩)
    · obtain ⟨e', he', heq⟩ := List.mem_map.1 ha
      exact ⟨e', he', if_pos heq⟩
    · exact ⟨e, he, if_neg hne⟩

/-- Each address of `ps` has one entry in `es`, with the last of its targets. -/
structure Latest (ps es : List (Address × Address)) : Prop where
  nodup : (es.map Prod.fst).Nodup
  mem : ∀ a v, (a, v) ∈ es ↔ ps.reverse.lookup a = some v

theorem latest_nil : Latest [] [] := ⟨List.nodup_nil, by simp⟩

theorem lookup_reverse_snoc (ps : List (Address × Address)) (a v c : Address) :
    (ps ++ [(a, v)]).reverse.lookup c = if c = a then some v else ps.reverse.lookup c := by
  rw [List.reverse_append, List.reverse_singleton, List.singleton_append, List.lookup_cons]
  by_cases hca : c = a
  · rw [if_pos hca, beq_iff_eq.2 hca]
  · rw [if_neg hca, beq_eq_false_iff_ne.2 hca]

namespace Latest

theorem known_iff (h : Latest ps es) : a ∈ es.map Prod.fst ↔ a ∈ ps.map Prod.fst := by
  have hkeys : a ∈ ps.map Prod.fst ↔ (ps.reverse.lookup a).isSome = true := by
    rw [List.lookup_isSome_iff, List.mem_map]
    exact exists_congr fun p => by rw [List.mem_reverse, beq_iff_eq, eq_comm]
  rw [hkeys, Option.isSome_iff_exists, List.mem_map]
  constructor
  · rintro ⟨⟨_, v⟩, he, rfl⟩
    exact ⟨v, (h.mem _ v).1 he⟩
  · rintro ⟨v, hv⟩
    exact ⟨(a, v), (h.mem a v).2 hv, rfl⟩

theorem length_eq (h : Latest ps es) : es.length = addressCount ps := by
  have hperm : (es.map Prod.fst).Perm (ps.map Prod.fst).dedup :=
    (List.perm_ext_iff_of_nodup h.nodup (List.nodup_dedup _)).2 fun a =>
      h.known_iff.trans List.mem_dedup.symm
  exact (List.length_map Prod.fst).symm.trans hperm.length_eq

theorem add (h : Latest ps es) (hnew : a ∉ es.map Prod.fst) (v : Address) :
    Latest (ps ++ [(a, v)]) (es ++ [(a, v)]) := by
  refine ⟨?_, fun c w => ?_⟩
  · rw [List.map_append]
    exact h.nodup.append (List.nodup_singleton _) (by simpa using hnew)
  · rw [lookup_reverse_snoc, List.mem_append, List.mem_singleton, h.mem, Prod.mk.injEq]
    by_cases hca : c = a
    · subst hca
      rw [if_pos rfl, ← h.mem, Option.some.injEq]
      have hout : (c, w) ∉ es := fun hmem => hnew (List.mem_map_of_mem (f := Prod.fst) hmem)
      simp [hout, eq_comm]
    · simp [hca]

theorem retarget (h : Latest ps es) (hknown : a ∈ es.map Prod.fst) (v : Address) :
    Latest (ps ++ [(a, v)]) (retargeted es a v) := by
  refine ⟨?_, fun c w => ?_⟩
  · rw [map_fst_retargeted]
    exact h.nodup
  · rw [lookup_reverse_snoc, mem_retargeted hknown, Prod.mk.injEq, h.mem]
    by_cases hca : c = a
    · simp [hca, eq_comm]
    · simp [hca]

end Latest

/-! ### Entering an address again -/

namespace Holds

/-- The search for an address with an entry does not use the short cut, for the address does not
lie past the last one in order. -/
theorem insertionStart_of_mem (h : t.Holds es) (hmem : (a, v) ∈ es) :
    t.insertionStart a = t.home a := by
  have hle := h.greatest _ hmem
  unfold insertionStart
  rw [if_neg]
  rw [Bool.and_eq_true, Bool.and_eq_true, decide_eq_true_eq, decide_eq_true_eq,
    UInt64.lt_iff_toNat_lt]
  rintro ⟨⟨-, hlt⟩, -⟩
  exact absurd hlt (Nat.not_lt.2 hle)

/-- The search for an address with an entry ends at its slot. -/
theorem probe_of_mem (h : t.Holds es) (hmem : (a, v) ∈ es) :
    ∃ index, t.probe a t.capacity (t.insertionStart a) = some index ∧ t.slot index = ⟨a, v⟩ ∧
      index.toNat < t.capacity := by
  obtain ⟨k, hk, hslot, hpath⟩ := h.found _ hmem
  obtain ⟨hin, hne⟩ := h.inside _ hmem
  obtain ⟨index, hprobe, hindex⟩ := probe_eq h.sized (a := a) hk (h.home_add_lt hin)
    (.inl (by rw [hslot])) fun j hj =>
      ⟨fun heq => mod_ne hj hk (h.slot_unique (by rw [heq, hslot]) (hpath j hj)), hpath j hj⟩
  refine ⟨index, by rw [h.insertionStart_of_mem hmem, hprobe],
    by rw [slot_eq_around hindex, hslot], ?_⟩
  rw [hindex]
  exact Nat.mod_lt _ (capacity_pos h.sized)

/-- An address is in its own slot only. -/
theorem source_eq_iff (h : t.Holds es) (hmem : (a, v) ∈ es) {index : UInt64}
    (hindex : index.toNat < t.capacity) (hslot : t.slot index = ⟨a, v⟩) (n : Nat) :
    (t.around n).source = a ↔ n % t.capacity = index.toNat := by
  constructor
  · intro heq
    have hhere : t.around index.toNat = ⟨a, v⟩ := by
      rw [← slot_eq_around (Nat.mod_eq_of_lt hindex).symm, hslot]
    have hsame := h.slot_unique (i := n) (j := index.toNat) (by rw [heq, hhere])
      (by rw [heq]; exact (h.inside _ hmem).2)
    rwa [Nat.mod_eq_of_lt hindex] at hsame
  · intro hn
    rw [← slot_eq_around hn.symm, hslot]

/-- The slots once an address has got another target. -/
theorem around_retarget (h : t.Holds es) (hmem : (a, v) ∈ es) {index : UInt64}
    (hindex : index.toNat < t.capacity) (hslot : t.slot index = ⟨a, v⟩) (w : Address) (n : Nat) :
    (t.setSlot index ⟨a, w⟩).around n
      = if (t.around n).source = a then ⟨a, w⟩ else t.around n := by
  rw [around_setSlot t hindex]
  exact if_congr (h.source_eq_iff hmem hindex hslot n).symm rfl rfl

/-- Another target in the slot of an address. -/
theorem retarget (h : t.Holds es) (hmem : (a, v) ∈ es) {index : UInt64}
    (hindex : index.toNat < t.capacity) (hslot : t.slot index = ⟨a, v⟩) (w : Address) :
    (t.setSlot index ⟨a, w⟩).Holds (retargeted es a w) := by
  have hknown : a ∈ es.map Prod.fst := List.mem_map_of_mem (f := Prod.fst) hmem
  have hcap := capacity_setSlot t index ⟨a, w⟩
  have hhome := home_setSlot t index ⟨a, w⟩
  have haround := h.around_retarget hmem hindex hslot w
  -- the same addresses are in the same slots
  have hsource : ∀ n, ((t.setSlot index ⟨a, w⟩).around n).source = (t.around n).source := by
    intro n
    rw [haround]
    split
    · rename_i hn
      exact hn.symm
    · rfl
  refine {
    sized := sized_setSlot h.sized .., count := ?count, room := ?room, inside := ?inside, only := ?only
    distinct := ?distinct, found := ?found, greatest := ?greatest, last := ?last }
  case count =>
    rw [retargeted, List.length_map]
    exact h.count
  case room =>
    rw [retargeted, List.length_map, hcap]
    exact h.room
  case inside =>
    intro e he
    rcases (mem_retargeted hknown).1 he with rfl | ⟨he, -⟩
    · exact h.inside (a, v) hmem
    · exact h.inside e he
  case only =>
    intro n
    rw [haround]
    by_cases hn : (t.around n).source = a
    · rw [if_pos hn]
      exact .inr ((mem_retargeted hknown).2 (.inl rfl))
    · rw [if_neg hn]
      exact (h.only n).imp_right fun hin => (mem_retargeted hknown).2 (.inr ⟨hin, hn⟩)
  case distinct =>
    intro i hi j hj
    rw [hsource, hsource]
    rw [hcap] at hi hj
    exact h.distinct i hi j hj
  case found =>
    intro e he
    rw [hcap]
    rcases (mem_retargeted hknown).1 he with rfl | ⟨he, hne⟩
    · obtain ⟨k, hk, hthere, hpath⟩ := h.found _ hmem
      refine ⟨k, hk, ?_, fun j hj => by rw [hhome, hsource]; exact hpath j hj⟩
      rw [hhome, haround, if_pos (by rw [hthere])]
    · obtain ⟨k, hk, hthere, hpath⟩ := h.found e he
      refine ⟨k, hk, ?_, fun j hj => by rw [hhome, hsource]; exact hpath j hj⟩
      rw [hhome, haround, if_neg (by rw [hthere]; exact hne), hthere]
  case greatest =>
    intro e he
    rcases (mem_retargeted hknown).1 he with rfl | ⟨he, -⟩
    · exact h.greatest (a, v) hmem
    · exact h.greatest e he
  case last =>
    rcases h.last with hz | ⟨hin, k, hk, hlast, hpath⟩
    · exact .inl hz
    · refine .inr ⟨hin, k, by rwa [hcap], ?_, fun j hj => ?_⟩
      · rw [hcap, hhome]
        exact hlast
      · rw [hhome, hsource]
        exact hpath j hj

/-- An address with an entry gets a new target. -/
theorem insert_known (h : t.Holds es) (hknown : a ∈ es.map Prod.fst) (w : Address) :
    ∃ t', t.insert a w = .ok t' ∧ t'.Holds (retargeted es a w) ∧ t'.bottom = t.bottom ∧
      t'.regionWords = t.regionWords ∧ t'.expected = t.expected := by
  obtain ⟨⟨a, v⟩, hmem, rfl⟩ := List.mem_map.1 hknown
  obtain ⟨index, hprobe, hslot, hindex⟩ := h.probe_of_mem hmem
  refine ⟨t.setSlot index ⟨a, w⟩, ?_, h.retarget hmem hindex hslot w, rfl, rfl, rfl⟩
  unfold RegionTable.insert insertFrom
  rw [hprobe]
  dsimp only
  rw [hslot, if_pos rfl]

/-- Another address after as many as have been announced. -/
theorem insert_overflow (h : t.Holds es) (hin : t.Inside a) (hne : a ≠ 0)
    (hnew : a ∉ es.map Prod.fst) (hfull : es.length = t.expected) (v : Address) :
    t.insert a v = .error (.tableOverflow t.bottom t.expected) := by
  obtain ⟨index, k, hprobe, hv⟩ := h.probe_of_notMem hin hnew
  unfold RegionTable.insert insertFrom
  rw [hprobe]
  dsimp only
  rw [slot_eq_around hv.slot, if_neg (by rw [hv.vacant]; exact fun heq => hne heq.symm),
    if_neg (by rw [h.count, hfull]; exact Nat.lt_irrefl _)]

/-! ### Any number of addresses -/

/-- As long as no more addresses come than have been announced the table holds them all, each with
the last of its targets; the first one too many is the end. -/
theorem insertAll (h : t.Holds []) (hps : ∀ p ∈ ps, t.Inside p.1 ∧ p.1 ≠ 0) :
    (addressCount ps ≤ t.expected → ∃ t' es, t.insertAll ps = .ok t' ∧ t'.Holds es ∧ Latest ps es ∧
      t'.bottom = t.bottom ∧ t'.regionWords = t.regionWords ∧ t'.expected = t.expected) ∧
    (t.expected < addressCount ps →
      t.insertAll ps = .error (.tableOverflow t.bottom t.expected)) := by
  induction ps using List.reverseRecOn with
  | nil =>
    exact ⟨fun _ => ⟨t, [], rfl, h, latest_nil, rfl, rfl, rfl⟩, fun hlt => absurd hlt (Nat.not_lt_zero _)⟩
  | append_singleton ps p ih =>
    obtain ⟨a, v⟩ := p
    obtain ⟨hin, hne⟩ := hps (a, v) (by simp)
    obtain ⟨hfew, hmany⟩ := ih fun p hp => hps p (List.mem_append_left _ hp)
    rcases Nat.lt_or_ge t.expected (addressCount ps) with hlt | hle
    · -- there have been too many before
      have hmore : addressCount ps ≤ addressCount (ps ++ [(a, v)]) := by
        refine ((List.nodup_dedup _).subperm fun c hc => ?_).length_le
        rw [List.map_append, List.mem_dedup, List.mem_append]
        exact .inl (List.mem_dedup.1 hc)
      refine ⟨fun hcon => by omega, fun _ => ?_⟩
      rw [insertAll_snoc, hmany hlt]
      rfl
    obtain ⟨t₁, es, hrun, hholds, hlatest, hb, hw, he⟩ := hfew hle
    rw [insertAll_snoc, hrun]
    show (_ → ∃ t' es', t₁.insert a v = _ ∧ _) ∧ (_ → t₁.insert a v = _)
    have hlen := hlatest.length_eq
    have hin₁ : t₁.Inside a := by
      unfold Inside
      rw [hb, hw]
      exact hin
    by_cases hknown : a ∈ es.map Prod.fst
    · obtain ⟨t₂, hrun₂, hholds₂, hb₂, hw₂, he₂⟩ := hholds.insert_known hknown v
      have hlatest₂ := hlatest.retarget hknown v
      have hlen₂ := hlatest₂.length_eq
      rw [retargeted, List.length_map] at hlen₂
      exact ⟨fun _ => ⟨t₂, _, hrun₂, hholds₂, hlatest₂, hb₂.trans hb, hw₂.trans hw, he₂.trans he⟩,
        fun hlt => by omega⟩
    · have hlatest₂ := hlatest.add hknown v
      have hlen₂ := hlatest₂.length_eq
      rw [List.length_append, List.length_singleton] at hlen₂
      refine ⟨fun hroom => ?_, fun hlt => ?_⟩
      · obtain ⟨t₂, hrun₂, hholds₂, hb₂, hw₂, he₂⟩ :=
          hholds.insert hin₁ hne hknown (by rw [he]; omega) v
        exact ⟨t₂, _, hrun₂, hholds₂, hlatest₂, hb₂.trans hb, hw₂.trans hw, he₂.trans he⟩
      · rw [← hb, ← he]
        exact hholds.insert_overflow hin₁ hne hknown (by rw [he]; omega) v

end Holds

end MarkCompact.RegionTable
