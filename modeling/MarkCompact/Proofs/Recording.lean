/-
MarkCompact/Proofs/Recording.lean

New addresses are found again, whatever the encoding.

A collection gives new addresses one by one.  `Forwarding.Records f n m₀ m moves` is what
it relies on in between: with the encoding `f` and the memory `m`, exactly the new
addresses `moves` have been given, and of the memory `m₀` before only the marks of their
objects have changed.  What has been announced (`Announced`) is enough: room for all
objects in the hash table, and for those of each region in its dense table.

Main results: `Records.forwardTo` (one more new address), `Records.forwardee_of_mem`,
`Records.forwardee_of_notMem`, and `Records.kept` (what a compact mark still says).
-/
import MarkCompact.Proofs.HashTables
import MarkCompact.Proofs.SlidingBases
import MarkCompact.Forwarding

namespace MarkCompact

namespace Forwarding

/-- What has been announced to an encoding. -/
structure Announced where
  layout : Layout
  compact : Bool
  /-- The number of live objects. -/
  total : Nat
  /-- The number of moving objects of each region for which it is known. -/
  expected : Nat → Option Nat

/-- How an encoding has recorded the given new addresses. -/
def Encodes (f : Forwarding) (n : Announced) (m₀ m : Memory) (moves : List (Address × Address)) :
    Prop :=
  match f with
  | .header => n.compact = false ∧ ∀ e ∈ moves, m.loadMark e.1 = .forwardedTo e.2
  | .sliding s => s.Holds n.layout moves ∧ ∀ e ∈ moves, ∃ slot < basesPerRegion,
      s.base (n.layout.indexOf e.1) slot = some (n.layout.baseOf e.2) ∧
      m.loadMark e.1 = mergedMark (m₀.loadMark e.1) ((n.layout.baseOf e.2).wordsTo e.2) slot
  | .hashed s => s.table.Holds moves ∧ n.total ≤ s.table.nodes.size ∧
      (s.growRequested = true → s.table.crowded = true) ∧
      ∀ e ∈ moves, m.loadMark e.1 = (m₀.loadMark e.1).withLock 0b11
  | .dense d => d.Holds n.layout n.expected moves ∧ m = m₀

/-- Exactly the given new addresses have been recorded, by changing marks and nothing else. -/
structure Records (f : Forwarding) (n : Announced) (m₀ m : Memory)
    (moves : List (Address × Address)) : Prop where
  span : m₀.SameSpan m
  elsewhere : ∀ x, x ∉ moves.map Prod.fst → m.load x = m₀.load x
  nodup : (moves.map Prod.fst).Nodup
  words : ∀ e ∈ moves, n.layout.IsWord e.1 ∧ n.layout.IsWord e.2
  clean : ∀ e ∈ moves, (m₀.loadMark e.1).Clean
  encodes : f.Encodes n m₀ m moves

/-- An encoding between two collections. -/
def Ready (f : Forwarding) (l : Layout) (compact : Bool) : Prop :=
  match f with
  | .header => compact = false
  | .sliding s => s.layout = l ∧ s.bases.size = l.numRegions * basesPerRegion
  | .hashed s => (0 < s.table.buckets.size ∧ s.table.buckets.size ≤ 2 ^ 34) ∧
      s.table.nodes.size < 2 ^ 32
  | .dense d => d.layout = l ∧ ∀ k < 2 ^ 24, RegionTable.capacityFor k d.loadFactor ≤ 2 ^ 28

variable {f : Forwarding} {n : Announced} {m₀ m : Memory} {moves : List (Address × Address)}

/-! ### Before and after -/

/-- The encoding that a valid configuration asks for. -/
theorem ready_select {c : Config} (hc : c.Valid) {l : Layout}
    (hshift : l.regionShift = c.regionShift) :
    ∃ f, select c l = .ok f ∧ f.Ready l c.compactHeaders := by
  unfold select
  cases hmode : c.encoding with
  | header =>
    refine ⟨_, rfl, ?_⟩
    show c.compactHeaders = false
    cases hcompact : c.compactHeaders with
    | false => rfl
    | true =>
      -- without a choice compact headers get offsets
      unfold Config.encoding at hmode
      rw [hcompact] at hmode
      cases hf : c.forwarding with
      | none =>
        rw [hf] at hmode
        cases hmode
      | some e =>
        rw [hf] at hmode
        obtain rfl : e = .header := hmode
        exact absurd hf (hc.pointerFits hcompact)
  | sliding =>
    refine ⟨.sliding ⟨l, Array.replicate (l.numRegions * basesPerRegion) none⟩, ?_, rfl,
      Array.size_replicate⟩
    unfold Sliding.new
    rw [if_pos (by rw [hshift]; exact hc.regionShift.2)]
    rfl
  | hashed =>
    refine ⟨_, rfl, ?_, ?_⟩
    · show 0 < (Array.replicate _ _).size ∧ (Array.replicate _ _).size ≤ _
      rw [Array.size_replicate]
      decide
    · show (Array.replicate _ _).size < _
      rw [Array.size_replicate]
      decide
  | dense =>
    exact ⟨_, rfl, rfl, fun k hk => RegionTable.capacityFor_le hc.loadFactor hk⟩

/-- Nothing is recorded when a collection has made room. -/
theorem records_start (hf : f.Ready n.layout n.compact) (hn : n.expected = fun _ => none)
    (htotal : n.total < 2 ^ 32) (m : Memory) :
    (f.start.reserve n.total).Records n m m [] := by
  refine ⟨Memory.SameSpan.refl m, fun _ _ => rfl, List.nodup_nil, by simp, by simp, ?_⟩
  cases f with
  | header => exact ⟨hf, by simp⟩
  | sliding s => exact ⟨Sliding.holds_clear hf.1 hf.2, by simp⟩
  | hashed s =>
    obtain ⟨hsizes, hsmall⟩ := hf
    show ((s.table.reset.reserve n.total)).Holds [] ∧ n.total ≤
      (s.table.reset.reserve n.total).nodes.size ∧ (false = true → _) ∧ _
    have hsize : s.table.reset.buckets.size = s.table.buckets.size := Array.size_replicate
    unfold ForwardTable.reserve
    split
    · refine ⟨ForwardTable.holds_reset ?_ ?_, ?_, fun h => absurd h (by decide), by simp⟩
      · show 0 < s.table.reset.buckets.size ∧ s.table.reset.buckets.size ≤ _
        rw [hsize]
        exact hsizes
      · show (Array.replicate n.total _).size < _
        rw [Array.size_replicate]
        exact htotal
      · show _ ≤ (Array.replicate n.total _).size
        rw [Array.size_replicate]
    · rename_i henough
      refine ⟨ForwardTable.holds_reset (by rw [hsize]; exact hsizes) hsmall, ?_,
        fun h => absurd h (by decide), by simp⟩
      exact Nat.not_lt.1 henough
  | dense d =>
    refine ⟨?_, rfl⟩
    rw [hn, ← hf.1]
    exact Dense.holds_new d.layout hf.2

/-- What is left after a collection serves for the next one. -/
theorem Records.ready_finish (h : f.Records n m₀ m moves) : f.finish.Ready n.layout n.compact := by
  have henc := h.encodes
  cases f with
  | header => exact henc.1
  | sliding s => exact ⟨henc.1.layout, Array.size_replicate.trans henc.1.count⟩
  | hashed s =>
    refine ⟨?_, henc.1.small⟩
    show 0 < (Array.replicate _ _).size ∧ (Array.replicate _ _).size ≤ _
    rw [Array.size_replicate]
    exact henc.1.linked.sizes
  | dense d => exact ⟨henc.1.layout, henc.1.small⟩

/-! ### Announcements -/

/-- The objects of a region are announced. -/
def Announced.announce (n : Announced) (region count : Nat) : Announced :=
  { n with expected := Function.update n.expected region (some count) }

/-- A dense table for so many objects of a region is not too large to be walked. -/
def Accommodates (f : Forwarding) (count : Nat) : Prop :=
  match f with
  | .dense d => RegionTable.capacityFor count d.loadFactor ≤ 2 ^ 36
  | _ => True

theorem Records.accommodates (h : f.Records n m₀ m moves) {count : Nat} (hcount : count < 2 ^ 24) :
    f.Accommodates count := by
  have henc := h.encodes
  cases f with
  | header => trivial
  | sliding s => trivial
  | hashed s => trivial
  | dense d => exact (henc.1.small count hcount).trans (by decide)

theorem Records.beginRegion (h : f.Records n m₀ m moves) (hl : n.layout.Sound) {region count : Nat}
    (hr : region < n.layout.numRegions) (hnone : n.expected region = none)
    (hcount : f.Accommodates count) :
    ∃ f', f.beginRegion region count = .ok f' ∧
      f'.Records (n.announce region count) m₀ m moves ∧ f'.encoding = f.encoding := by
  obtain ⟨hspan, helse, hnodup, hwords, hclean, henc⟩ := h
  cases f with
  | header => exact ⟨_, rfl, ⟨hspan, helse, hnodup, hwords, hclean, henc⟩, rfl⟩
  | sliding s => exact ⟨_, rfl, ⟨hspan, helse, hnodup, hwords, hclean, henc⟩, rfl⟩
  | hashed s => exact ⟨_, rfl, ⟨hspan, helse, hnodup, hwords, hclean, henc⟩, rfl⟩
  | dense d =>
    obtain ⟨d', hrun, hd'⟩ := henc.1.beginRegion hl hr hnone hcount
    refine ⟨.dense d', ?_, ⟨hspan, helse, hnodup, hwords, hclean, hd', henc.2⟩, rfl⟩
    unfold Forwarding.beginRegion
    dsimp only
    rw [hrun]
    rfl

/-- A table that grows keeps its entries. -/
theorem Records.growIfRequested (h : f.Records n m₀ m moves) :
    f.growIfRequested.2.Records n m₀ m moves ∧ f.growIfRequested.2.encoding = f.encoding := by
  obtain ⟨hspan, helse, hnodup, hwords, hclean, henc⟩ := h
  cases f with
  | header => exact ⟨⟨hspan, helse, hnodup, hwords, hclean, henc⟩, rfl⟩
  | sliding s => exact ⟨⟨hspan, helse, hnodup, hwords, hclean, henc⟩, rfl⟩
  | dense d => exact ⟨⟨hspan, helse, hnodup, hwords, hclean, henc⟩, rfl⟩
  | hashed s =>
    refine ⟨⟨hspan, helse, hnodup, hwords, hclean, ?_⟩, rfl⟩
    obtain ⟨hholds, htotal, hrequest, hmarks⟩ := henc
    show Encodes (.hashed s.growIfRequested.2) n m₀ m moves
    unfold Hashed.growIfRequested
    split
    · rename_i hgrow
      have hfew := hholds.room.trans_lt hholds.small
      have hcrowded := hrequest hgrow
      unfold ForwardTable.crowded at hcrowded
      rw [decide_eq_true_eq, hholds.entries] at hcrowded
      have hnodes := (ForwardTable.grow_spec hholds.linked hholds.small (by omega)).2.size
      refine ⟨hholds.grow (by omega), ?_, fun hh => absurd hh Bool.false_ne_true, hmarks⟩
      rw [hnodes]
      exact htotal
    · exact ⟨hholds, htotal, hrequest, hmarks⟩

/-! ### One more new address -/

/-- What an object must satisfy to be given the new address `v`. -/
structure Admits (f : Forwarding) (n : Announced) (m₀ : Memory)
    (moves : List (Address × Address)) (a v : Address) : Prop where
  source : n.layout.IsWord a
  target : n.layout.IsWord v
  fresh : a ∉ moves.map Prod.fst
  clean : (m₀.loadMark a).Clean
  total : f.encoding = .hashed → moves.length < n.total
  announced : f.encoding = .dense → ∃ k, n.expected (n.layout.indexOf a) = some k ∧
    (movesOf n.layout moves (n.layout.indexOf a)).length < k
  /-- The objects of one region go to few regions, if the encoding asks for that. -/
  allowed : ∀ limit, f.targetsPerRegion = some limit →
    n.layout.indexOf v ∈ targetsOf n.layout moves (n.layout.indexOf a) ∨
      (targetsOf n.layout moves (n.layout.indexOf a)).length < limit

/-- One more new address has been recorded, with no other word changed than the mark. -/
theorem Records.snoc (h : f.Records n m₀ m moves) {a v : Address} {f' : Forwarding} {m' : Memory}
    (ha : f.Admits n m₀ moves a v) (hspan : m.SameSpan m')
    (hother : ∀ x, x ≠ a → m'.load x = m.load x)
    (henc : f'.Encodes n m₀ m' (moves ++ [(a, v)])) :
    f'.Records n m₀ m' (moves ++ [(a, v)]) := by
  refine ⟨h.span.trans hspan, ?_, ?_, ?_, ?_, henc⟩
  · intro x hx
    rw [List.map_append, List.mem_append, not_or] at hx
    rw [hother x fun hxa => hx.2 (List.mem_singleton.2 hxa)]
    exact h.elsewhere x hx.1
  · rw [List.map_append, List.nodup_append]
    refine ⟨h.nodup, List.nodup_singleton _, ?_⟩
    intro x hx y hy hxy
    obtain rfl := List.mem_singleton.1 hy
    exact ha.fresh (hxy ▸ hx)
  · intro e he
    rcases List.mem_append.1 he with he | he
    · exact h.words e he
    · obtain rfl := List.mem_singleton.1 he
      exact ⟨ha.source, ha.target⟩
  · intro e he
    rcases List.mem_append.1 he with he | he
    · exact h.clean e he
    · obtain rfl := List.mem_singleton.1 he
      exact ha.clean

/-- A mark that is stored changes one word. -/
theorem Records.storeMark (h : f.Records n m₀ m moves) {a v : Address} {f' : Forwarding}
    (ha : f.Admits n m₀ moves a v) (mark : Mark)
    (henc : f'.Encodes n m₀ (m.storeMark a mark) (moves ++ [(a, v)])) :
    f'.Records n m₀ (m.storeMark a mark) (moves ++ [(a, v)]) :=
  h.snoc ha (Memory.sameSpan_store ..) (fun _ hx => Memory.load_store_of_ne _ hx.symm mark.raw)
    henc

theorem loadMark_storeMark_of_mem {a : Address} (hfresh : a ∉ moves.map Prod.fst)
    {e : Address × Address} (he : e ∈ moves) (mark : Mark) :
    (m.storeMark a mark).loadMark e.1 = m.loadMark e.1 := by
  have hne : a ≠ e.1 := by
    rintro rfl
    exact hfresh (List.mem_map_of_mem he)
  unfold Memory.loadMark Memory.storeMark
  rw [Memory.load_store_of_ne _ hne]

theorem loadMark_storeMark_self (m : Memory) (a : Address) (mark : Mark) :
    (m.storeMark a mark).loadMark a = mark := by
  unfold Memory.loadMark Memory.storeMark
  rw [Memory.load_store_self]

/-- What holds of the marks of those before, which stay, and of the mark that is stored holds of
all marks. -/
theorem forall_loadMark_snoc {P : Address × Address → Mark → Prop} {a v : Address} {mark : Mark}
    (hfresh : a ∉ moves.map Prod.fst) (hold : ∀ e ∈ moves, P e (m.loadMark e.1))
    (hnew : P (a, v) mark) :
    ∀ e ∈ moves ++ [(a, v)], P e ((m.storeMark a mark).loadMark e.1) := by
  intro e he
  rcases List.mem_append.1 he with he | he
  · rw [loadMark_storeMark_of_mem hfresh he]
    exact hold e he
  · obtain rfl := List.mem_singleton.1 he
    rw [loadMark_storeMark_self]
    exact hnew

theorem Records.loadMark_of_fresh (h : f.Records n m₀ m moves) {a : Address}
    (hfresh : a ∉ moves.map Prod.fst) : m.loadMark a = m₀.loadMark a := by
  unfold Memory.loadMark
  rw [h.elsewhere a hfresh]

/-- Sliding: a slot of the region of the object holds the base of the target. -/
theorem Records.forwardTo_sliding {s : Sliding} (h : (sliding s).Records n m₀ m moves)
    (hl : n.layout.Sound) {a v : Address} (ha : (sliding s).Admits n m₀ moves a v) :
    ∃ s' m', s.forwardTo m a v = .ok (s', m') ∧
      (sliding s').Records n m₀ m' (moves ++ [(a, v)]) := by
  obtain ⟨hholds, hmarks⟩ := h.encodes
  have hindex : ∀ x, n.layout.IsWord x → n.layout.indexOf x < n.layout.numRegions := fun x hx =>
    hl.indexOf_lt ((hl.contains_iff x).2 ⟨hx.bottom, hx.stop⟩)
  obtain ⟨slot, s', hclaim, hslot, hholds', hbase, hkeep⟩ := hholds.claimBase hl.addressable
    (hindex a ha.source) (hindex v ha.target) (ha.allowed basesPerRegion rfl)
  have hmerge : s.merge (m.loadMark a) a v
      = .ok (mergedMark (m₀.loadMark a) ((n.layout.baseOf v).wordsTo v) slot, s') := by
    unfold Sliding.merge Sliding.encode
    rw [hholds.layout, h.loadMark_of_fresh ha.fresh]
    exact bind_eq_ok (bind_eq_ok hclaim rfl) rfl
  refine ⟨s', m.storeMark a (mergedMark (m₀.loadMark a) ((n.layout.baseOf v).wordsTo v) slot), ?_,
    h.storeMark ha _ ⟨hholds', forall_loadMark_snoc (P := fun e mark => ∃ k < basesPerRegion,
      s'.base (n.layout.indexOf e.1) k = some (n.layout.baseOf e.2) ∧
        mark = mergedMark (m₀.loadMark e.1) ((n.layout.baseOf e.2).wordsTo e.2) k)
      ha.fresh (fun e he => ?_) ⟨slot, hslot, hbase, rfl⟩⟩⟩
  · unfold Sliding.forwardTo
    exact bind_eq_ok hmerge rfl
  · -- slots that have been taken keep their bases
    obtain ⟨k, hk, hb, hmark⟩ := hmarks e he
    exact ⟨k, hk, hkeep _ _ _ hk hb, hmark⟩

/-- A hash table takes one more node, and asks to grow as soon as it is crowded. -/
theorem Records.forwardTo_hashed {s : Hashed} (h : (hashed s).Records n m₀ m moves)
    {a v : Address} (ha : (hashed s).Admits n m₀ moves a v) :
    ∃ s' m', s.forwardTo m a v = .ok (s', m') ∧
      (hashed s').Records n m₀ m' (moves ++ [(a, v)]) := by
  obtain ⟨hholds, htotal, hrequest, hmarks⟩ := h.encodes
  obtain ⟨t', hput, hholds', hnodes, hbuckets⟩ :=
    hholds.put ha.fresh ((ha.total rfl).trans_le htotal) v
  have hinsert : s.insert a v = .ok (none,
      { s with table := t', growRequested := s.growRequested || t'.crowded }) := by
    unfold Hashed.insert
    exact bind_eq_ok hput rfl
  refine ⟨{ s with table := t', growRequested := s.growRequested || t'.crowded },
    m.storeMark a ((m₀.loadMark a).withLock 0b11), ?_,
    h.storeMark ha _ ⟨hholds', ?_, fun hgrow => ?_,
      forall_loadMark_snoc (P := fun e mark => mark = (m₀.loadMark e.1).withLock 0b11)
        ha.fresh hmarks rfl⟩⟩
  · unfold Hashed.forwardTo
    refine bind_eq_ok hinsert ?_
    rw [h.loadMark_of_fresh ha.fresh]
    rfl
  · show n.total ≤ t'.nodes.size
    rw [hnodes]
    exact htotal
  · change (s.growRequested || t'.crowded) = true at hgrow
    rcases Bool.or_eq_true_iff.1 hgrow with hold | hnow
    · -- a table that was crowded is more crowded now
      have hcrowded := hrequest hold
      unfold ForwardTable.crowded at hcrowded ⊢
      rw [decide_eq_true_eq, hholds.entries] at hcrowded
      rw [decide_eq_true_eq]
      show t'.buckets.size / 4 * 3 < t'.entries
      rw [hbuckets, hholds'.entries, List.length_append]
      omega
    · exact hnow

/-- The dense table of the region of the object takes one more entry. -/
theorem Records.forwardTo_dense {d : Dense} (h : (dense d).Records n m₀ m moves)
    (hl : n.layout.Sound) {a v : Address} (ha : (dense d).Admits n m₀ moves a v) :
    ∃ d', d.forwardTo a v = .ok d' ∧ (dense d').Records n m₀ m (moves ++ [(a, v)]) := by
  obtain ⟨hholds, rfl⟩ := h.encodes
  obtain ⟨k, hk, hroom⟩ := ha.announced rfl
  obtain ⟨d', hrun, hholds'⟩ := hholds.forwardTo hl ha.source ha.fresh hk hroom v
  exact ⟨d', hrun, h.snoc ha (Memory.SameSpan.refl m) (fun _ _ => rfl) ⟨hholds', rfl⟩⟩

/-- An object that is admitted is given its new address. -/
theorem Records.forwardTo (h : f.Records n m₀ m moves) (hl : n.layout.Sound) {a v : Address}
    (ha : f.Admits n m₀ moves a v) :
    ∃ f' m', f.forwardTo m a v = .ok (f', m') ∧ f'.Records n m₀ m' (moves ++ [(a, v)]) ∧
      f'.encoding = f.encoding := by
  cases f with
  | header =>
    exact ⟨_, _, rfl, h.storeMark ha _ ⟨h.encodes.1,
      forall_loadMark_snoc (P := fun e mark => mark = .forwardedTo e.2) ha.fresh h.encodes.2 rfl⟩,
      rfl⟩
  | sliding s =>
    obtain ⟨s', m', hrun, hrec⟩ := h.forwardTo_sliding hl ha
    exact ⟨.sliding s', m', by simp only [Forwarding.forwardTo, hrun]; rfl, hrec, rfl⟩
  | hashed s =>
    obtain ⟨s', m', hrun, hrec⟩ := h.forwardTo_hashed ha
    exact ⟨.hashed s', m', by simp only [Forwarding.forwardTo, hrun]; rfl, hrec, rfl⟩
  | dense d =>
    obtain ⟨d', hrun, hrec⟩ := h.forwardTo_dense hl ha
    exact ⟨.dense d', m, by simp only [Forwarding.forwardTo, hrun]; rfl, hrec, rfl⟩

/-! ### Looking up -/

/-- A new address is found, whatever has become of other words. -/
theorem Records.forwardee_of_mem (h : f.Records n m₀ m moves) (hl : n.layout.Sound) {a v : Address}
    (hmem : (a, v) ∈ moves) {m' : Memory} (hmark : m'.loadMark a = m.loadMark a) :
    f.forwardee m' a = .ok (some v) := by
  have henc := h.encodes
  obtain ⟨hsource, htarget⟩ := h.words _ hmem
  cases f with
  | header =>
    show Except.ok (HeaderForwarding.target (m'.loadMark a) a) = _
    rw [hmark, henc.2 _ hmem, HeaderForwarding.target_forwardedTo
      ((and_seven_eq_zero_iff v).2 htarget.aligned)]
  | sliding s =>
    obtain ⟨slot, hslot, hbase, hm⟩ := henc.2 _ hmem
    show s.target (m'.loadMark a) a = _
    rw [hmark, hm]
    exact Sliding.target_merged hl.addressable henc.1.layout (htarget.onGrid hl) hslot hbase
  | hashed s =>
    obtain ⟨hholds, -, -, hmarks⟩ := henc
    have hlock : (m'.loadMark a).isForwarded = true := by
      rw [hmark, hmarks _ hmem]
      unfold Mark.isForwarded
      rw [Mark.lock_withLock]
      decide
    have hself : (m'.loadMark a).isSelfForwarded = false := by
      rw [hmark, hmarks _ hmem]
      unfold Mark.isSelfForwarded
      rw [Mark.and_withLock _ _ (by decide)]
      rw [(h.clean _ hmem).notSelf]
      simp
    show s.forwardee m' a = _
    unfold Hashed.forwardee
    dsimp only
    rw [hlock, hself, hholds.find?_of_mem hmem]
    rfl
  | dense d =>
    show Except.ok (d.forwardee a) = _
    rw [henc.1.forwardee_of_mem hl hmem]

/-- Any other object has none. -/
theorem Records.forwardee_of_notMem (h : f.Records n m₀ m moves) (hl : n.layout.Sound)
    {a : Address} (hword : n.layout.IsWord a) (hnew : a ∉ moves.map Prod.fst) {m' : Memory}
    (hmark : (m'.loadMark a).isForwarded = false) : f.forwardee m' a = .ok none := by
  have henc := h.encodes
  cases f with
  | header =>
    show Except.ok (HeaderForwarding.target (m'.loadMark a) a) = _
    rw [HeaderForwarding.target_eq_none_iff.2 hmark]
  | sliding s =>
    show s.target (m'.loadMark a) a = _
    unfold Sliding.target
    rw [hmark]
    rfl
  | hashed s =>
    show s.forwardee m' a = _
    unfold Hashed.forwardee
    dsimp only
    rw [hmark]
    rfl
  | dense d =>
    show Except.ok (d.forwardee a) = _
    rw [henc.1.forwardee_of_notMem hl hword hnew]

/-- Whether an object has a new address is what the answer to the question for it says. -/
theorem isForwarded_of_forwardee {a : Address} {answer : Option Address}
    (h : f.forwardee m a = .ok answer) : f.isForwarded m a = answer.isSome := by
  cases f with
  | header =>
    obtain rfl := Except.ok.inj h
    show (m.loadMark a).isForwarded = (HeaderForwarding.target (m.loadMark a) a).isSome
    cases hmark : (m.loadMark a).isForwarded with
    | false => rw [HeaderForwarding.target_eq_none_iff.2 hmark]; rfl
    | true =>
      rw [eq_comm, Option.isSome_iff_ne_none, ne_eq, HeaderForwarding.target_eq_none_iff, hmark]
      decide
  | sliding s =>
    change s.target (m.loadMark a) a = .ok answer at h
    show (m.loadMark a).isForwarded = _
    unfold Sliding.target at h
    cases hmark : (m.loadMark a).isForwarded with
    | false =>
      rw [hmark] at h
      cases h
      rfl
    | true =>
      rw [hmark, if_neg (by decide)] at h
      split at h
      · cases h
        rfl
      · obtain ⟨v, -, rfl⟩ := exists_of_map_eq_ok h
        rfl
  | hashed s =>
    change s.forwardee m a = .ok answer at h
    show (m.loadMark a).isForwarded = _
    unfold Hashed.forwardee at h
    dsimp only at h
    cases hmark : (m.loadMark a).isForwarded with
    | false =>
      rw [hmark] at h
      cases h
      rfl
    | true =>
      rw [hmark, if_neg (by decide)] at h
      split at h
      · cases h
        rfl
      · split at h <;> cases h
        rfl
  | dense d =>
    obtain rfl := Except.ok.inj h
    rfl

/-- A compact mark still tells its class and what is known of its hash. -/
theorem Records.kept (h : f.Records n m₀ m moves) (hl : n.layout.Sound)
    (hcompact : n.compact = true) (a : Address) :
    (m.loadMark a).raw &&& keptMask = (m₀.loadMark a).raw &&& keptMask := by
  by_cases hmem : a ∈ moves.map Prod.fst
  · obtain ⟨e, he, rfl⟩ := List.mem_map.1 hmem
    have henc := h.encodes
    cases f with
    | header =>
      have hclassic : n.compact = false := henc.1
      rw [hcompact] at hclassic
      cases hclassic
    | sliding s =>
      obtain ⟨slot, -, -, hm⟩ := henc.2 e he
      rw [hm]
      exact mergedMark_kept _ (Sliding.offset_lt hl.addressable ((h.words e he).2.onGrid hl)).1 slot
    | hashed s =>
      rw [henc.2.2.2 e he]
      exact Mark.and_withLock _ _ (by decide)
    | dense d => rw [henc.2]
  · unfold Memory.loadMark
    rw [h.elsewhere a hmem]

/-- An encoding that keeps to its tables leaves the memory alone. -/
theorem Records.intact (h : f.Records n m₀ m moves) (hkeeps : f.overwritesMarks = false) :
    m = m₀ := by
  have henc := h.encodes
  cases f with
  | header => cases hkeeps
  | sliding s => cases hkeeps
  | hashed s => cases hkeeps
  | dense d => exact henc.2

theorem overwritesMarks_eq (f : Forwarding) : f.overwritesMarks = (f.encoding != .dense) := by
  cases f <;> rfl

theorem targetsPerRegion_eq (f : Forwarding) :
    f.targetsPerRegion = if f.encoding = .sliding then some basesPerRegion else none := by
  cases f <;> rfl

end Forwarding

end MarkCompact
