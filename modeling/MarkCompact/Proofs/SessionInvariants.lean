/-
MarkCompact/Proofs/SessionInvariants.lean

The heap and its collector between two steps.

Whatever a program has done, and however often its heap has been collected, the region table
says what there is: free regions are empty, a run of humongous regions belongs to the one object
at its bottom, and no region shows that a collection has been there.  The collector keeps
nothing, neither in its bitmap nor beside the headers (`Forwarding.IsEmpty`).

Main result: `Session.consistent_run`.
-/
import MarkCompact.Proofs.SessionCharts

namespace MarkCompact

/-! ### Nothing is kept beside the headers -/

/-- An encoding keeps nothing beside the headers. -/
def Forwarding.IsEmpty : Forwarding → Prop
  | .header => True
  | .sliding s => ∀ region slot, s.base region slot = none
  | .hashed s => s.table.entries = 0 ∧ ∀ a, s.table.find? a = none
  | .dense d => ∀ region, d.table region = none

/-- What an array of nothing holds. -/
theorem join_getElem?_replicate {α : Type} (n i : Nat) :
    ((Array.replicate n (none : Option α))[i]?).join = none := by
  rw [Array.getElem?_replicate]
  split <;> rfl

/-- In buckets without a link nothing is found. -/
theorem ForwardTable.find?_of_blank {t : ForwardTable} {n : Nat}
    (hbuckets : t.buckets = Array.replicate n 0) (a : Address) : t.find? a = none := by
  have hhead : t.head a = 0 := by
    unfold head
    rw [hbuckets, Array.getElem?_replicate]
    split <;> rfl
  unfold find?
  rw [hhead]
  cases t.nodes.size <;> rfl

namespace Forwarding

theorem isEmpty_select {c : Config} {l : Layout} {f : Forwarding} (h : select c l = .ok f) :
    f.IsEmpty := by
  unfold select at h
  split at h
  · cases h
    trivial
  · unfold Sliding.new at h
    split at h
    · cases h
      exact fun region slot => join_getElem?_replicate _ _
    · cases h
  · cases h
    exact ⟨rfl, ForwardTable.find?_of_blank rfl⟩
  · cases h
    exact join_getElem?_replicate _

theorem isEmpty_finish (f : Forwarding) : f.finish.IsEmpty := by
  cases f with
  | header => trivial
  | sliding s => exact fun region slot => join_getElem?_replicate _ _
  | hashed s => exact ⟨rfl, ForwardTable.find?_of_blank rfl⟩
  | dense d => exact join_getElem?_replicate _

/-- The program counts no entries then. -/
theorem IsEmpty.entries {f : Forwarding} (h : f.IsEmpty) : f.stats.entries = 0 := by
  cases f with
  | header => rfl
  | sliding s =>
    refine List.countP_eq_zero.2 fun slot hslot hsome => ?_
    obtain ⟨i, hi⟩ := List.mem_iff_getElem?.1 hslot
    -- the slots of all regions lie one after the other
    have hbase : s.base (i / basesPerRegion) (i % basesPerRegion) = slot := by
      unfold Sliding.base
      rw [Nat.div_add_mod', ← Array.getElem?_toList, hi]
      rfl
    rw [h] at hbase
    rw [← hbase] at hsome
    cases hsome
  | hashed s => exact h.1
  | dense d =>
    have hnone : d.tables.toList.filterMap id = [] := by
      refine List.filterMap_eq_nil_iff.2 fun table htable => ?_
      obtain ⟨i, hi⟩ := List.mem_iff_getElem?.1 htable
      have hat : d.table i = table := by
        unfold Dense.table
        rw [← Array.getElem?_toList, hi]
        rfl
      rw [← hat]
      exact h i
    show ((d.tables.toList.filterMap id).map RegionTable.entries).foldr (· + ·) 0 = 0
    rw [hnone]
    rfl

end Forwarding

/-! ### Collectors -/

theorem Collector.isEmpty_new {config : Config} {h : Heap} {c : Collector}
    (hnew : new config h = .ok (.ok c)) : c.forwarding.IsEmpty := by
  obtain ⟨-, -, f, hselect, rfl⟩ := eq_of_new hnew
  exact Forwarding.isEmpty_select hselect

namespace Session

variable {t : ClassTable} {s s' s₀ : Session} {config : Config} {base : Address}

theorem Mutates.collector_eq (hm : s.Mutates t s') : s'.collector = s.collector := by
  cases hm <;> rfl

theorem Collects.isEmpty (hc : s.Collects t s') (hs : s.Sound t)
    (hempty : s.collector.forwarding.IsEmpty) : s'.collector.forwarding.IsEmpty := by
  obtain @⟨times, r, run⟩ := hc
  show r.collector.forwarding.IsEmpty
  cases hstyle : s.collector.config.style with
  | parallel =>
    obtain ⟨r', b, p, h₁, o, n, tops, bs, s₂, h₂, g, run', -, -, -, -, -, -, -, hforwarding, -⟩ :=
      Collector.collect_parallel_completed times hs.rooted hs.prepared hstyle
    obtain rfl : r' = r := by
      rw [run] at run'
      exact (Except.ok.inj run').symm
    rw [hforwarding]
    exact Forwarding.isEmpty_finish _
  | serial =>
    obtain ⟨r', b, bs, table, spaces, h₂, g, run', -, -, -, hforwarding, -⟩ :=
      Collector.collect_completed times hs.rooted hs.prepared.toSuits hstyle
    obtain rfl : r' = r := by
      rw [run] at run'
      exact (Except.ok.inj run').symm
    rwa [hforwarding]

/-- Between two steps nothing is kept beside the headers. -/
theorem Run.isEmpty (hrun : Run t s₀ s) (hstart : s₀.Starts t config base) :
    s.collector.forwarding.IsEmpty := by
  induction hrun with
  | start => exact Collector.isEmpty_new hstart.collector
  | mutate before step ih =>
    rw [step.collector_eq]
    exact ih
  | collect before step ih => exact step.isEmpty (before.sound hstart.sound) ih

/-! ### Consistency -/

/-- What holds of the heap and its collector between two steps. -/
structure Consistent (t : ClassTable) (s : Session) : Prop where
  extent : ∀ i < s.heap.regions.size,
    (s.heap.region i).bottom.toNat ≤ (s.heap.region i).top.toNat ∧
      (s.heap.region i).top.toNat ≤ (s.heap.region i).stop.toNat
  /-- A free region is empty, and no start is recorded in it. -/
  free : ∀ i < s.heap.regions.size, (s.heap.region i).kind = .free →
    (s.heap.region i).top = (s.heap.region i).bottom ∧
      ∀ a : Address, (s.heap.region i).bottom.toNat ≤ a.toNat →
        a.toNat < (s.heap.region i).stop.toNat → s.heap.starts.startInBlock a = none
  /-- At the bottom of a run of humongous regions lies an object that fills it. -/
  humongous : ∀ i < s.heap.regions.size, (s.heap.region i).kind = .humongousStart →
    ∃ words, s.heap.size t (s.heap.region i).bottom = .ok words ∧ s.heap.HumongousRun i words
  /-- A region that continues a run belongs to the run of such an object. -/
  continued : ∀ i < s.heap.regions.size, (s.heap.region i).kind = .humongousContinues →
    ∃ first words, s.heap.size t (s.heap.region first).bottom = .ok words ∧
      s.heap.InRun first words i ∧ first < i
  /-- No region takes part in a collection. -/
  idle : ∀ i < s.heap.regions.size, (s.heap.region i).Idle
  bitmap : s.collector.bitmap = .ofLayout s.heap.layout
  saved : s.collector.saved = #[]
  forwarding : s.collector.forwarding.IsEmpty
  /-- What the program can name are objects that lie in a regular region below its top, or are
  the object of a humongous run. -/
  object : ∀ a, s.Knows t a → ∃ c words, s.heap.ObjectAt t a c words
  apart : ∀ a b, s.Knows t a → s.Knows t b → a ≠ b →
    a.Apart (s.heap.wordsAt t a) b (s.heap.wordsAt t b)

theorem Sound.consistent (hs : s.Sound t) {tile : Address → Prop}
    (hc : s.heap.Charted t (s.Knows t) tile) (hempty : s.collector.forwarding.IsEmpty) :
    s.Consistent t := by
  have hw := hs.wellFormed
  have hsettled := hw.settled
  have ht := hsettled.toTabled
  refine ⟨fun i hi => ⟨(ht.top i hi).1, (ht.top i hi).2.1⟩, fun i hi hk => ⟨ht.free i hi hk, ?_⟩,
    ?_, ?_, hsettled.idle, hs.prepared.bitmap, hs.prepared.saved, hempty,
    fun a ha => hw.object ha, ?_⟩
  · intro a h1 h2
    rw [ht.bottom i hi] at h1
    rw [ht.stop i hi] at h2
    exact hc.bare_of_free ht hi hk h1 h2
  · intro i hi hk
    rw [ht.bottom i hi]
    exact hc.exists_run ht hi hk
  · intro i hi hk
    obtain ⟨first, words, hrun, hlt, hin⟩ := ht.continued i hi hk
    have hfirst : first < s.heap.regions.size := by omega
    -- the run is as long as the object at its bottom
    obtain ⟨words', hsize, hrun'⟩ := hc.exists_run ht hfirst hrun.start
    have hpos := (hrun'.inside ht.toGridded hfirst).2.1
    have hsame := (Heap.HumongousRun.unique (i := first)
      ⟨hrun, le_refl _, by omega⟩ ⟨hrun', le_refl _, by omega⟩).2
    exact ⟨first, words', by rwa [ht.bottom first hfirst], ⟨hrun', hlt.le, by omega⟩, hlt⟩
  · intro a b ha hb hne
    rcases Nat.lt_trichotomy a.toNat b.toNat with hlt | heq | hlt
    · exact .inl (hw.populated.disjoint a b ha hb hlt)
    · exact absurd (UInt64.toNat_inj.1 heq) hne
    · exact .inr (hw.populated.disjoint b a hb ha hlt)

/-- Between any two steps of a run the heap and its collector are consistent. -/
theorem consistent_run (hstart : s₀.Starts t config base) (hrun : Run t s₀ s) :
    s.Consistent t := by
  obtain ⟨tile, hchart⟩ := hrun.charted hstart
  exact (hrun.sound hstart.sound).consistent hchart (hrun.isEmpty hstart)

/-- A heap with compact headers, after an object has been made and collected. -/
theorem consistent_run_collected : ∃ (t : ClassTable) (config : Config) (base : Address)
    (s₀ s : Session), s₀.Starts t config base ∧ config.compactHeaders = true ∧ Run t s₀ s ∧
      (∃ a, s.Knows t a) ∧ s.Consistent t := by
  let config : Config :=
    { compactHeaders := true, forwarding := some .dense, regionShift := 4, numRegions := 4,
      blockShift := 2 }
  have hv : config.Valid := by decide
  have hb : config.Backed 0x10000 := by decide
  obtain ⟨t, s₀, s, a, hstart, hrun, hroots, hne, hin⟩ := exists_run hv hb (by decide)
  have hs := hrun.sound hstart.sound
  have ha : Reaches s.heap t s.roots a := by
    refine .root ?_ hin
    rw [hroots]
    exact List.mem_filter.2 ⟨by simp, by simpa using hne⟩
  obtain ⟨s', hcollect⟩ := hs.exists_collects ⟨fun _ => 0, 0⟩
  obtain ⟨-, move, hrel⟩ := hcollect.spec hs
  have hknown : s'.Knows t (move a) := ((hrel.reaches_iff hs.rooted).2 ⟨a, ha, rfl⟩).mono
    fun v hv hin => .root (Roots.mem_live_append.2 (.inl hv)) hin
  exact ⟨t, config, 0x10000, s₀, s', hstart, rfl, hrun.collect hcollect, ⟨_, hknown⟩,
    consistent_run hstart (hrun.collect hcollect)⟩

end Session

end MarkCompact
