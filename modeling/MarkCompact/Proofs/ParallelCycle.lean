/-
MarkCompact/Proofs/ParallelCycle.lean

What a parallel collection decides before it moves an object.

With one worker the forward phase claims the regions of the part in their order, gives their
objects berths, and then gives humongous objects new runs.  `Forwarded` says what it leaves:
every live object has a place, the places that are new are recorded, the marks that recording
overwrites are kept aside, and nothing else has been written.

Main result: `ParallelCycle.forward_spec`.
-/
import MarkCompact.Proofs.Places
import MarkCompact.Proofs.Claimers

namespace MarkCompact.ParallelCycle

open Forwarding

/-- The new addresses are recorded, and the regions noted to which objects go. `kept` objects
of the part have been kept in place, and the table of starts was `starts` at the beginning. -/
structure Forwarded (h : Heap) (t : ClassTable) (b : Bitmap) (live : Address → Prop)
    (part : List Nat) (n : Announced) (e : Encoding) (starts : StartTable) (kept : Nat)
    (tops : Nat → Address) (bs : List Berth) (vs : List HumongousMove) (s : Relocation) :
    Prop where
  housed : h.Housed t b live part tops bs vs
  idle : ∀ i < h.regions.size, (h.region i).Idle
  layout : s.heap.layout = h.layout
  size : s.heap.regions.size = h.regions.size
  headers : s.heap.compactHeaders = h.compactHeaders
  starts : s.heap.starts = (bs.map Berth.target).foldl StartTable.record starts
  member : ∀ i ∈ part, s.heap.region i = (h.region i).enlisted (tops i)
  taken : ∀ i, i ∉ part → (∃ v ∈ vs, v.Comes h.layout i) →
    s.heap.region i = { h.region i with compacting := true }
  other : ∀ i, i ∉ part → (∀ v ∈ vs, ¬ v.Comes h.layout i) → s.heap.region i = h.region i
  grid : n.layout = h.layout
  compact : n.compact = h.compactHeaders
  records : s.forwarding.Records n h.memory s.heap.memory (Berth.moves (h.places bs vs))
  encoding : s.forwarding.encoding = e
  saved : s.saved.toList = if s.forwarding.overwritesMarks then
    h.savedMarks ((Berth.moves (h.places bs vs)).map Prod.fst) else []
  chosen : vs = h.rehoused t b part tops
  chained : bs.IsChain Berth.Joins
  fits : kept = 0 → bs = (h.layOut t part (part.flatMap (h.liveIn b))).1
  free : h.compactHeaders = false ∨ e ≠ .sliding → kept = 0

variable {h : Heap} {t : ClassTable} {b : Bitmap} {live : Address → Prop} {part : List Nat}
  {n : Announced} {e : Encoding}

/-- After planning the live objects are known, and those of the part have been announced. -/
theorem mustered {h₀ : Heap} {p : Plan} (hp : Planned h₀ b p h) (hs₀ : Surveyed h₀ t b live)
    (hs : Surveyed h t b live) (hlists : n.Lists h b p.compacting)
    (htotal : n.total = (h₀.liveList b).length) :
    CompactionPoint.Mustered h t b live p.compacting n :=
  ⟨hs.toStocked, hp.part, hlists.toCovers, fun l hn hl => by
    rw [htotal]
    exact hs₀.length_le_liveList hn hl⟩

/-- The first half of the forward phase: places for all objects but the humongous ones. -/
def placeRegular (c : ParallelCycle) (p : Plan) : Except Fault (PlacementCount × Relocation) := do
  let claimed := (Claimer.new p.compacting c.settings.regionsPerClaim).all
  let (point, s) ← claimed.foldlM (placeRegion c.classes c.bitmap) (.empty, c.state)
  let (point, h) := point.finish s.heap
  return (point.count, { s with heap := h })

/-- The second half is the pass over the regions. -/
theorem forward_eq_ok {c : ParallelCycle} {p : Plan} {count : PlacementCount} {s s' : Relocation}
    {vs : List HumongousMove} (hregular : c.placeRegular p = .ok (count, s))
    (hpass : s.placeAllHumongous c.classes p.humongous = .ok (vs, s')) :
    c.forward p = .ok (⟨count, vs⟩, { c with state := s' }) := by
  unfold placeRegular at hregular
  obtain ⟨⟨point, s₁⟩, hplace, hfinish⟩ := exists_of_bind_eq_ok hregular
  obtain ⟨rfl, rfl⟩ := Prod.mk.inj (Except.ok.inj hfinish)
  exact bind_eq_ok hplace (bind_eq_ok hpass rfl)

/-- Every live object of the part has its place, and then every humongous one. -/
theorem placeRegular_spec {c : ParallelCycle} {p : Plan} (hclasses : c.classes = t)
    (hbitmap : c.bitmap = b) (hpart : p.compacting = part)
    (hhumongous : p.humongous = h.liveStartsFrom b 0)
    (hs : Surveyed h t b live) (hm : CompactionPoint.Mustered h t b live part n)
    (hlists : n.Lists h b part) (hidle : ∀ i < h.regions.size, (h.region i).Idle)
    (hregular : ∀ i ∈ part, (h.region i).kind = .regular)
    (hen : h.Enlisted part h.layout.bottom c.state.heap)
    (hrec : c.state.forwarding.Records n h.memory c.state.heap.memory [])
    (hcode : c.state.forwarding.encoding = e) (hsaved : c.state.saved = #[]) :
    ∃ count s₁ s₂ n' tops bs vs, c.placeRegular p = .ok (count, s₁) ∧
      h.Enlisted part tops s₁.heap ∧
      s₁.placeAllHumongous t p.humongous = .ok (vs, s₂) ∧
      Forwarded h t b live part n' e c.state.heap.starts count.keptInPlace tops bs vs s₂ ∧
      count.forwarded = (Berth.moves bs).length := by
  obtain ⟨point, s₁, tops, bs, hplace, hlodged, hcounted⟩ :=
    CompactionPoint.lodged_placeAll hm hen hrec hcode hsaved
  obtain ⟨s₂, n', index, room, hrehouse, hr⟩ :=
    Rehousing.placeAll hs hm hlists hlodged hidle hregular
  have hsmall := hm.isPart.length_lt hs.tabled.toGridded
  rw [← hhumongous] at hrehouse
  refine ⟨point.count, { s₁ with heap := (point.finish s₁.heap).2 }, s₂, n', tops, bs, _, ?_,
    hlodged.enlisted, hrehouse, ?_, hcounted⟩
  · unfold placeRegular
    rw [hpart, Claimer.all_new hsmall, hclasses, hbitmap]
    exact bind_eq_ok hplace rfl
  · refine ⟨⟨hs, hm.isPart, hregular, hlodged.laid, hr.resettled⟩, hidle, hr.layout,
      hr.size, hr.headers, hr.starts.trans hlodged.starts, ?_, ?_, ?_, hr.grid, hr.compact,
      hr.records, hr.encoding, hr.saved, rfl, hlodged.chained, hlodged.fits, hlodged.free⟩
    · intro i hi
      have hbefore := hlodged.enlisted.member i hi
      by_cases hcomes : ∃ v ∈ h.rehoused t b part tops, v.Comes h.layout i
      · obtain ⟨v, hv, hvi⟩ := hcomes
        rw [hr.taken v hv i hvi, hbefore]
        rfl
      · rw [hr.other i fun v hv hvi => hcomes ⟨v, hv, hvi⟩]
        exact hbefore
    · rintro i hi ⟨v, hv, hvi⟩
      rw [hr.taken v hv i hvi, hlodged.enlisted.other i hi]
    · intro i hi hfree
      rw [hr.other i hfree]
      exact hlodged.enlisted.other i hi

/-- The forward phase finds a place for every live object. -/
theorem forward_spec {c : ParallelCycle} {p : Plan} (hclasses : c.classes = t)
    (hbitmap : c.bitmap = b) (hpart : p.compacting = part)
    (hhumongous : p.humongous = h.liveStartsFrom b 0)
    (hs : Surveyed h t b live) (hm : CompactionPoint.Mustered h t b live part n)
    (hlists : n.Lists h b part) (hidle : ∀ i < h.regions.size, (h.region i).Idle)
    (hregular : ∀ i ∈ part, (h.region i).kind = .regular)
    (hen : h.Enlisted part h.layout.bottom c.state.heap)
    (hrec : c.state.forwarding.Records n h.memory c.state.heap.memory [])
    (hcode : c.state.forwarding.encoding = e) (hsaved : c.state.saved = #[]) :
    ∃ o s n' tops bs, c.forward p = .ok (o, { c with state := s }) ∧
      Forwarded h t b live part n' e c.state.heap.starts o.count.keptInPlace tops bs o.humongous
        s ∧ o.count.forwarded = (Berth.moves bs).length := by
  obtain ⟨count, s₁, s₂, n', tops, bs, vs, hrun, -, hpass, hf, hcounted⟩ :=
    placeRegular_spec hclasses hbitmap hpart hhumongous hs hm hlists hidle hregular hen hrec hcode
      hsaved
  exact ⟨_, s₂, n', tops, bs, forward_eq_ok hrun (hclasses ▸ hpass), hf, hcounted⟩

namespace Forwarded

variable {starts : StartTable} {kept : Nat} {tops : Nat → Address} {bs : List Berth}
  {vs : List HumongousMove} {s : Relocation}

/-- Only live objects have new addresses. -/
theorem live_of_mem (hf : Forwarded h t b live part n e starts kept tops bs vs s)
    {r : Address × Address} (hr : r ∈ Berth.moves (h.places bs vs)) : live r.1 :=
  hf.housed.live_of_mem
    ((Berth.sublist_map_fst_moves _).subset (List.mem_map_of_mem hr))

/-- Recording has not changed what is read of headers. -/
theorem headerKept (hf : Forwarded h t b live part n e starts kept tops bs vs s) {a : Address}
    (ha : live a) : h.HeaderKept t a s.heap.memory :=
  hf.records.headerKept hf.housed.surveyed.toStocked hf.grid hf.compact (fun _ hr => hf.live_of_mem hr) ha

theorem sameUse (hf : Forwarded h t b live part n e starts kept tops bs vs s) :
    h.SameUse s.heap := by
  refine ⟨hf.layout, hf.size, hf.headers, fun i => ?_, fun i => ?_⟩
  all_goals
    by_cases hi : i ∈ part
    · rw [hf.member i hi]
      trivial
    · by_cases hcomes : ∃ v ∈ vs, v.Comes h.layout i
      · rw [hf.taken i hi hcomes]
        trivial
      · rw [hf.other i hi fun v hv hvi => hcomes ⟨v, hv, hvi⟩]
        trivial

/-- A table of the encoding that asks for it grows, and keeps its entries. -/
theorem growIfRequested (hf : Forwarded h t b live part n e starts kept tops bs vs s) :
    Forwarded h t b live part n e starts kept tops bs vs
      { s with forwarding := s.forwarding.growIfRequested.2 } := by
  obtain ⟨hrec, hcode⟩ := hf.records.growIfRequested
  have hover : s.forwarding.growIfRequested.2.overwritesMarks = s.forwarding.overwritesMarks := by
    rw [overwritesMarks_eq, overwritesMarks_eq, hcode]
  exact { hf with
    records := hrec
    encoding := hcode.trans hf.encoding
    saved := by
      rw [hover]
      exact hf.saved }

/-- The new address of a live object is looked up, whatever has become of words other than
its mark. -/
theorem forwardee (hf : Forwarded h t b live part n e starts kept tops bs vs s) {a : Address}
    (ha : live a) {m : Memory} (hmark : m.loadMark a = s.heap.memory.loadMark a) :
    s.forwarding.forwardee m a = .ok (if Berth.placeOf (h.places bs vs) a = a then none
      else some (Berth.placeOf (h.places bs vs) a)) := by
  have hs := hf.housed.surveyed
  obtain ⟨c, words, ho⟩ := hs.populated.object a ha
  refine Berth.forwardee_placeOf hf.records ?_ hf.housed.nodup ?_ ho.mark.notForwarded hmark
  · rw [hf.grid]
    exact hs.tabled.layout
  · rw [hf.grid]
    exact hs.isWord ha

end Forwarded

end MarkCompact.ParallelCycle
