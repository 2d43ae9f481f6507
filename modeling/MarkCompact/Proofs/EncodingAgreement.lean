/-
MarkCompact/Proofs/EncodingAgreement.lean

Encodings agree.

Where objects go is decided by the objects alone, as long as none is kept in place: berths are
laid out one behind the other, and humongous objects take the first run with room.  The region
table and the table of starts at the end follow from that.  What headers say at new places is
what they said before, so that two marks can differ in their age only (`Mark.Carried.agree`).

Main result: `Collector.collect_encodings_agree`.
-/
import MarkCompact.Proofs.ParallelCollection

namespace MarkCompact

/-! ### Words under masks -/

theorem and_or_eq {a b k l : Word} (hk : a &&& k = b &&& k) (hl : a &&& l = b &&& l) :
    a &&& (k ||| l) = b &&& (k ||| l) := by
  rw [UInt64.and_comm a, UInt64.and_comm b, or_and_distrib, or_and_distrib, UInt64.and_comm k,
    UInt64.and_comm l, UInt64.and_comm k, UInt64.and_comm l, hk, hl]

/-- One bit is set or it is not. -/
theorem and_bit {k : Word} {i : Nat} (hk : k.toNat = 2 ^ i) (a : Word) :
    a &&& k = 0 ∨ a &&& k = k := by
  have hand : (a &&& k).toNat = (a.toNat.testBit i).toNat * 2 ^ i := by
    rw [UInt64.toNat_and, hk, Nat.and_two_pow]
  cases hbit : a.toNat.testBit i with
  | false =>
    refine .inl (UInt64.toNat_inj.1 ?_)
    rw [hand, hbit, Bool.toNat_false, Nat.zero_mul]
    rfl
  | true =>
    refine .inr (UInt64.toNat_inj.1 ?_)
    rw [hand, hbit, Bool.toNat_true, Nat.one_mul, hk]

theorem and_bit_congr {k : Word} {i : Nat} (hk : k.toNat = 2 ^ i) {a b : Word}
    (h : (a &&& k != 0) = (b &&& k != 0)) : a &&& k = b &&& k := by
  rcases and_bit hk a with ha | ha
  · rw [ha] at h
    have hb : b &&& k = 0 := by simpa using h.symm
    rw [ha, hb]
  · rcases and_bit hk b with hb | hb
    · rw [hb] at h
      have ha : a &&& k = 0 := by simpa using h
      rw [ha, hb]
    · rw [ha, hb]

/-- A field of at most 32 bits is known from what is read of it. -/
theorem and_field_congr {k : Word} {s : Nat} (hs : s < 64) (hlow : k.toNat % 2 ^ s = 0)
    (hhigh : k.toNat < 2 ^ (s + 32)) {a b : Word}
    (h : ((a &&& k) >>> s.toUInt64).toUInt32 = ((b &&& k) >>> s.toUInt64).toUInt32) :
    a &&& k = b &&& k := by
  have hread : ∀ c : Word, (c &&& k).toNat
      = ((c &&& k) >>> s.toUInt64).toUInt32.toNat * 2 ^ s := by
    intro c
    have hshift : s.toUInt64.toNat % 64 = s := by
      rw [show s.toUInt64.toNat = s from Nat.mod_eq_of_lt (by omega)]
      omega
    have hmod : (c &&& k).toNat % 2 ^ s = 0 := by
      rw [UInt64.toNat_and, Nat.and_mod_two_pow, hlow, Nat.and_zero]
    have hle : (c &&& k).toNat ≤ k.toNat := by
      rw [UInt64.toNat_and]
      exact Nat.and_le_right
    have hlt : (c &&& k).toNat / 2 ^ s < 2 ^ 32 := by
      rw [Nat.div_lt_iff_lt_mul (Nat.two_pow_pos s), ← Nat.pow_add, Nat.add_comm]
      omega
    rw [UInt64.toNat_toUInt32, UInt64.toNat_shiftRight, hshift, Nat.shiftRight_eq_div_pow,
      Nat.mod_eq_of_lt hlt]
    exact (Nat.div_mul_cancel (Nat.dvd_of_mod_eq_zero hmod)).symm
  apply UInt64.toNat_inj.1
  rw [hread a, hread b, h]

/-- What a mark says determines it, but for the age. -/
theorem Mark.Carried.agree {m m₁ m₂ : Mark} {compact grown : Bool}
    (h₁ : m.Carried m₁ compact grown) (h₂ : m.Carried m₂ compact grown) :
    m₁.raw &&& ~~~ageMask = m₂.raw &&& ~~~ageMask := by
  have hlock : m₁.raw &&& lockMask = m₂.raw &&& lockMask := h₁.lock.trans h₂.lock.symm
  have hstray : m₁.raw &&& strayMask compact = m₂.raw &&& strayMask compact :=
    h₁.proper.noStray.trans h₂.proper.noStray.symm
  have hhashed : m₁.raw &&& hashedMask = m₂.raw &&& hashedMask :=
    and_bit_congr (i := 7) rfl (h₁.hashed.trans h₂.hashed.symm)
  have hbase := and_or_eq (and_or_eq hlock hstray) hhashed
  cases compact with
  | false =>
    have hhash : m₁.raw &&& hashMask = m₂.raw &&& hashMask := by
      cases hh : m.isHashed with
      | true =>
        exact and_field_congr (s := 9) (by decide) (by decide) (by decide)
          ((h₁.hash rfl hh).trans (h₂.hash rfl hh).symm)
      | false =>
        rw [h₁.proper.hashAsked rfl (h₁.hashed.trans hh),
          h₂.proper.hashAsked rfl (h₂.hashed.trans hh)]
    have hall := and_or_eq hbase hhash
    rwa [show lockMask ||| strayMask false ||| hashedMask ||| hashMask = ~~~ageMask by decide]
      at hall
  | true =>
    have hexpanded : m₁.raw &&& expandedMask = m₂.raw &&& expandedMask :=
      and_bit_congr (i := 8) rfl (h₁.expanded.trans h₂.expanded.symm)
    have hclass : m₁.raw &&& classMask = m₂.raw &&& classMask := by
      have hid := (h₁.classId rfl).trans (h₂.classId rfl).symm
      rw [Mark.classId_eq, Mark.classId_eq] at hid
      exact and_field_congr (s := 32) (by decide) (by decide) (by decide) hid
    have hall := and_or_eq (and_or_eq hbase hexpanded) hclass
    rwa [show lockMask ||| strayMask true ||| hashedMask ||| expandedMask ||| classMask
      = ~~~ageMask by decide] at hall

/-! ### The same decisions -/

namespace Heap

variable {h : Heap} {t : ClassTable} {b : Bitmap} {part : List Nat} {tops tops' : Nat → Address}

theorem isVacant_congr (hsame : ∀ i ∈ part, tops i = tops' i) :
    h.isVacant part tops = h.isVacant part tops' := by
  funext i
  unfold isVacant
  by_cases hi : i ∈ part
  · rw [hsame i hi]
  · have hout : part.contains i = false := by simpa using hi
    rw [hout, Bool.false_and, Bool.false_and]

theorem rehoused_congr (hsame : ∀ i ∈ part, tops i = tops' i) :
    h.rehoused t b part tops = h.rehoused t b part tops' := by
  unfold rehoused
  rw [isVacant_congr hsame]

theorem finalRegion_congr (hsame : ∀ i ∈ part, tops i = tops' i) (vs : List HumongousMove)
    (i : Nat) : h.finalRegion part tops vs i = h.finalRegion part tops' vs i := by
  unfold finalRegion settledRegion
  by_cases hi : i ∈ part
  · rw [hsame i hi]
  · rw [if_neg hi, if_neg hi]

theorem finalStarts_congr (hsame : ∀ i ∈ part, tops i = tops' i) (vs : List HumongousMove)
    (s : StartTable) : h.finalStarts part tops vs s = h.finalStarts part tops' vs s := by
  unfold finalStarts settledStarts
  have hempty : part.filter (fun i => tops i = h.layout.bottom i)
      = part.filter (fun i => tops' i = h.layout.bottom i) :=
    List.filter_congr fun i hi => by rw [hsame i hi]
  rw [hempty]

end Heap

/-! ### Two collections -/

/-- Two heaps in which the objects `live` have gone to `move`: the regions, the starts of objects
and the words of these objects are the same, but for the age of those that have moved. -/
structure Heap.AgreesWith (k k' : Heap) (t : ClassTable) (live : Address → Prop)
    (move : Address → Address) : Prop where
  size : k.regions.size = k'.regions.size
  use : ∀ i, (k.region i).kind = (k'.region i).kind ∧ (k.region i).top = (k'.region i).top
  starts : k.starts = k'.starts
  words : ∀ a, live a → k.wordsAt t (move a) = k'.wordsAt t (move a)
  load : ∀ a, live a → ∀ i, 0 < i → i < k.wordsAt t (move a) →
    k.memory.load ((move a).nth i) = k'.memory.load ((move a).nth i)
  mark : ∀ a, live a → (k.memory.loadMark (move a)).raw &&& ~~~ageMask
    = (k'.memory.loadMark (move a)).raw &&& ~~~ageMask
  stays : ∀ a, live a → move a = a → k.memory.loadMark a = k'.memory.loadMark a

namespace ParallelCycle

open Forwarding

variable {h : Heap} {t : ClassTable} {b : Bitmap} {live : Address → Prop} {part : List Nat}
  {starts : StartTable} {n n' : Announced} {e e' : Encoding} {tops tops' : Nat → Address}
  {bs : List Berth} {vs : List HumongousMove} {s s' : Relocation} {release release' : Bool}

/-- If no object is kept in place, everything goes to the same place. -/
theorem Forwarded.agree {bs' : List Berth} {vs' : List HumongousMove}
    (hf : Forwarded h t b live part n e starts 0 tops bs vs s)
    (hf' : Forwarded h t b live part n' e' starts 0 tops' bs' vs' s') :
    bs = bs' ∧ vs = vs' ∧ ∀ i ∈ part, tops i = tops' i := by
  have hbs : bs = bs' := (hf.fits rfl).trans (hf'.fits rfl).symm
  have htops : ∀ i ∈ part, tops i = tops' i := fun i hi => UInt64.toNat_inj.1 (by
    rw [hf.housed.laid.tops i hi, hf'.housed.laid.tops i hi, hbs])
  refine ⟨hbs, ?_, htops⟩
  rw [hf.chosen, hf'.chosen, Heap.rehoused_congr htops]

/-- Then the heaps are the same at the end. -/
theorem Completed.agree {h₂ h₂' g g' k k' : Heap}
    (hc : Completed h t b live part n e starts 0 tops bs vs s release h₂ g k)
    (hc' : Completed h t b live part n' e' starts 0 tops' bs vs s' release' h₂' g' k')
    (htops : ∀ i ∈ part, tops i = tops' i) :
    k.AgreesWith k' t live (Berth.placeOf (h.places bs vs)) := by
  have hsize : k.regions.size = k'.regions.size := by
    rw [hc.finished.refilled.size, hc'.finished.refilled.size]
  have hregion : ∀ i, k.region i = k'.region i := by
    intro i
    by_cases hi : i < h.regions.size
    · rw [hc.finished.refilled.region i hi, hc'.finished.refilled.region i hi,
        Heap.finalRegion_congr htops]
    · rw [k.region_of_size_le (by rw [hc.finished.refilled.size]; omega),
        k'.region_of_size_le (by rw [hc'.finished.refilled.size]; omega)]
  refine ⟨hsize, fun i => by rw [hregion]; exact ⟨rfl, rfl⟩, ?_, fun a ha => ?_,
    fun a ha i h0 hi => ?_, fun a ha => (hc.carried ha).agree (hc'.carried ha),
    fun a ha hstays => ?_⟩
  · rw [hc.finished.starts, hc'.finished.starts, hc.untouched, hc'.untouched,
      hc.forwarded.starts, hc'.forwarded.starts, Heap.finalStarts_congr htops]
  · rw [hc.wordsAt_place ha, hc'.wordsAt_place ha]
  · obtain ⟨c, words, ho⟩ := hc.surveyed.populated.object a ha
    rw [hc.wordsAt_place ha, h.wordsFrom_eq] at hi
    by_cases hlast : i < h.wordsAt t a
    · by_cases hf : i.toUInt64 ∈ c.fields
      · -- a reference, which has followed in both
        have hfit := hc.surveyed.fits ha
        have hoffset : ∀ x : Address, x.nth i = x.offset i.toUInt64 := fun x => by
          rw [Address.offset_eq_nth, show i.toUInt64.toNat = i from Nat.mod_eq_of_lt (by omega)]
        rw [hoffset, hc.load_field_place ha ho hf, hc'.load_field_place ha ho hf]
      · rw [hc.load_plain_place ha ho.info h0 hlast hf,
          hc'.load_plain_place ha ho.info h0 hlast hf]
    · cases hgrows : h.growsTo a (Berth.placeOf (h.places bs vs) a) with
      | false =>
        rw [hgrows, if_neg Bool.false_ne_true] at hi
        omega
      | true =>
        rw [hgrows, if_pos rfl] at hi
        obtain rfl : i = h.wordsAt t a := by omega
        rw [hc.load_hash ha hgrows, hc'.load_hash ha hgrows]
  · rw [hc.loadMark_stays ha hstays, hc'.loadMark_stays ha hstays]

end ParallelCycle

namespace Collector

/-- The forward phase keeps no object in place that could not go to where it should. -/
def KeepsNone (c : Collector) (times : Durations) (h : Heap) (t : ClassTable) (roots : Roots) :
    Prop :=
  ∃ o, c.forwardPhase times h t roots = .ok o ∧ o.count.keptInPlace = 0

/-- Only offsets from bases keep objects in place, and only objects that grow. -/
theorem keepsNone {c : Collector} (times : Durations) {h : Heap} {t : ClassTable} {roots : Roots}
    (hw : WellFormed h t roots) (hc : c.Prepared h) (hparallel : c.config.style = .parallel)
    (hfree : h.compactHeaders = false ∨ c.forwarding.encoding ≠ .sliding) :
    c.KeepsNone times h t roots := by
  obtain ⟨r, b, p, h₁, o, n, tops, bs, s₂, h₂, g, -, hforward, -, -, hplanned, -, -, -, -, -,
    -, hcompleted⟩ := collect_parallel_completed times hw hc hparallel
  refine ⟨o, forwardPhase_of_record hforward, hcompleted.forwarded.free ?_⟩
  rwa [hplanned.ground.headers]

/-- Any two collections in the parallel style that keep no object in place agree, whatever their
encodings; and objects are kept in place by no encoding but offsets from bases, and not with
classic headers. -/
theorem collect_encodings_agree {c c' : Collector} (times times' : Durations) {h : Heap}
    {t : ClassTable} {roots : Roots} (hw : WellFormed h t roots) (hc : c.Prepared h)
    (hc' : c'.Prepared h) (hparallel : c.config.style = .parallel)
    (hparallel' : c'.config.style = .parallel) :
    (h.compactHeaders = false ∨ c.forwarding.encoding ≠ .sliding →
      c.KeepsNone times h t roots) ∧
    (c.KeepsNone times h t roots → c'.KeepsNone times' h t roots →
      ∃ r r' move, (c.collect times h t roots).outcome = .ok r ∧
        (c'.collect times' h t roots).outcome = .ok r' ∧
        Relocated h t roots r.heap r.roots move ∧ Relocated h t roots r'.heap r'.roots move ∧
        r.roots = r'.roots ∧ r.heap.AgreesWith r'.heap t (Reaches h t roots) move) := by
  refine ⟨keepsNone times hw hc hparallel, ?_⟩
  rintro ⟨o, hforward, hkept⟩ ⟨o', hforward', hkept'⟩
  obtain ⟨r, b, p, h₁, o₁, n, tops, bs, s₂, h₂, g, hrun, hrun₁, rfl, hbuild, hplanned, -, -, -, -,
    hroots, -, hcompleted⟩ := collect_parallel_completed times hw hc hparallel
  obtain ⟨r', b', p', h₁', o₁', n', tops', bs', s₂', h₂', g', hrun', hrun₁', rfl, hbuild', -, -, -, -,
    -, hroots', -, hcompleted'⟩ := collect_parallel_completed times' hw hc' hparallel'
  obtain rfl := Except.ok.inj (hforward.symm.trans (forwardPhase_of_record hrun₁))
  obtain rfl := Except.ok.inj (hforward'.symm.trans (forwardPhase_of_record hrun₁'))
  -- planning does not depend on the encoding
  obtain ⟨rfl, rfl⟩ := Prod.mk.inj (hbuild.symm.trans hbuild')
  rw [hkept] at hcompleted
  rw [hkept'] at hcompleted'
  obtain ⟨rfl, hvs, htops⟩ := hcompleted.forwarded.agree hcompleted'.forwarded
  rw [← hvs] at hroots' hcompleted'
  have hrel := hcompleted.relocated hplanned.ground
  have hrel' := hcompleted'.relocated hplanned.ground
  rw [← hroots] at hrel
  rw [← hroots'] at hrel'
  exact ⟨r, r', _, hrun, hrun', hrel, hrel', hroots.trans hroots'.symm,
    hcompleted.agree hcompleted' htops⟩

/-- Full addresses in marks and dense tables, on a heap of four regions with one object. -/
theorem collect_encodings_agree_header_dense : ∃ (h : Heap) (t : ClassTable) (a : Address)
    (c c' : Collector), WellFormed h t #[a] ∧ c.Prepared h ∧ c'.Prepared h ∧
      c.config.style = .parallel ∧ c'.config.style = .parallel ∧
      c.forwarding.encoding = .header ∧ c'.forwarding.encoding = .dense ∧
      ∃ r r' move, (c.collect ⟨fun _ => 0, 0⟩ h t #[a]).outcome = .ok r ∧
        (c'.collect ⟨fun _ => 0, 0⟩ h t #[a]).outcome = .ok r' ∧
        r.heap.AgreesWith r'.heap t (Reaches h t #[a]) move := by
  let config : Config := { regionShift := 4, numRegions := 4, blockShift := 2 }
  let dense : Config :=
    { forwarding := some .dense, regionShift := 4, numRegions := 4, blockShift := 2 }
  have hv : config.Valid := by decide
  have hv' : dense.Valid := by decide
  have hb : config.Backed 0x10000 := by decide
  obtain ⟨h, t, a, c, hw, ha, -, hconfig, hcode, hc⟩ := exists_collector hv hb (by decide)
  obtain ⟨hshift, hregions, hheaders⟩ := hc.agrees
  rw [hconfig] at hshift hregions hheaders
  obtain ⟨c', -, hconfig', hc', hcode'⟩ :=
    exists_new hv' (refusal_eq_none_iff.2 ⟨hshift, hregions, hheaders⟩)
  have hparallel : c.config.style = .parallel := by rw [hconfig]
  have hparallel' : c'.config.style = .parallel := by rw [hconfig']
  obtain ⟨hnone, hagree⟩ := collect_encodings_agree ⟨fun _ => 0, 0⟩ ⟨fun _ => 0, 0⟩ hw hc hc'
    hparallel hparallel'
  obtain ⟨r, r', move, hrun, hrun', -, -, -, hsame⟩ := hagree (hnone (.inl hheaders))
    (keepsNone _ hw hc' hparallel' (.inl hheaders))
  exact ⟨h, t, a, c, c', hw, hc, hc', hparallel, hparallel', hcode, hcode', r, r', move, hrun, hrun',
    hsame⟩

end Collector

end MarkCompact
