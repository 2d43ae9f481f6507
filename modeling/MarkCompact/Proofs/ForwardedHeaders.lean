/-
MarkCompact/Proofs/ForwardedHeaders.lean

What is read through the header of an object that has been given a new address.

The size of an object is read three times: when a place is chosen for it, with its header
intact, when its move is planned, through whatever has been written over the mark by then, and,
if it is humongous, from the mark that was read at first.  All three have to agree, or objects
would be moved over each other.  They do because no encoding writes a bit of which class, size
and new mark are made (`Heap.HeaderKept`), and because a mark that is left alone is all there.

Main result: `Forwarding.Idle.forwarded_headers` (for all requests that may be made of any
encoding).
-/
import MarkCompact.Proofs.Requests
import MarkCompact.Proofs.Contents

namespace MarkCompact

namespace Heap

variable {h g : Heap} {t : ClassTable} {a v : Address} {intact : Bool}

/-- What a collection reads in the header of the object at `a` is the same in `g`. -/
structure ReadsAlike (h : Heap) (t : ClassTable) (a : Address) (intact : Bool) (g : Heap) :
    Prop where
  classOf : g.classOf t a = h.classOf t a
  size : g.size t a = h.size t a
  copySize : ∀ moving, g.copySize t a (g.memory.loadMark a) moving
    = h.copySize t a (h.memory.loadMark a) moving
  mark : ∀ grown, relocatedMark (g.memory.loadMark a) g.compactHeaders grown intact
    = relocatedMark (h.memory.loadMark a) h.compactHeaders grown intact

/-- The header of the object at `a` is that of `h`, word for word. -/
structure SameHeader (h : Heap) (t : ClassTable) (a : Address) (g : Heap) : Prop where
  compactHeaders : g.compactHeaders = h.compactHeaders
  words : ∀ k < t.headerWords.toNat, g.memory.load (a.nth k) = h.memory.load (a.nth k)

/-- A kept header is read like the one before, if the mark is either made anew or all there. -/
theorem HeaderKept.readsAlike (hk : h.HeaderKept t a g.memory)
    (hheaders : g.compactHeaders = h.compactHeaders) (htable : t.compactHeaders = h.compactHeaders)
    (hintact : intact = true → g.memory.loadMark a = h.memory.loadMark a) :
    h.ReadsAlike t a intact g := by
  refine ⟨hk.classOf, hk.size, fun moving => ?_, fun grown => ?_⟩
  · cases moving with
    | false => rw [copySize_staying, copySize_staying, hk.size]
    | true => exact hk.copySize hheaders htable
  · unfold relocatedMark
    cases intact with
    | true => rw [hintact rfl, if_pos rfl, if_pos rfl]
    | false =>
      rw [hheaders]
      exact Mark.relocated_congr grown fun hc => hk.mark (htable.trans hc)

namespace SameHeader

variable (hsame : h.SameHeader t a g)
include hsame

theorem mark : g.memory.loadMark a = h.memory.loadMark a := by
  have h0 := hsame.words 0 t.headerWords_pos
  rw [Address.nth_zero] at h0
  exact congrArg Mark.mk h0

theorem headerKept : h.HeaderKept t a g.memory :=
  ⟨fun _ => by rw [hsame.mark], fun k _ hk => hsame.words k hk⟩

theorem size : g.size t a = h.size t a := hsame.headerKept.size

theorem copySize (htable : t.compactHeaders = h.compactHeaders) :
    g.copySize t a (g.memory.loadMark a) true = h.copySize t a (h.memory.loadMark a) true :=
  hsame.headerKept.copySize hsame.compactHeaders htable

end SameHeader

end Heap

/-! ### Where sizes are read -/

/-- A compaction point leaves as much room for an object that moves as its header asks for. -/
theorem CompactionPoint.place_words {p p' : CompactionPoint} {s s' : Relocation} {t : ClassTable}
    {a : Address} {size : WordCount} {o : PlacedObject}
    (hplace : p.place s t a size = .ok (o, p', s')) (hmoved : o.moved = true) :
    s.heap.copySize t a (s.heap.memory.loadMark a) true = .ok o.words := by
  unfold CompactionPoint.place at hplace
  split at hplace
  · cases hplace
  · obtain ⟨copySize, hcopy, hplace⟩ := exists_of_bind_eq_ok hplace
    obtain ⟨⟨p₁, h₁⟩, -, hplace⟩ := exists_of_bind_eq_ok hplace
    obtain ⟨⟨p₂, h₂⟩, -, hplace⟩ := exists_of_bind_eq_ok hplace
    dsimp only at hplace
    by_cases htop : p₂.top ≠ a
    · rw [if_pos htop] at hplace
      obtain ⟨⟨p₃, s₃⟩, -, hplace⟩ := exists_of_bind_eq_ok hplace
      cases hplace
      rw [hcopy, wordsAt, if_neg htop]
    · rw [if_neg htop] at hplace
      cases hplace
      exact absurd (of_decide_eq_true hmoved) htop

/-- What is kept of a humongous object is what its header says. -/
theorem Relocation.placeHumongous_reads {s s' : Relocation} {t : ClassTable}
    {room room' : CompactionPoint} {first : Nat} {x : HumongousMove}
    (hplace : s.placeHumongous t room first = .ok (some x, room', s')) :
    s.heap.size t (s.heap.region first).bottom = .ok x.size ∧
      x.mark = s.heap.memory.loadMark (s.heap.region first).bottom ∧
      s.heap.copySize t (s.heap.region first).bottom x.mark true = .ok x.copySize := by
  unfold Relocation.placeHumongous at hplace
  obtain ⟨size, hsize, hplace⟩ := exists_of_bind_eq_ok hplace
  obtain ⟨copySize, hcopy, hplace⟩ := exists_of_bind_eq_ok hplace
  dsimp only at hplace
  split at hplace
  · cases hplace
  · split at hplace
    · cases hplace
    · obtain ⟨f₁, -, hplace⟩ := exists_of_bind_eq_ok hplace
      obtain ⟨⟨f₂, m⟩, -, hplace⟩ := exists_of_bind_eq_ok hplace
      cases hplace
      exact ⟨hsize, rfl, hcopy⟩

namespace Heap

/-- The move `r` is the one that the intact header of the object at `a` asks for. -/
structure AskedFor (h : Heap) (t : ClassTable) (a v : Address) (intact : Bool) (r : MoveRecord) :
    Prop where
  source : r.source = a
  target : r.target = v
  size : h.size t a = .ok r.size
  copySize : h.copySize t a (h.memory.loadMark a) true = .ok r.copySize
  mark : r.mark = relocatedMark (h.memory.loadMark a) h.compactHeaders r.grown intact
  /-- When a place was chosen for it, so much room was left. -/
  placed : ∀ (p p' : CompactionPoint) (s s' : Relocation) (size : WordCount) (o : PlacedObject),
    h.SameHeader t a s.heap → p.place s t a size = .ok (o, p', s') → o.moved = true →
    o.words = r.copySize
  /-- If it is humongous, its move will be made alike from the mark that was read at first. -/
  humongous : ∀ (s s' : Relocation) (room room' : CompactionPoint) (first : Nat)
    (x : HumongousMove), h.SameHeader t a s.heap → (s.heap.region first).bottom = a →
    s.placeHumongous t room first = .ok (some x, room', s') →
    x.size = r.size ∧ x.copySize = r.copySize ∧
      relocatedMark x.mark h.compactHeaders x.grown intact = r.mark

/-- A move planned from the words of the header is the one it asks for. -/
theorem askedFor {h : Heap} {t : ClassTable} {a v : Address} {intact : Bool} {r : MoveRecord}
    (htable : t.compactHeaders = h.compactHeaders) (hsource : r.source = a) (htarget : r.target = v)
    (hsize : h.size t a = .ok r.size)
    (hcopy : h.copySize t a (h.memory.loadMark a) true = .ok r.copySize)
    (hmark : r.mark = relocatedMark (h.memory.loadMark a) h.compactHeaders r.grown intact) :
    h.AskedFor t a v intact r := by
  refine ⟨hsource, htarget, hsize, hcopy, hmark, ?_, ?_⟩
  · intro p p' s s' size o hsame hplace hmoved
    have hwords := CompactionPoint.place_words hplace hmoved
    rw [hsame.copySize htable, hcopy] at hwords
    exact (Except.ok.inj hwords).symm
  · rintro s s' room room' first x hsame rfl hplace
    obtain ⟨hsize', hmark', hcopy'⟩ := Relocation.placeHumongous_reads hplace
    rw [hsame.size, hsize] at hsize'
    rw [hmark', hsame.copySize htable, hcopy] at hcopy'
    have hsizes := (Except.ok.inj hsize').symm
    have hcopies := (Except.ok.inj hcopy').symm
    refine ⟨hsizes, hcopies, ?_⟩
    rw [hmark, hmark', hsame.mark, HumongousMove.grown, hsizes, hcopies]
    rfl

/-- The move that is planned through a header that still reads alike. -/
theorem ReadsAlike.recordOf {h g : Heap} {t : ClassTable} {a v : Address} {f : Forwarding}
    {size : WordCount} (hreads : h.ReadsAlike t a (!f.overwritesMarks) g)
    (htable : t.compactHeaders = h.compactHeaders)
    (hfound : f.forwardee g.memory a = .ok (some v)) (hsize : h.size t a = .ok size)
    (saved : SavedMarks) :
    ∃ r, ParallelCycle.recordOf ⟨g, f, saved⟩ t a = .ok (some r) ∧
      h.AskedFor t a v (!f.overwritesMarks) r := by
  have hcopy : ∃ moved, h.copySize t a (h.memory.loadMark a) true = .ok moved := by
    rw [copySize_moving, hsize]
    exact ⟨_, rfl⟩
  obtain ⟨moved, hcopy⟩ := hcopy
  refine ⟨⟨a, v, size, moved, relocatedMark (g.memory.loadMark a) g.compactHeaders (size < moved)
    (!f.overwritesMarks)⟩, ?_, askedFor htable rfl rfl hsize hcopy (hreads.mark _)⟩
  refine bind_eq_ok hfound (bind_eq_ok ((hreads.size).trans hsize)
    (bind_eq_ok ((hreads.copySize true).trans hcopy) rfl))

end Heap

namespace Forwarding

variable {f : Forwarding} {h : Heap} {t : ClassTable}

/-- No object begins in the header of another. -/
def HeadersApart (t : ClassTable) (moves : List (Address × Address)) : Prop :=
  ∀ r ∈ moves, ∀ r' ∈ moves, ∀ k, 0 < k → k < t.headerWords.toNat → r.1.nth k ≠ r'.1

/-- Recording new addresses keeps the headers of their objects. -/
theorem Records.headerKept_of_apart {n : Announced} {m : Memory} {moves : List (Address × Address)}
    (hr : f.Records n h.memory m moves) (hl : n.layout.Sound)
    (hcompact : t.compactHeaders = n.compact) (hapart : HeadersApart t moves) {a v : Address}
    (hmem : (a, v) ∈ moves) : h.HeaderKept t a m := by
  refine ⟨fun hc => hr.kept hl (hcompact.symm.trans hc) a, fun k h0 hk => hr.elsewhere _ ?_⟩
  intro hin
  obtain ⟨r', hr', heq⟩ := List.mem_map.1 hin
  exact hapart _ hmem r' hr' k h0 hk heq.symm

/-- Whatever requests are met by whatever encoding, the headers of the objects that have been
given new addresses are read as before, and their moves are planned as they ask for. -/
theorem Idle.forwarded_headers (hf : f.Idle h.layout h.compactHeaders) (hl : h.layout.Sound)
    (htable : t.compactHeaders = h.compactHeaders) {entries : Nat} {regions : List (Nat × Nat)}
    (ha : Announceable h.layout entries regions) {requests : List Request}
    (hs : Servable f.encoding h.layout entries regions (given requests))
    (hclean : ∀ r ∈ given requests, (h.memory.loadMark r.1).Clean)
    (hapart : HeadersApart t (given requests)) :
    ∃ f₀ f' m', f.begun entries regions = .ok f₀ ∧
      requests.foldlM serve (f₀, h.memory) = .ok (f', m') ∧
      f'.overwritesMarks = f.overwritesMarks ∧
      ∀ a v, (a, v) ∈ given requests →
        h.ReadsAlike t a (!f.overwritesMarks) (h.withMemory m') ∧
        ∀ saved size, h.size t a = .ok size →
          ∃ r, ParallelCycle.recordOf ⟨h.withMemory m', f', saved⟩ t a = .ok (some r) ∧
            h.AskedFor t a v (!f.overwritesMarks) r := by
  obtain ⟨f₀, f', m', n, hbegun, hrun, hlayout, hcompact, hrec, hcode, -⟩ :=
    hf.records_served hl ha hs h.memory hclean
  have hsound : n.layout.Sound := hlayout ▸ hl
  have hwrites : f'.overwritesMarks = f.overwritesMarks := by
    rw [overwritesMarks_eq, overwritesMarks_eq, hcode]
  refine ⟨f₀, f', m', hbegun, hrun, hwrites, fun a v hmem => ?_⟩
  rw [← hwrites]
  have hkept := hrec.headerKept_of_apart hsound (htable.trans hcompact.symm) hapart hmem
  have hintact : (!f'.overwritesMarks) = true → m'.loadMark a = h.memory.loadMark a := by
    intro hkeeps
    rw [hrec.intact (Bool.not_eq_true' _ ▸ hkeeps)]
  have hreads : h.ReadsAlike t a (!f'.overwritesMarks) (h.withMemory m') :=
    Heap.HeaderKept.readsAlike hkept rfl htable hintact
  exact ⟨hreads, fun saved size hsize =>
    hreads.recordOf htable (hrec.forwardee_of_mem hsound hmem rfl) hsize saved⟩

/-- A hashed object of three words goes to a new address, where it takes four. -/
theorem forwarded_headers_hashed : ∃ (f : Forwarding) (h : Heap) (t : ClassTable)
    (requests : List Request), f.Idle h.layout h.compactHeaders ∧ f.encoding = .hashed ∧
      h.layout.Sound ∧ t.compactHeaders = h.compactHeaders ∧ Announceable h.layout 1 [] ∧
      Servable f.encoding h.layout 1 [] (given requests) ∧
      (∀ r ∈ given requests, (h.memory.loadMark r.1).Clean) ∧ HeadersApart t (given requests) ∧
      ∃ f' m' r, ParallelCycle.recordOf ⟨h.withMemory m', f', #[]⟩ t 0x10100 = .ok (some r) ∧
        r = ⟨0x10100, 0x10000, 3, 4, ⟨0x181⟩⟩ := by
  let config : Config :=
    { compactHeaders := true, regionShift := 4, numRegions := 4, blockShift := 2,
      forwarding := some .hashed }
  let l : Layout := ⟨0x10000, 4, 4⟩
  let h : Heap :=
    { memory := (⟨l.base, 0x1000, ∅⟩ : Memory).storeMark 0x10100 ⟨0x81⟩
      layout := l
      regions := #[]
      starts := .new l
      compactHeaders := true }
  let t : ClassTable := ⟨true, #[⟨"Triple", 3, []⟩]⟩
  let requests : List Request := [.forward 0x10100 0x10000]
  have hv : config.Valid := by decide
  have hl : h.layout.Sound := Heap.sound_new hv (by decide)
  obtain ⟨f, -, hf, hcode⟩ := idle_select (l := h.layout) hv rfl
  have hmark : h.memory.loadMark 0x10100 = ⟨0x81⟩ :=
    congrArg Mark.mk (Memory.load_store_self _ _ _)
  have hclean : ∀ r ∈ given requests, (h.memory.loadMark r.1).Clean := by
    intro r hr
    obtain rfl := List.mem_singleton.1 hr
    rw [hmark]
    exact ⟨by decide, by decide⟩
  have ha : Announceable h.layout 1 [] := ⟨by decide, by decide, by simp⟩
  have hs : Servable f.encoding h.layout 1 [] (given requests) := by
    rw [hcode]
    refine ⟨?_, by decide, fun _ => by decide, fun he => (by cases he), fun he => (by cases he)⟩
    intro r hr
    obtain rfl := List.mem_singleton.1 hr
    decide
  have hapart : HeadersApart t (given requests) := by
    intro r _ r' _ k h0 hk
    exact absurd (show k < 1 from hk) (by omega)
  have hsize : h.size t 0x10100 = .ok 3 := by
    unfold Heap.size Heap.infoOf Heap.classOf
    rw [hmark]
    rfl
  have hcopy : h.copySize t 0x10100 (h.memory.loadMark 0x10100) true = .ok 4 := by
    rw [Heap.copySize_moving, hsize, hmark]
    rfl
  obtain ⟨f₀, f', m', -, -, -, hreads⟩ := hf.forwarded_headers hl rfl ha hs hclean hapart
  obtain ⟨-, hrecord⟩ := hreads 0x10100 0x10000 (by decide)
  obtain ⟨r, hrecord, hr⟩ := hrecord #[] 3 hsize
  refine ⟨f, h, t, requests, hf, hcode, hl, rfl, ha, hs, hclean, hapart, f', m', r, hrecord, ?_⟩
  have hsizes := Except.ok.inj (hr.size.symm.trans hsize)
  have hcopies := Except.ok.inj (hr.copySize.symm.trans hcopy)
  have hwrites : f.overwritesMarks = true := by
    rw [overwritesMarks_eq, hcode]
    rfl
  have hnew : r.mark = ⟨0x181⟩ := by
    rw [hr.mark, hmark, hwrites, MoveRecord.grown, hsizes, hcopies]
    rfl
  calc r = ⟨r.source, r.target, r.size, r.copySize, r.mark⟩ := rfl
    _ = ⟨0x10100, 0x10000, 3, 4, ⟨0x181⟩⟩ := by
      rw [hr.source, hr.target, hsizes, hcopies, hnew]

end Forwarding

end MarkCompact
