/-
MarkCompact/Proofs/Requests.lean

One map from objects to new addresses, whatever the encoding.

An encoding is told how much will be recorded, and then it is asked to record new addresses, in
any order, and to grow in between (`Forwarding.Request`).  What comes out is a partial map: it has
the given new addresses and no others, whatever earlier collections have left in tables, arenas
and slots.  The four encodings keep the map in different places, and `Records` says where; each
announcement and each request takes it one step further.

Main results: `Idle.records_begun` (after the announcements nothing is recorded),
`Records.serve` (a request adds its new address), from the two `Idle.records_served` (so do many),
and `Idle.partial_map`.
-/
import MarkCompact.Proofs.ParallelCollection

namespace MarkCompact.Forwarding

variable {f : Forwarding} {l : Layout} {compact : Bool} {m m₀ : Memory}

/-! ### Between two collections -/

/-- The load factor of dense tables is one that a valid configuration may ask for. -/
def Bounded (f : Forwarding) : Prop :=
  match f with
  | .dense d => 0.5 ≤ d.loadFactor ∧ d.loadFactor ≤ 1.0
  | _ => True

/-- An encoding that a valid configuration has asked for, between two collections. -/
structure Idle (f : Forwarding) (l : Layout) (compact : Bool) : Prop where
  ready : f.Ready l compact
  bounded : f.Bounded

theorem idle_select {c : Config} (hc : c.Valid) {l : Layout}
    (hshift : l.regionShift = c.regionShift) :
    ∃ f, select c l = .ok f ∧ f.Idle l c.compactHeaders ∧ f.encoding = c.encoding := by
  obtain ⟨f, hselect, hready⟩ := ready_select hc hshift
  refine ⟨f, hselect, ⟨hready, ?_⟩, encoding_select hselect⟩
  unfold select at hselect
  split at hselect
  · cases hselect
    trivial
  · obtain ⟨s, -, rfl⟩ := exists_of_map_eq_ok hselect
    trivial
  · cases hselect
    trivial
  · cases hselect
    have hfactor := hc.loadFactor
    unfold Config.loadFactorInBounds at hfactor
    rw [Bool.and_eq_true, decide_eq_true_eq, decide_eq_true_eq] at hfactor
    exact hfactor

/-- A table may be announced for any number of objects that a link of the hash table can count. -/
theorem Bounded.accommodates (h : f.Bounded) {count : Nat} (hcount : count < 2 ^ 32) :
    f.Accommodates count := by
  cases f with
  | header => trivial
  | sliding s => trivial
  | hashed s => trivial
  | dense d =>
    exact RegionTable.capacityFor_le_pow h.1 h.2 (by decide) (by decide) hcount

theorem Bounded.start (h : f.Bounded) (entries : Nat) : (f.start.reserve entries).Bounded := by
  cases f <;> exact h

theorem Bounded.finish (h : f.Bounded) : f.finish.Bounded := by
  cases f <;> exact h

theorem Bounded.beginRegion {f' : Forwarding} (h : f.Bounded) {region count : Nat}
    (hrun : f.beginRegion region count = .ok f') : f'.Bounded := by
  cases f with
  | header => cases hrun; trivial
  | sliding s => cases hrun; trivial
  | hashed s => cases hrun; trivial
  | dense d =>
    unfold Forwarding.beginRegion Dense.beginRegion at hrun
    dsimp only at hrun
    split at hrun
    · cases hrun
    · cases hrun
      exact h

/-- At the beginning of a collection no object is forwarded whose mark does not say so. -/
theorem forwardee_start {a : Address} (hmark : (m.loadMark a).isForwarded = false) :
    f.start.forwardee m a = .ok none := by
  cases f with
  | header => exact congrArg Except.ok (HeaderForwarding.target_eq_none_iff.2 hmark)
  | sliding s =>
    show s.clear.target (m.loadMark a) a = _
    unfold Sliding.target
    rw [hmark]
    rfl
  | hashed s =>
    show s.start.forwardee m a = _
    unfold Hashed.forwardee
    dsimp only
    rw [hmark]
    rfl
  | dense d =>
    show Except.ok (d.clear.forwardee a) = _
    unfold Dense.forwardee Dense.clear Dense.new Dense.table
    rw [Array.getElem?_replicate]
    split <;> rfl

/-! ### Announcements -/

/-- Begins a collection: so many entries in all, and so many objects of each region. -/
def begun (f : Forwarding) (entries : Nat) (regions : List (Nat × Nat)) : Except Fault Forwarding :=
  regions.foldlM (fun f r => f.beginRegion r.1 r.2) (f.start.reserve entries)

/-- What may be announced: each region once, and no more entries than a link can count. -/
structure Announceable (l : Layout) (entries : Nat) (regions : List (Nat × Nat)) : Prop where
  entries : entries < 2 ^ 32
  nodup : (regions.map Prod.fst).Nodup
  region : ∀ r ∈ regions, r.1 < l.numRegions ∧ r.2 < 2 ^ 32

/-- What the regions `done` leave when they have been announced to the encoding `f`: `n` counts
their objects and those of no other region, and nothing is recorded. -/
structure Announces (f : Forwarding) (l : Layout) (compact : Bool) (entries : Nat) (m : Memory)
    (done : List (Nat × Nat)) (f' : Forwarding) (n : Announced) : Prop where
  layout : n.layout = l
  compact : n.compact = compact
  total : n.total = entries
  member : ∀ r ∈ done, n.expected r.1 = some r.2
  other : ∀ i, i ∉ done.map Prod.fst → n.expected i = none
  records : f'.Records n m m []
  encoding : f'.encoding = f.encoding
  bounded : f'.Bounded

theorem Idle.announces_start (hf : f.Idle l compact) {entries : Nat} (hentries : entries < 2 ^ 32)
    (m : Memory) :
    f.Announces l compact entries m [] (f.start.reserve entries)
      ⟨l, compact, entries, fun _ => none⟩ where
  layout := rfl
  compact := rfl
  total := rfl
  member := by simp
  other _ _ := rfl
  records := records_start (n := ⟨l, compact, entries, fun _ => none⟩) hf.ready rfl hentries m
  encoding := by cases f <;> rfl
  bounded := hf.bounded.start _

/-- One more region is announced, which leaves what has been announced before. -/
theorem Announces.snoc {entries : Nat} {done : List (Nat × Nat)} {f' : Forwarding} {n : Announced}
    (ha : f.Announces l compact entries m done f' n) (hl : l.Sound) {region count : Nat}
    (hlt : region < l.numRegions) (hcount : count < 2 ^ 32) (hnew : region ∉ done.map Prod.fst) :
    ∃ f'', f'.beginRegion region count = .ok f'' ∧
      f.Announces l compact entries m (done ++ [(region, count)]) f'' (n.announce region count) := by
  obtain ⟨f'', hrun, hrecords, hencoding⟩ := ha.records.beginRegion
    (by rwa [ha.layout]) (by rwa [ha.layout]) (ha.other region hnew)
    (ha.bounded.accommodates hcount)
  refine ⟨f'', hrun, ha.layout, ha.compact, ha.total, ?_, ?_, hrecords,
    hencoding.trans ha.encoding, ha.bounded.beginRegion hrun⟩
  · intro r hr
    rcases List.mem_append.1 hr with hr | hr
    · have hne : r.1 ≠ region := fun heq => hnew (heq ▸ List.mem_map_of_mem hr)
      exact (Function.update_of_ne hne ..).trans (ha.member r hr)
    · obtain rfl := List.mem_singleton.1 hr
      exact Function.update_self ..
  · intro i hi
    rw [List.map_append, List.mem_append, not_or] at hi
    have hne : i ≠ region := fun heq => hi.2 (by simp [heq])
    exact (Function.update_of_ne hne ..).trans (ha.other i hi.1)

/-- When a collection has begun, nothing is recorded. -/
theorem Idle.records_begun (hf : f.Idle l compact) (hl : l.Sound) {entries : Nat}
    {regions : List (Nat × Nat)} (ha : Announceable l entries regions) (m : Memory) :
    ∃ (f' : Forwarding) (n : Announced), f.begun entries regions = .ok f' ∧ n.layout = l ∧
      n.compact = compact ∧ n.total = entries ∧
      (∀ r ∈ regions, n.expected r.1 = some r.2) ∧ f'.Records n m m [] ∧
      f'.encoding = f.encoding ∧ f'.Bounded := by
  obtain ⟨f', hrun, n, hn⟩ := foldlM_induct
    (f := fun (f : Forwarding) (r : Nat × Nat) => f.beginRegion r.1 r.2)
    (fun done f' => ∃ n, f.Announces l compact entries m done f' n) regions _
    ⟨_, hf.announces_start ha.entries m⟩ (by
      rintro done ⟨region, count⟩ rest f' rfl ⟨n, hn⟩
      obtain ⟨hlt, hcount⟩ := ha.region (region, count) (by simp)
      have hnew : region ∉ done.map Prod.fst := by
        have hnodup := ha.nodup
        rw [List.map_append, List.map_cons] at hnodup
        exact fun hmem => (List.nodup_append.1 hnodup).2.2 _ hmem _ (by simp) rfl
      obtain ⟨f'', hrun, hn'⟩ := hn.snoc hl hlt hcount hnew
      exact ⟨f'', hrun, _, hn'⟩)
  exact ⟨f', n, hrun, hn.layout, hn.compact, hn.total, hn.member, hn.records, hn.encoding,
    hn.bounded⟩

/-! ### Requests -/

/-- What an encoding is asked for once a collection has begun. -/
inductive Request where
  /-- To give an object a new address. -/
  | forward (object target : Address)
  /-- To grow, if that has been asked for. -/
  | grow
  deriving DecidableEq, Repr

/-- The new address that a request gives. -/
def Request.move? : Request → Option (Address × Address)
  | .forward a v => some (a, v)
  | .grow => none

/-- The new addresses that requests give. -/
def given (requests : List Request) : List (Address × Address) := requests.filterMap Request.move?

/-- Meets a request. -/
def serve (s : Forwarding × Memory) : Request → Except Fault (Forwarding × Memory)
  | .forward a v => s.1.forwardTo s.2 a v
  | .grow => .ok (s.1.growIfRequested.2, s.2)

theorem Bounded.serve {f' : Forwarding} {m' : Memory} (h : f.Bounded) {request : Request}
    (hrun : Forwarding.serve (f, m) request = .ok (f', m')) : f'.Bounded := by
  cases request with
  | grow =>
    obtain ⟨rfl, -⟩ := Prod.mk.inj (Except.ok.inj hrun)
    -- growing changes no number that the bound speaks of
    cases f <;> exact h
  | forward a v =>
    change f.forwardTo m a v = .ok (f', m') at hrun
    cases f with
    | header => cases hrun; trivial
    | sliding s =>
      obtain ⟨⟨s', m''⟩, -, heq⟩ := exists_of_map_eq_ok hrun
      cases heq
      trivial
    | hashed s =>
      obtain ⟨⟨s', m''⟩, -, heq⟩ := exists_of_map_eq_ok hrun
      cases heq
      trivial
    | dense d =>
      obtain ⟨d', hput, heq⟩ := exists_of_map_eq_ok hrun
      cases heq
      unfold Dense.forwardTo at hput
      dsimp only at hput
      split at hput
      · obtain ⟨t, -, heq⟩ := exists_of_bind_eq_ok hput
        cases heq
        exact h
      · cases hput

/-- The new addresses that may be given: each object gets one, and what an encoding has to know
of them has been announced. -/
structure Servable (e : Encoding) (l : Layout) (entries : Nat) (regions : List (Nat × Nat))
    (moves : List (Address × Address)) : Prop where
  words : ∀ r ∈ moves, l.IsWord r.1 ∧ l.IsWord r.2
  nodup : (moves.map Prod.fst).Nodup
  entries : e = .hashed → moves.length ≤ entries
  announced : e = .dense → ∀ r ∈ moves, ∃ k, (l.indexOf r.1, k) ∈ regions ∧
    (movesOf l moves (l.indexOf r.1)).length ≤ k
  /-- The objects of one region go to two regions. -/
  targets : e = .sliding → ∀ region, ∃ i j, ∀ r ∈ moves, l.indexOf r.1 = region →
    l.indexOf r.2 = i ∨ l.indexOf r.2 = j

/-- An object that may be given a new address can be given it after those before it. -/
theorem Servable.admits {n : Announced} {done rest : List (Address × Address)} {a v : Address}
    {entries : Nat} {regions : List (Nat × Nat)}
    (hs : Servable f.encoding n.layout entries regions (done ++ (a, v) :: rest))
    (htotal : n.total = entries) (hin : ∀ r ∈ regions, n.expected r.1 = some r.2)
    (hclean : (m₀.loadMark a).Clean) : f.Admits n m₀ done a v := by
  have hmem : (a, v) ∈ done ++ (a, v) :: rest := by simp
  obtain ⟨hsource, htarget⟩ := hs.words _ hmem
  refine ⟨hsource, htarget, ?_, hclean, fun he => ?_, fun he => ?_, fun limit hlimit => ?_⟩
  · have hnodup := hs.nodup
    rw [List.map_append, List.map_cons] at hnodup
    exact fun hold => (List.nodup_append.1 hnodup).2.2 _ hold _ (by simp) rfl
  · have := hs.entries he
    rw [List.length_append, List.length_cons] at this
    omega
  · -- the whole list fits what has been announced for the region, and this object is not in `done`
    obtain ⟨k, hk, hroom⟩ := hs.announced he _ hmem
    refine ⟨k, hin _ hk, ?_⟩
    unfold movesOf at hroom ⊢
    dsimp only at hroom
    rw [List.filter_append, List.filter_cons_of_pos (by simp), List.length_append,
      List.length_cons] at hroom
    omega
  · rw [targetsPerRegion_eq] at hlimit
    split at hlimit
    · rename_i he
      obtain rfl := Option.some.inj hlimit
      -- all objects of the region go to two regions, so a third one is never asked for
      obtain ⟨i, j, htwo⟩ := hs.targets he (n.layout.indexOf a)
      have hpair : ∀ r ∈ done ++ (a, v) :: rest, n.layout.indexOf r.1 = n.layout.indexOf a →
          n.layout.indexOf r.2 ∈ [i, j] := fun r hr heq => by simpa using htwo r hr heq
      refine mem_targetsOf_or_lt (fun k hk => ?_) (hpair _ hmem rfl)
      obtain ⟨r, hr, heq, rfl⟩ := exists_of_mem_targetsOf hk
      exact hpair r (List.mem_append_left _ hr) heq
    · cases hlimit

/-- A request adds the new address that it gives. -/
theorem Records.serve {n : Announced} {done rest : List (Address × Address)} {entries : Nat}
    {regions : List (Nat × Nat)} (h : f.Records n m₀ m done) (hl : n.layout.Sound)
    {request : Request}
    (hs : Servable f.encoding n.layout entries regions (done ++ given [request] ++ rest))
    (htotal : n.total = entries) (hin : ∀ r ∈ regions, n.expected r.1 = some r.2)
    (hclean : ∀ r ∈ given [request], (m₀.loadMark r.1).Clean) :
    ∃ f' m', Forwarding.serve (f, m) request = .ok (f', m') ∧
      f'.Records n m₀ m' (done ++ given [request]) ∧ f'.encoding = f.encoding := by
  cases request with
  | forward a v =>
    have hgiven : given [.forward a v] = [(a, v)] := rfl
    rw [hgiven] at hs hclean ⊢
    rw [List.append_assoc] at hs
    exact h.forwardTo hl (hs.admits htotal hin (hclean (a, v) (by simp)))
  | grow =>
    obtain ⟨hrec, hcode⟩ := h.growIfRequested
    refine ⟨_, _, rfl, ?_, hcode⟩
    rw [show given [.grow] = [] from rfl, List.append_nil]
    exact hrec

/-- Requests that may be made are met, and their new addresses are recorded. -/
theorem Idle.records_served (hf : f.Idle l compact) (hl : l.Sound) {entries : Nat}
    {regions : List (Nat × Nat)} (ha : Announceable l entries regions) {requests : List Request}
    (hs : Servable f.encoding l entries regions (given requests)) (m : Memory)
    (hclean : ∀ r ∈ given requests, (m.loadMark r.1).Clean) :
    ∃ (f₀ f' : Forwarding) (m' : Memory) (n : Announced), f.begun entries regions = .ok f₀ ∧
      requests.foldlM serve (f₀, m) = .ok (f', m') ∧ n.layout = l ∧ n.compact = compact ∧
      f'.Records n m m' (given requests) ∧ f'.encoding = f.encoding ∧ f'.Bounded := by
  obtain ⟨f₀, n, hbegun, rfl, rfl, htotal, hin, hrec, hcode, hbounded⟩ := hf.records_begun hl ha m
  obtain ⟨⟨f', m'⟩, hrun, hrec', hcode', hbounded'⟩ := foldlM_induct (f := serve)
    (fun done s => s.1.Records n m s.2 (given done) ∧ s.1.encoding = f.encoding ∧ s.1.Bounded)
    requests (f₀, m) ⟨hrec, hcode, hbounded⟩ (by
      rintro done request rest ⟨g, m'⟩ rfl ⟨hrec, hcode, hbounded⟩
      -- a request to grow gives no new address, so what is given is split by requests, not by
      -- entries
      have hgiven : given (done ++ request :: rest)
          = given done ++ given [request] ++ given rest := by
        unfold given
        rw [← List.filterMap_append, ← List.filterMap_append, List.append_assoc]
        rfl
      rw [hgiven] at hs hclean
      rw [← hcode] at hs
      obtain ⟨g', m'', hserve, hrec', hcode'⟩ := hrec.serve hl hs htotal hin fun r hr =>
        hclean r (List.mem_append_left _ (List.mem_append_right _ hr))
      refine ⟨(g', m''), hserve, ?_, hcode'.trans hcode, hbounded.serve hserve⟩
      unfold given at hrec' ⊢
      rwa [List.filterMap_append])
  exact ⟨f₀, f', m', n, hbegun, hrun, rfl, rfl, hrec', hcode', hbounded'⟩

/-! ### The map -/

/-- What is found in the memory `m` is the map `moves`, for objects whose marks were clean in the
memory `m₀`. -/
structure Maps (f : Forwarding) (l : Layout) (m₀ m : Memory) (moves : List (Address × Address)) :
    Prop where
  given : ∀ a v, (a, v) ∈ moves → f.forwardee m a = .ok (some v) ∧ f.isForwarded m a = true
  other : ∀ a, l.IsWord a → (m₀.loadMark a).Clean → a ∉ moves.map Prod.fst →
    f.forwardee m a = .ok none ∧ f.isForwarded m a = false

theorem Records.maps {n : Announced} {moves : List (Address × Address)}
    (h : f.Records n m₀ m moves) (hl : n.layout.Sound) : f.Maps n.layout m₀ m moves := by
  refine ⟨fun a v hmem => ?_, fun a ha hclean hnew => ?_⟩
  · have hfound := h.forwardee_of_mem hl hmem (Eq.refl (m.loadMark a))
    exact ⟨hfound, isForwarded_of_forwardee hfound⟩
  · have hmark : (m.loadMark a).isForwarded = false := by
      unfold Memory.loadMark
      rw [h.elsewhere a hnew]
      exact hclean.notForwarded
    have hfound := h.forwardee_of_notMem hl ha hnew hmark
    exact ⟨hfound, isForwarded_of_forwardee hfound⟩

/-- After any requests that may be made an encoding is the map that they give, and has written
nothing but the marks of the objects in it: their classes and what is known of their hashes can
still be read.  When it has ended and begins anew, the map is empty. -/
theorem Idle.partial_map (hf : f.Idle l compact) (hl : l.Sound) {entries : Nat}
    {regions : List (Nat × Nat)} (ha : Announceable l entries regions) {requests : List Request}
    (hs : Servable f.encoding l entries regions (given requests)) (m : Memory)
    (hclean : ∀ r ∈ given requests, (m.loadMark r.1).Clean) :
    ∃ f₀ f' m', f.begun entries regions = .ok f₀ ∧
      requests.foldlM serve (f₀, m) = .ok (f', m') ∧ f'.Maps l m m' (given requests) ∧
      (∀ x, x ∉ (given requests).map Prod.fst → m'.load x = m.load x) ∧
      (f.encoding = .dense → m' = m) ∧
      (compact = true → ∀ a, (m'.loadMark a).classId = (m.loadMark a).classId ∧
        (m'.loadMark a).isHashed = (m.loadMark a).isHashed ∧
        (m'.loadMark a).isExpanded = (m.loadMark a).isExpanded) ∧
      (∀ (m'' : Memory) (a : Address), (m''.loadMark a).Clean →
        f'.finish.start.forwardee m'' a = .ok none ∧
        f'.finish.start.isForwarded m'' a = false) ∧
      f'.finish.Idle l compact := by
  obtain ⟨f₀, f', m', n, hbegun, hrun, rfl, rfl, hrec', hcode', hbounded'⟩ :=
    hf.records_served hl ha hs m hclean
  refine ⟨f₀, f', m', hbegun, hrun, hrec'.maps hl, hrec'.elsewhere, fun he => ?_, fun hc a => ?_,
    fun m'' a hmark => ?_, hrec'.ready_finish, hbounded'.finish⟩
  · refine hrec'.intact ?_
    rw [overwritesMarks_eq, hcode', he]
    rfl
  · have hkept := hrec'.kept hl hc a
    exact ⟨Mark.classId_congr (and_eq_of_subset hkept (by decide)),
      Mark.isHashed_congr (and_eq_of_subset hkept (by decide)),
      Mark.isExpanded_congr (and_eq_of_subset hkept (by decide))⟩
  · have hfound := forwardee_start (f := f'.finish) hmark.notForwarded
    exact ⟨hfound, isForwarded_of_forwardee hfound⟩

/-- Two objects of one region go to two regions, the upper one first. -/
theorem partial_map_sliding : ∃ (f : Forwarding) (l : Layout) (m : Memory)
    (requests : List Request), f.Idle l true ∧ f.encoding = .sliding ∧ l.Sound ∧
      Announceable l 2 [] ∧ Servable f.encoding l 2 [] (given requests) ∧
      (∀ r ∈ given requests, (m.loadMark r.1).Clean) ∧
      given requests = [(0x10120, 0x10000), (0x10100, 0x10080)] ∧
      ∃ f₀ f' m', f.begun 2 [] = .ok f₀ ∧ requests.foldlM serve (f₀, m) = .ok (f', m') ∧
        f'.Maps l m m' (given requests) := by
  let config : Config :=
    { compactHeaders := true, regionShift := 4, numRegions := 4, blockShift := 2 }
  let l : Layout := ⟨0x10000, 4, 4⟩
  let requests : List Request := [.forward 0x10120 0x10000, .grow, .forward 0x10100 0x10080]
  let m : Memory := ⟨0x10000, 0x1000, ∅⟩
  have hv : config.Valid := by decide
  have hl : l.Sound := Heap.sound_new hv (by decide)
  obtain ⟨f, -, hf, hcode⟩ := idle_select (l := l) hv rfl
  have hclean : ∀ r ∈ given requests, (m.loadMark r.1).Clean := by
    intro r _
    have hzero : m.loadMark r.1 = ⟨0⟩ := congrArg Mark.mk Std.HashMap.getD_empty
    rw [hzero]
    exact ⟨by decide, by decide⟩
  have ha : Announceable l 2 [] := ⟨by decide, by decide, by simp⟩
  have hs : Servable f.encoding l 2 [] (given requests) := by
    rw [hcode]
    refine ⟨?_, by decide, fun he => ?_, fun he => ?_, fun _ region => ⟨0, 1, ?_⟩⟩
    · intro r hr
      rcases List.mem_pair.1 hr with rfl | rfl <;> decide
    · cases he
    · cases he
    · intro r hr _
      rcases List.mem_pair.1 hr with rfl | rfl
      · exact .inl (by decide)
      · exact .inr (by decide)
  obtain ⟨f₀, f', m', hbegun, hrun, hmaps, -⟩ := hf.partial_map hl ha hs m hclean
  exact ⟨f, l, m, requests, hf, hcode, hl, ha, hs, hclean, rfl, f₀, f', m', hbegun, hrun, hmaps⟩

end MarkCompact.Forwarding
