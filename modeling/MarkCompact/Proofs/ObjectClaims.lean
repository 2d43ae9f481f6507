/-
MarkCompact/Proofs/ObjectClaims.lean

Several claims to one object.

Workers that meet the same object each claim a new place for it, or the place where it
is.  The first claim is to win in every encoding: it is told that nobody came before, every
later one is told the winner's place, and that place is what is found from then on.
`Forwarding.Open` says that nothing has been claimed for an object and that the encoding has
room for it, `Forwarding.Claimed` that its place is settled.  A claim goes from the one to the
other (`Open.make`), and every further claim stays there (`Claimed.make`).

A hash table is the exception.  A claim to the present place leaves no entry, so the next claim
to a new place enters one before it learns from the header that it has lost, and any later one
is told that entry (`makeAll_hashed_stay`).

Main results: `Open.first_claim_wins`, and `makeAll_hashed_stay` for what a hash table does once
an object has been kept in its place.
-/
import MarkCompact.Proofs.Recording

namespace MarkCompact

/-- A claim to an object. -/
inductive ObjectClaim where
  /-- To a new place. -/
  | move (target : Address)
  /-- To the place where it is. -/
  | stay
  deriving DecidableEq, Repr

/-- The place that a claim to the object at `a` asks for. -/
def ObjectClaim.place (a : Address) : ObjectClaim → Address
  | .move v => v
  | .stay => a

/-- Whether a claim asks for a new place. -/
def ObjectClaim.isMove : ObjectClaim → Bool
  | .move _ => true
  | .stay => false

namespace Forwarding

/-- Makes a claim to an object whose mark was `expected`. -/
def make (f : Forwarding) (m : Memory) (a : Address) (expected : Mark) :
    ObjectClaim → Except Fault (Option Address × Forwarding × Memory)
  | .move v => f.claim m a v expected
  | .stay => f.claimSelf m a expected

/-- Makes claims to an object one after the other: what each of them is told, and the place of
the object that is found after it. -/
def makeAll (a : Address) (expected : Mark) :
    List ObjectClaim → Forwarding → Memory → Except Fault (List (Option Address × Option Address))
  | [], _, _ => .ok []
  | c :: cs, f, m => do
    let (told, f, m) ← f.make m a expected c
    let found ← f.forwardee m a
    let rest ← makeAll a expected cs f m
    return (told, found) :: rest

end Forwarding

/-! ### Exchanging a mark -/

/-- A forwarded mark is not replaced, and decides. -/
theorem settle_of_forwarded {m : Memory} {a : Address} {expected : Mark}
    (hexpected : expected.isForwarded = false) (hmark : (m.loadMark a).isForwarded = true)
    (new : Mark) (decode : Mark → Except Fault (Option Address)) :
    settle m a expected new decode = (decode (m.loadMark a)).map fun target => (target, m) := by
  have hne : m.load a ≠ expected.raw := by
    intro heq
    have hsame : m.loadMark a = expected := congrArg Mark.mk heq
    rw [hsame, hexpected] at hmark
    cases hmark
  have hrun : m.exchangeMark a expected new = (.error (m.loadMark a), m) := by
    unfold Memory.exchangeMark Memory.exchange
    dsimp only
    rw [if_neg hne]
    rfl
  unfold settle
  rw [hrun]
  dsimp only
  rw [if_pos hmark]

/-- The lock bits of a mark that notes no more than that its object is forwarded. -/
theorem Mark.isForwarded_withLock (m : Mark) : (m.withLock 0b11).isForwarded = true := by
  unfold Mark.isForwarded
  rw [Mark.lock_withLock]
  decide

theorem Mark.isSelfForwarded_withLock {m : Mark} (h : m.raw &&& selfMask = 0) :
    (m.withLock 0b11).isSelfForwarded = false := by
  unfold Mark.isSelfForwarded
  rw [Mark.and_withLock _ _ (by decide), h]
  simp

namespace Sliding

variable {s s' : Sliding} {l : Layout} {asked : List (Address × Address)} {regions : List Nat}

/-- All that has been asked for the objects of a region are places in a few regions. -/
structure Confined (s : Sliding) (l : Layout) (region : Nat) (regions : List Nat)
    (asked : List (Address × Address)) : Prop where
  holds : s.Holds l asked
  within : ∀ i ∈ targetsOf l asked region, i ∈ regions
  few : regions.length ≤ basesPerRegion

/-- A further place in these regions can be asked for. -/
theorem Confined.claimBase {a v : Address} (h : s.Confined l (l.indexOf a) regions asked)
    (hl : l.Sound) (ha : l.IsWord a) (hv : l.IsWord v) (hin : l.indexOf v ∈ regions) :
    ∃ slot s', s.claimBase (l.indexOf a) (l.baseOf v) = .ok (slot, s') ∧ slot < basesPerRegion ∧
      s'.Confined l (l.indexOf a) regions (asked ++ [(a, v)]) ∧
      s'.base (l.indexOf a) slot = some (l.baseOf v) ∧
      ∀ r k b, k < basesPerRegion → s.base r k = some b → s'.base r k = some b := by
  have hindex : ∀ x, l.IsWord x → l.indexOf x < l.numRegions := fun x hx =>
    hl.indexOf_lt ((hl.contains_iff x).2 ⟨hx.bottom, hx.stop⟩)
  have hroom : l.indexOf v ∈ targetsOf l asked (l.indexOf a) ∨
      (targetsOf l asked (l.indexOf a)).length < basesPerRegion :=
    (mem_targetsOf_or_lt h.within hin).imp_right h.few.trans_lt'
  obtain ⟨slot, s', hrun, hslot, hholds, hbase, hkeep⟩ :=
    h.holds.claimBase hl.addressable (hindex a ha) (hindex v hv) hroom
  refine ⟨slot, s', hrun, hslot, ⟨hholds, ?_, h.few⟩, hbase, hkeep⟩
  intro i hi
  rw [targetsOf_snoc, if_pos rfl, addTarget] at hi
  split at hi
  · exact h.within i hi
  · rcases List.mem_append.1 hi with hi | hi
    · exact h.within i hi
    · obtain rfl := List.mem_singleton.1 hi
      exact hin

/-- A mark with the place asked for. -/
theorem merge_eq {a v : Address} {slot : Nat} (hlayout : s.layout = l)
    (hclaim : s.claimBase (l.indexOf a) (l.baseOf v) = .ok (slot, s')) (mark : Mark) :
    s.merge mark a v = .ok (mergedMark mark ((l.baseOf v).wordsTo v) slot, s') := by
  unfold merge encode
  rw [hlayout]
  exact bind_eq_ok (bind_eq_ok hclaim rfl) rfl

/-- A place that is found is still found when further bases are remembered. -/
theorem target_mono (hlayout : s'.layout = s.layout)
    (hkeep : ∀ r k b, k < basesPerRegion → s.base r k = some b → s'.base r k = some b) {mark : Mark}
    {a w : Address} (hfound : s.target mark a = .ok (some w)) :
    s'.target mark a = .ok (some w) := by
  unfold target at hfound ⊢
  split
  · rename_i hnot
    rw [if_pos hnot] at hfound
    exact hfound
  · rename_i hforwarded
    rw [if_neg hforwarded] at hfound
    split
    · rename_i hself
      rw [if_pos hself] at hfound
      exact hfound
    · rename_i hself
      rw [if_neg hself] at hfound
      obtain ⟨v, hdecode, heq⟩ := exists_of_map_eq_ok hfound
      rw [decode_mono hlayout hkeep hdecode, ← heq]
      rfl

/-- An object whose mark forwards it to itself. -/
theorem target_selfForwarded (s : Sliding) (mark : Mark) (a : Address) :
    s.target mark.selfForwarded a = .ok (some a) := by
  simp [target]

theorem isForwarded_of_target {mark : Mark} {a w : Address}
    (hfound : s.target mark a = .ok (some w)) : mark.isForwarded = true := by
  cases hforwarded : mark.isForwarded with
  | true => rfl
  | false =>
    unfold target at hfound
    rw [hforwarded] at hfound
    cases hfound

end Sliding

namespace Forwarding

variable {f : Forwarding} {l : Layout} {m : Memory} {a : Address} {regions : List Nat}

/-! ### Before and after the first claim -/

/-- Nothing has been claimed for the object at `a`, and the encoding has room for it; claims may
ask for places in the given regions, which matters to offsets only. -/
def Open (f : Forwarding) (l : Layout) (a : Address) (regions : List Nat) : Prop :=
  match f with
  | .header => True
  | .sliding s => ∃ asked, s.Confined l (l.indexOf a) regions asked
  | .hashed s => ∃ entries, s.table.Holds entries ∧ a ∉ entries.map Prod.fst ∧
      entries.length < s.table.nodes.size
  | .dense d => ∃ expected moves k, d.Holds l expected moves ∧ a ∉ moves.map Prod.fst ∧
      expected (l.indexOf a) = some k ∧ (movesOf l moves (l.indexOf a)).length < k

/-- The place of the object at `a` is `w`, and every later claim learns that. -/
def Claimed (f : Forwarding) (l : Layout) (m : Memory) (a : Address) (regions : List Nat)
    (w : Address) : Prop :=
  match f with
  | .header => HeaderForwarding.target (m.loadMark a) a = some w
  | .sliding s => (∃ asked, s.Confined l (l.indexOf a) regions asked) ∧
      s.target (m.loadMark a) a = .ok (some w)
  | .hashed s => (m.loadMark a).isForwarded = true ∧ (m.loadMark a).isSelfForwarded = false ∧
      s.table.find? a = some w
  | .dense d => d.forwardee a = some w

/-- What has been recorded and announced leaves an encoding open for an object that has no new
address yet. -/
theorem Records.isOpen {n : Announced} {m₀ : Memory} {moves : List (Address × Address)}
    (h : f.Records n m₀ m moves) (hnew : a ∉ moves.map Prod.fst) (htotal : moves.length < n.total)
    (hannounced : ∃ k, n.expected (n.layout.indexOf a) = some k ∧
      (movesOf n.layout moves (n.layout.indexOf a)).length < k)
    (hwithin : ∀ i ∈ targetsOf n.layout moves (n.layout.indexOf a), i ∈ regions)
    (hfew : regions.length ≤ basesPerRegion) : f.Open n.layout a regions := by
  have henc := h.encodes
  cases f with
  | header => exact trivial
  | sliding s => exact ⟨moves, henc.1, hwithin, hfew⟩
  | hashed s => exact ⟨moves, henc.1, hnew, htotal.trans_le henc.2.1⟩
  | dense d =>
    obtain ⟨k, hk, hroom⟩ := hannounced
    exact ⟨n.expected, moves, k, henc.1, hnew, hk, hroom⟩

/-- So does a hash table with nothing in it. -/
theorem open_hashed_start {s : Hashed}
    (hbuckets : 0 < s.table.buckets.size ∧ s.table.buckets.size ≤ 2 ^ 34)
    (hnodes : 0 < s.table.nodes.size ∧ s.table.nodes.size < 2 ^ 32) :
    (hashed s.start).Open l a regions :=
  ⟨[], ForwardTable.holds_reset hbuckets hnodes.2, by simp, hnodes.1⟩

/-- The regions that claims ask for. -/
def Within (l : Layout) (regions : List Nat) (c : ObjectClaim) : Prop :=
  ∀ v, c = .move v → l.IsWord v ∧ l.indexOf v ∈ regions

theorem Claimed.forwardee {w : Address} (h : f.Claimed l m a regions w) :
    f.forwardee m a = .ok (some w) := by
  cases f with
  | header => exact congrArg Except.ok h
  | sliding s => exact h.2
  | hashed s =>
    obtain ⟨hforwarded, hself, hfind⟩ := h
    show s.forwardee m a = _
    unfold Hashed.forwardee
    dsimp only
    rw [hforwarded, hself, hfind]
    rfl
  | dense d => exact congrArg Except.ok h

/-- In the header a claim writes the target into the mark, or that there is none. -/
theorem make_header {c : ObjectClaim} (hc : Within l regions c) :
    ∃ m', header.make m a (m.loadMark a) c = .ok (none, header, m') ∧
      header.Claimed l m' a regions (c.place a) := by
  cases c with
  | move v =>
    refine ⟨m.storeMark a (.forwardedTo v), ?_, ?_⟩
    · show (settle ..).map _ = _
      rw [settle_of_unchanged rfl]
      rfl
    · show HeaderForwarding.target _ _ = _
      rw [loadMark_storeMark_self]
      exact HeaderForwarding.target_forwardedTo
        ((and_seven_eq_zero_iff v).2 (hc v rfl).1.aligned) a
  | stay =>
    refine ⟨m.storeMark a (m.loadMark a).selfForwarded, ?_, ?_⟩
    · show (settle ..).map _ = _
      rw [settle_of_unchanged rfl]
      rfl
    · show HeaderForwarding.target _ _ = _
      rw [loadMark_storeMark_self]
      exact HeaderForwarding.target_selfForwarded ..

/-- Sliding takes a slot for the base of the target, unless it has one. -/
theorem make_sliding {s : Sliding} (h : (sliding s).Open l a regions) (hl : l.Sound)
    (ha : l.IsWord a) {c : ObjectClaim} (hc : Within l regions c) :
    ∃ s' m', (sliding s).make m a (m.loadMark a) c = .ok (none, sliding s', m') ∧
      (sliding s').Claimed l m' a regions (c.place a) := by
  obtain ⟨asked, hconfined⟩ := h
  cases c with
  | move v =>
    obtain ⟨hv, hin⟩ := hc v rfl
    -- the claims go to no more regions than there are slots, so there is one for this base
    obtain ⟨slot, s', hclaim, hslot, hconfined', hbase, -⟩ :=
      hconfined.claimBase hl ha hv hin
    have hrun : s.claim m a v (m.loadMark a) = .ok (none, s', m.storeMark a
        (mergedMark (m.loadMark a) ((l.baseOf v).wordsTo v) slot)) := by
      unfold Sliding.claim
      exact bind_eq_ok (Sliding.merge_eq hconfined.holds.layout hclaim _)
        (bind_eq_ok (settle_of_unchanged rfl _ _) rfl)
    refine ⟨s', m.storeMark a (mergedMark (m.loadMark a) ((l.baseOf v).wordsTo v) slot), ?_,
      ⟨_, hconfined'⟩, ?_⟩
    · show (s.claim ..).map _ = _
      rw [hrun]
      rfl
    · rw [loadMark_storeMark_self]
      exact Sliding.target_merged hl.addressable hconfined'.holds.layout (hv.onGrid hl) hslot hbase
  | stay =>
    refine ⟨s, m.storeMark a (m.loadMark a).selfForwarded, ?_, ⟨_, hconfined⟩, ?_⟩
    · show (settle ..).map _ = _
      rw [settle_of_unchanged rfl]
      rfl
    · rw [loadMark_storeMark_self]
      exact s.target_selfForwarded ..

/-- A hash table takes one more node. -/
theorem make_hashed {s : Hashed} (h : (hashed s).Open l a regions)
    (hclear : (m.loadMark a).raw &&& selfMask = 0) (v : Address) :
    ∃ s' m', (hashed s).make m a (m.loadMark a) (.move v) = .ok (none, hashed s', m') ∧
      (hashed s').Claimed l m' a regions v := by
  obtain ⟨entries, hholds, hnew, hroom⟩ := h
  obtain ⟨t', hput, hholds', -, -⟩ := hholds.put hnew hroom v
  have hinsert : s.insert a v = .ok (none,
      { s with table := t', growRequested := s.growRequested || t'.crowded }) := by
    unfold Hashed.insert
    exact bind_eq_ok hput rfl
  have hrun : s.claim m a v (m.loadMark a) = .ok (none,
      { s with table := t', growRequested := s.growRequested || t'.crowded },
      m.storeMark a ((m.loadMark a).withLock 0b11)) := by
    unfold Hashed.claim
    refine bind_eq_ok hinsert ?_
    simp [Memory.exchangeMark, Memory.exchange, Memory.loadMark, Memory.storeMark]
    rfl
  refine ⟨{ s with table := t', growRequested := s.growRequested || t'.crowded },
    m.storeMark a ((m.loadMark a).withLock 0b11), ?_, ?_⟩
  · show (s.claim ..).map _ = _
    rw [hrun]
    rfl
  · show _ ∧ _ ∧ t'.find? a = some v
    rw [loadMark_storeMark_self]
    exact ⟨Mark.isForwarded_withLock _, Mark.isSelfForwarded_withLock hclear,
      hholds'.find?_of_mem (by simp)⟩

/-- A dense table takes one more entry, also for an object that stays. -/
theorem make_dense {d : Dense} (h : (dense d).Open l a regions) (hl : l.Sound) (ha : l.IsWord a)
    (c : ObjectClaim) :
    ∃ d', (dense d).make m a (m.loadMark a) c = .ok (none, dense d', m) ∧
      (dense d').Claimed l m a regions (c.place a) := by
  obtain ⟨expected, moves, k, hholds, hnew, hk, hroom⟩ := h
  obtain ⟨d', hrun, hholds'⟩ := hholds.forwardTo hl ha hnew hk hroom (c.place a)
  have hclaim : d.claim a (c.place a) = .ok (none, d') := by
    unfold Dense.claim
    rw [hholds.forwardee_of_notMem hl ha hnew]
    dsimp only
    rw [hrun]
    rfl
  refine ⟨d', ?_, hholds'.forwardee_of_mem hl (by simp)⟩
  cases c with
  | move v =>
    show (d.claim a v).map _ = _
    rw [show d.claim a v = .ok (none, d') from hclaim]
    rfl
  | stay =>
    show (d.claim a a).map _ = _
    rw [show d.claim a a = .ok (none, d') from hclaim]
    rfl

/-- The first claim is told that nobody came before, and settles the place of the object.  To
keep an object in its place is not settled in a hash table. -/
theorem Open.make (h : f.Open l a regions) (hl : l.Sound) (ha : l.IsWord a)
    (hclear : (m.loadMark a).raw &&& selfMask = 0) {c : ObjectClaim}
    (hc : Within l regions c) (hsettles : f.encoding = .hashed → c ≠ .stay) :
    ∃ f' m', f.make m a (m.loadMark a) c = .ok (none, f', m') ∧ f'.encoding = f.encoding ∧
      f'.Claimed l m' a regions (c.place a) := by
  cases f with
  | header =>
    obtain ⟨m', hrun, hclaimed⟩ := make_header (m := m) (a := a) hc
    exact ⟨.header, m', hrun, rfl, hclaimed⟩
  | sliding s =>
    obtain ⟨s', m', hrun, hclaimed⟩ := make_sliding (m := m) h hl ha hc
    exact ⟨.sliding s', m', hrun, rfl, hclaimed⟩
  | hashed s =>
    cases c with
    | stay => exact absurd rfl (hsettles rfl)
    | move v =>
      obtain ⟨s', m', hrun, hclaimed⟩ := make_hashed h hclear v
      exact ⟨.hashed s', m', hrun, rfl, hclaimed⟩
  | dense d =>
    obtain ⟨d', hrun, hclaimed⟩ := make_dense (m := m) h hl ha c
    exact ⟨.dense d', m, hrun, rfl, hclaimed⟩

/-- A later claim is told the place that has been settled, and changes nothing about it. -/
theorem Claimed.make {w : Address} (h : f.Claimed l m a regions w) (hl : l.Sound) (ha : l.IsWord a)
    {expected : Mark} (hexpected : expected.isForwarded = false) {c : ObjectClaim}
    (hc : Within l regions c) :
    ∃ f' m', f.make m a expected c = .ok (some w, f', m') ∧ f'.Claimed l m' a regions w := by
  cases f with
  | header =>
    -- a forwarded mark is not the expected one, so the exchange fails and the mark is read
    have hmark : (m.loadMark a).isForwarded = true := by
      by_contra hnot
      have hnone : HeaderForwarding.target (m.loadMark a) a = none :=
        HeaderForwarding.target_eq_none_iff.2 (Bool.eq_false_iff.2 hnot)
      rw [show HeaderForwarding.target (m.loadMark a) a = some w from h] at hnone
      cases hnone
    refine ⟨.header, m, ?_, h⟩
    cases c <;>
    · show (settle ..).map _ = _
      rw [settle_of_forwarded hexpected hmark,
        show HeaderForwarding.target (m.loadMark a) a = some w from h]
      rfl
  | sliding s =>
    obtain ⟨⟨asked, hconfined⟩, hfound⟩ := h
    have hmark := Sliding.isForwarded_of_target hfound
    cases c with
    | move v =>
      obtain ⟨hv, hin⟩ := hc v rfl
      obtain ⟨slot, s', hclaim, -, hconfined', -, hkeep⟩ := hconfined.claimBase hl ha hv hin
      -- a base may be added, but those by which the place is read stay
      have hfound' := Sliding.target_mono
        (hconfined'.holds.layout.trans hconfined.holds.layout.symm) hkeep hfound
      refine ⟨.sliding s', m, ?_, ⟨_, hconfined'⟩, hfound'⟩
      have hrun : s.claim m a v expected = .ok (some w, s', m) := by
        unfold Sliding.claim
        refine bind_eq_ok (Sliding.merge_eq hconfined.holds.layout hclaim _) ?_
        refine bind_eq_ok (a := (some w, m)) ?_ rfl
        rw [settle_of_forwarded hexpected hmark, hfound']
        rfl
      show (s.claim ..).map _ = _
      rw [hrun]
      rfl
    | stay =>
      refine ⟨.sliding s, m, ?_, ⟨_, hconfined⟩, hfound⟩
      show (settle ..).map _ = _
      rw [settle_of_forwarded hexpected hmark, hfound]
      rfl
  | hashed s =>
    have hfound : s.forwardee m a = .ok (some w) := Claimed.forwardee (f := .hashed s) h
    obtain ⟨hforwarded, hself, hfind⟩ := h
    cases c with
    | move v =>
      refine ⟨.hashed { s with growRequested := s.growRequested || s.table.crowded }, m, ?_,
        hforwarded, hself, hfind⟩
      have hrun : s.claim m a v expected = .ok (some w,
          { s with growRequested := s.growRequested || s.table.crowded }, m) := by
        -- the entry that is there is found, and no other one is made
        unfold Hashed.claim Hashed.insert
        refine bind_eq_ok (bind_eq_ok (ForwardTable.put_existing hfind v) rfl) ?_
        rfl
      show (s.claim ..).map _ = _
      rw [hrun]
      rfl
    | stay =>
      refine ⟨.hashed s, m, ?_, hforwarded, hself, hfind⟩
      show (settle ..).map _ = _
      rw [settle_of_forwarded hexpected hforwarded, hfound]
      rfl
  | dense d =>
    refine ⟨.dense d, m, ?_, h⟩
    have hrun : ∀ v, d.claim a v = .ok (some w, d) := by
      intro v
      unfold Dense.claim
      rw [show d.forwardee a = some w from h]
    cases c <;>
    · show (d.claim ..).map _ = _
      rw [hrun]
      rfl

/-- Once the place is settled all claims are told it. -/
theorem Claimed.makeAll {w : Address} (hl : l.Sound) (ha : l.IsWord a) {expected : Mark}
    (hexpected : expected.isForwarded = false) (cs : List ObjectClaim)
    (hcs : ∀ c ∈ cs, Within l regions c) (h : f.Claimed l m a regions w) :
    makeAll a expected cs f m = .ok (cs.map fun _ => (some w, some w)) := by
  induction cs generalizing f m with
  | nil => rfl
  | cons c cs ih =>
    obtain ⟨f', m', hrun, hclaimed⟩ := h.make hl ha hexpected (hcs c (by simp))
    unfold Forwarding.makeAll
    refine bind_eq_ok hrun (bind_eq_ok hclaimed.forwardee ?_)
    exact bind_eq_ok (ih (fun d hd => hcs d (by simp [hd])) hclaimed) rfl

/-! ### An object that is kept in its place, in a hash table -/

/-- What claims are told about an object at `a` that was kept in its place, and what is found
after each of them; `entered` is the entry that a claim to a new place has left. -/
def answersAfterStay (a : Address) : Option Address → List ObjectClaim →
    List (Option Address × Option Address)
  | _, [] => []
  | entered, .stay :: cs => (some a, some a) :: answersAfterStay a entered cs
  | none, .move v :: cs => (some a, some a) :: answersAfterStay a (some v) cs
  | some v, .move _ :: cs => (some v, some a) :: answersAfterStay a (some v) cs

/-- At most one claim to a new place leaves an entry that nobody is told. -/
theorem answersAfterStay_of_few {cs : List ObjectClaim}
    (hfew : (cs.filter ObjectClaim.isMove).length ≤ 1) :
    answersAfterStay a none cs = cs.map fun _ => (some a, some a) := by
  have hnone : ∀ (cs : List ObjectClaim) (v : Address),
      (cs.filter ObjectClaim.isMove).length = 0 →
      answersAfterStay a (some v) cs = cs.map fun _ => (some a, some a) := by
    intro cs v
    induction cs with
    | nil => exact fun _ => rfl
    | cons c cs ih =>
      intro h
      cases c with
      | move u => simp [ObjectClaim.isMove] at h
      | stay => exact congrArg (_ :: ·) (ih (by simpa [ObjectClaim.isMove] using h))
  induction cs with
  | nil => rfl
  | cons c cs ih =>
    cases c with
    | move v =>
      refine congrArg (_ :: ·) (hnone cs v ?_)
      rw [List.filter_cons_of_pos rfl, List.length_cons] at hfew
      omega
    | stay => exact congrArg (_ :: ·) (ih (by simpa [ObjectClaim.isMove] using hfew))

/-- The object at `a` is kept in its place; `entered` is what the table says of it. -/
structure Kept (s : Hashed) (m : Memory) (a : Address) (entered : Option Address) : Prop where
  forwarded : (m.loadMark a).isForwarded = true
  self : (m.loadMark a).isSelfForwarded = true
  entry : s.table.find? a = entered
  /-- The table has room for an entry that is not there. -/
  room : entered = none → ∃ entries, s.table.Holds entries ∧ a ∉ entries.map Prod.fst ∧
    entries.length < s.table.nodes.size

theorem Kept.forwardee {s : Hashed} {entered : Option Address} (h : Kept s m a entered) :
    s.forwardee m a = .ok (some a) := by
  unfold Hashed.forwardee
  dsimp only
  rw [h.forwarded, h.self]
  rfl

/-- A claim to the place where the object is. -/
theorem Kept.stay {s : Hashed} {entered : Option Address} (h : Kept s m a entered)
    {expected : Mark} (hexpected : expected.isForwarded = false) :
    (hashed s).make m a expected .stay = .ok (some a, .hashed s, m) := by
  show (settle ..).map _ = _
  rw [settle_of_forwarded hexpected h.forwarded, h.forwardee]
  rfl

/-- The first claim to a new place loses and leaves an entry. -/
theorem Kept.move_none {s : Hashed} (h : Kept s m a none) {expected : Mark}
    (hexpected : expected.isForwarded = false) (v : Address) :
    ∃ s', (hashed s).make m a expected (.move v) = .ok (some a, .hashed s', m) ∧
      Kept s' m a (some v) := by
  obtain ⟨entries, hholds, hnew, hroom⟩ := h.room rfl
  obtain ⟨t', hput, hholds', -, -⟩ := hholds.put hnew hroom v
  have hinsert : s.insert a v = .ok (none,
      { s with table := t', growRequested := s.growRequested || t'.crowded }) := by
    unfold Hashed.insert
    exact bind_eq_ok hput rfl
  -- the entry is made before the exchange of the mark fails
  have hne : m.load a ≠ expected.raw := by
    intro heq
    have hforwarded := h.forwarded
    rw [show m.loadMark a = expected from congrArg Mark.mk heq, hexpected] at hforwarded
    cases hforwarded
  have hexchange : m.exchangeMark a expected (expected.withLock 0b11) = (.error (m.loadMark a), m) := by
    unfold Memory.exchangeMark Memory.exchange
    dsimp only
    rw [if_neg hne]
    rfl
  refine ⟨{ s with table := t', growRequested := s.growRequested || t'.crowded }, ?_,
    h.forwarded, h.self, hholds'.find?_of_mem (by simp), fun hh => by cases hh⟩
  have hrun : s.claim m a v expected = .ok (some a,
      { s with table := t', growRequested := s.growRequested || t'.crowded }, m) := by
    unfold Hashed.claim
    refine bind_eq_ok hinsert ?_
    dsimp only
    rw [hexchange]
    dsimp only
    rw [if_pos h.self]
    rfl
  show (s.claim ..).map _ = _
  rw [hrun]
  rfl

/-- A further claim to a new place is told that entry. -/
theorem Kept.move_some {s : Hashed} {u : Address} (h : Kept s m a (some u)) (expected : Mark)
    (v : Address) :
    ∃ s', (hashed s).make m a expected (.move v) = .ok (some u, .hashed s', m) ∧
      Kept s' m a (some u) := by
  refine ⟨{ s with growRequested := s.growRequested || s.table.crowded }, ?_,
    h.forwarded, h.self, h.entry, fun hh => by cases hh⟩
  have hrun : s.claim m a v expected = .ok (some u,
      { s with growRequested := s.growRequested || s.table.crowded }, m) := by
    unfold Hashed.claim Hashed.insert
    exact bind_eq_ok (bind_eq_ok (ForwardTable.put_existing h.entry v) rfl) rfl
  show (s.claim ..).map _ = _
  rw [hrun]
  rfl

theorem Kept.makeAll {s : Hashed} {entered : Option Address} {expected : Mark}
    (hexpected : expected.isForwarded = false) (cs : List ObjectClaim)
    (h : Kept s m a entered) :
    makeAll a expected cs (.hashed s) m = .ok (answersAfterStay a entered cs) := by
  induction cs generalizing s entered with
  | nil => cases entered <;> rfl
  | cons c cs ih =>
    unfold Forwarding.makeAll
    cases c with
    | stay =>
      refine bind_eq_ok (h.stay hexpected) (bind_eq_ok h.forwardee (bind_eq_ok (ih h) ?_))
      cases entered <;> rfl
    | move v =>
      cases entered with
      | none =>
        obtain ⟨s', hrun, hkept⟩ := h.move_none hexpected v
        exact bind_eq_ok hrun (bind_eq_ok hkept.forwardee (bind_eq_ok (ih hkept) rfl))
      | some u =>
        obtain ⟨s', hrun, hkept⟩ := h.move_some expected v
        exact bind_eq_ok hrun (bind_eq_ok hkept.forwardee (bind_eq_ok (ih hkept) rfl))

/-- What a hash table answers once an object has been kept in its place. -/
theorem makeAll_hashed_stay {s : Hashed} (h : (hashed s).Open l a regions)
    (hmark : (m.loadMark a).isForwarded = false) (cs : List ObjectClaim) :
    makeAll a (m.loadMark a) (.stay :: cs) (.hashed s) m
      = .ok ((none, some a) :: answersAfterStay a none cs) := by
  obtain ⟨entries, hholds, hnew, hroom⟩ := h
  have hrun : (hashed s).make m a (m.loadMark a) .stay
      = .ok (none, .hashed s, m.storeMark a (m.loadMark a).selfForwarded) := by
    show (settle ..).map _ = _
    rw [settle_of_unchanged rfl]
    rfl
  have hkept : Kept s (m.storeMark a (m.loadMark a).selfForwarded) a none := by
    refine ⟨?_, ?_, hholds.find?_of_notMem hnew, fun _ => ⟨entries, hholds, hnew, hroom⟩⟩
    · rw [loadMark_storeMark_self]
      exact Mark.isForwarded_selfForwarded _
    · rw [loadMark_storeMark_self]
      exact Mark.isSelfForwarded_selfForwarded _
  unfold Forwarding.makeAll
  exact bind_eq_ok hrun (bind_eq_ok hkept.forwardee (bind_eq_ok (hkept.makeAll hmark cs) rfl))

/-! ### The first claim wins -/

/-- The first claim to an object wins: it is told that nobody came before, every later one is
told its place, and that place is found after each of them.  In a hash table this takes that no
two claims to a new place come after a first claim to keep the object in its place. -/
theorem Open.first_claim_wins (h : f.Open l a regions) (hl : l.Sound) (ha : l.IsWord a)
    (hmark : (m.loadMark a).isForwarded = false) (hclear : (m.loadMark a).raw &&& selfMask = 0)
    (c : ObjectClaim) (cs : List ObjectClaim) (hcs : ∀ d ∈ c :: cs, Within l regions d)
    (hfew : f.encoding = .hashed → c = .stay → (cs.filter ObjectClaim.isMove).length ≤ 1) :
    makeAll a (m.loadMark a) (c :: cs) f m
      = .ok ((none, some (c.place a)) :: cs.map fun _ => (some (c.place a), some (c.place a))) := by
  by_cases hkept : f.encoding = .hashed ∧ c = .stay
  · obtain ⟨hencoding, rfl⟩ := hkept
    cases f with
    | hashed s =>
      rw [makeAll_hashed_stay h hmark, answersAfterStay_of_few (hfew rfl rfl)]
      rfl
    | header => cases hencoding
    | sliding s => cases hencoding
    | dense d => cases hencoding
  · obtain ⟨f', m', hrun, -, hclaimed⟩ := h.make hl ha hclear (hcs c (by simp))
      fun hencoding hstay => hkept ⟨hencoding, hstay⟩
    unfold Forwarding.makeAll
    refine bind_eq_ok hrun (bind_eq_ok hclaimed.forwardee ?_)
    exact bind_eq_ok (hclaimed.makeAll hl ha hmark cs fun d hd => hcs d (by simp [hd])) rfl

/-- An object that is kept in its place by the first of three claims to it. -/
theorem first_claim_wins_stay : ∃ (f : Forwarding) (l : Layout) (m : Memory) (a v : Address),
    f.Open l a [0] ∧ l.Sound ∧ l.IsWord a ∧ (m.loadMark a).isForwarded = false ∧
      (m.loadMark a).raw &&& selfMask = 0 ∧ Within l [0] (.move v) ∧
      makeAll a (m.loadMark a) [.stay, .move v, .stay] f m
        = .ok [(none, some a), (some a, some a), (some a, some a)] := by
  let l : Layout := ⟨0x10000, 4, 2⟩
  let m : Memory := (⟨0x10000, 0x1000, ∅⟩ : Memory).storeMark 0x10080 .fresh
  have hmark : m.loadMark 0x10080 = .fresh := loadMark_storeMark_self ..
  have hopen : (hashed (Hashed.new 4 4).start).Open l 0x10080 [0] :=
    open_hashed_start (by decide) (by decide)
  have hsound : l.Sound := by decide
  have hword : l.IsWord 0x10080 := by decide
  have hforwarded : (m.loadMark 0x10080).isForwarded = false := by rw [hmark]; rfl
  have hclear : (m.loadMark 0x10080).raw &&& selfMask = 0 := by rw [hmark]; rfl
  have hwithin : Within l [0] (.move 0x10000) := by
    rintro v ⟨⟩
    decide
  refine ⟨_, l, m, 0x10080, 0x10000, hopen, hsound, hword, hforwarded, hclear, hwithin, ?_⟩
  refine hopen.first_claim_wins hsound hword hforwarded hclear .stay [.move 0x10000, .stay] ?_
    fun _ _ => by decide
  intro d hd
  simp only [List.mem_cons, List.not_mem_nil, or_false] at hd
  rcases hd with rfl | rfl | rfl
  · rintro v ⟨⟩
  · exact hwithin
  · rintro v ⟨⟩

/-- In a hash table the second claim to a new place is told the place that the first one asked
for, although the object has been kept in its own. -/
theorem hashed_stay_then_two_moves : ∃ (f : Forwarding) (l : Layout) (m : Memory) (a u v : Address),
    f.Open l a [0] ∧ l.Sound ∧ l.IsWord a ∧ (m.loadMark a).isForwarded = false ∧
      (m.loadMark a).raw &&& selfMask = 0 ∧ Within l [0] (.move u) ∧ Within l [0] (.move v) ∧
      u ≠ a ∧ makeAll a (m.loadMark a) [.stay, .move u, .move v] f m
        = .ok [(none, some a), (some a, some a), (some u, some a)] := by
  let l : Layout := ⟨0x10000, 4, 2⟩
  let m : Memory := (⟨0x10000, 0x1000, ∅⟩ : Memory).storeMark 0x10080 .fresh
  have hmark : m.loadMark 0x10080 = .fresh := loadMark_storeMark_self ..
  have hopen : (hashed (Hashed.new 4 4).start).Open l 0x10080 [0] :=
    open_hashed_start (by decide) (by decide)
  have hforwarded : (m.loadMark 0x10080).isForwarded = false := by rw [hmark]; rfl
  refine ⟨_, l, m, 0x10080, 0x10000, 0x10010, hopen,
    by decide, by decide, hforwarded, by rw [hmark]; rfl, ?_, ?_, by decide,
    makeAll_hashed_stay hopen hforwarded [.move 0x10000, .move 0x10010]⟩
  · rintro v ⟨⟩
    decide
  · rintro v ⟨⟩
    decide

end Forwarding

end MarkCompact
