/-
MarkCompact/Proofs/LosingClaims.lean

What claims that lose leave in the slots of a region.

Claims are made to many objects, in any order, and the first to each object wins.  Where new
addresses are offsets from two bases, the base of the place asked for is remembered before the
header decides, so the slots hold the targets of all claims, those that lose included
(`Sliding.Raced`).  A claim that loses leaves them as they were if its place lies in a region that
is a target already; otherwise it takes a slot for a region to which nothing goes, and a later
claim may be refused although its region has one target only (`losing_claim_takes_slot`).

Main result: `losing_claim_leaves_bases`, for claims that lose in the regions to which objects of
theirs have gone.
-/
import MarkCompact.Proofs.EncodedTargets
import MarkCompact.Proofs.ObjectClaims

namespace MarkCompact

/-! ### Claims to many objects -/

/-- The new place that a claim asks for. -/
def ObjectClaim.target? : ObjectClaim → Option Address
  | .move v => some v
  | .stay => none

/-- The new places that claims ask for. -/
def asked (cs : List (Address × ObjectClaim)) : List (Address × Address) :=
  cs.filterMap fun c => c.2.target?.map fun v => (c.1, v)

/-- The first claim to each object. -/
def winning (cs : List (Address × ObjectClaim)) : List (Address × ObjectClaim) :=
  cs.foldl (fun won c => if c.1 ∈ won.map Prod.fst then won else won ++ [c]) []

/-- What a claim to an object is told after others: the place that the first claim to it asked
for, nothing if there was none. -/
def told (cs : List (Address × ObjectClaim)) (a : Address) : Option Address :=
  (cs.find? fun c => c.1 == a).map fun c => c.2.place a

/-- Claims that lose ask for places in regions to which objects of theirs have gone. -/
def Frugal (l : Layout) (cs : List (Address × ObjectClaim)) : Prop :=
  ∀ before a v, before ++ [(a, .move v)] <+: cs → a ∈ before.map Prod.fst →
    l.indexOf v ∈ targetsOf l (asked (winning before)) (l.indexOf a)

variable {l : Layout} {cs : List (Address × ObjectClaim)} {c : ObjectClaim} {a v : Address}

@[simp] theorem asked_append (cs cs' : List (Address × ObjectClaim)) :
    asked (cs ++ cs') = asked cs ++ asked cs' :=
  List.filterMap_append

@[simp] theorem asked_stay (a : Address) : asked [(a, .stay)] = [] := rfl

@[simp] theorem asked_move (a v : Address) : asked [(a, .move v)] = [(a, v)] := rfl

theorem winning_snoc (cs : List (Address × ObjectClaim)) (c : Address × ObjectClaim) :
    winning (cs ++ [c])
      = if c.1 ∈ (winning cs).map Prod.fst then winning cs else winning cs ++ [c] := by
  unfold winning
  rw [List.foldl_append]
  rfl

/-- An object to which there is a claim has one that wins. -/
theorem mem_winning_iff : a ∈ (winning cs).map Prod.fst ↔ a ∈ cs.map Prod.fst := by
  induction cs using List.reverseRecOn with
  | nil => rfl
  | append_singleton cs last ih =>
    rw [winning_snoc, List.map_append, List.mem_append, ← ih]
    split
    · rename_i hold
      refine ⟨.inl, fun h => h.elim id fun hlast => ?_⟩
      obtain rfl : a = last.1 := by simpa using hlast
      exact hold
    · rw [List.map_append, List.mem_append]

theorem winning_snoc_of_mem (h : a ∈ cs.map Prod.fst) : winning (cs ++ [(a, c)]) = winning cs := by
  rw [winning_snoc, if_pos (mem_winning_iff.2 h)]

theorem winning_snoc_of_notMem (h : a ∉ cs.map Prod.fst) :
    winning (cs ++ [(a, c)]) = winning cs ++ [(a, c)] := by
  rw [winning_snoc, if_neg fun hmem => h (mem_winning_iff.1 hmem)]

theorem told_eq_none_iff : told cs a = none ↔ a ∉ cs.map Prod.fst := by
  rw [told, Option.map_eq_none_iff, List.find?_eq_none, List.mem_map, not_exists]
  exact ⟨fun h c hc => h c hc.1 (beq_iff_eq.2 hc.2), fun h c hc heq => h c ⟨hc, beq_iff_eq.1 heq⟩⟩

/-- Where losing claims are frugal, the targets are those of the claims that win. -/
theorem Frugal.targetsOf_eq (h : Frugal l cs) (region : Nat) :
    targetsOf l (asked cs) region = targetsOf l (asked (winning cs)) region := by
  induction cs using List.reverseRecOn generalizing region with
  | nil => rfl
  | append_singleton cs last ih =>
    obtain ⟨a, c⟩ := last
    replace ih := ih fun before a v hbefore => h before a v (hbefore.trans (List.prefix_append ..))
    by_cases hmem : a ∈ cs.map Prod.fst
    · rw [winning_snoc_of_mem hmem, asked_append, ← ih]
      cases c with
      | stay => rw [asked_stay, List.append_nil]
      | move v =>
        -- the claim loses, and its region is a target already
        refine targetsOf_snoc_of_mem ?_ region
        rw [ih]
        exact h cs a v (List.prefix_refl _) hmem
    · rw [winning_snoc_of_notMem hmem, asked_append, asked_append]
      cases c with
      | stay => rw [asked_stay, List.append_nil, List.append_nil, ih]
      | move v => rw [asked_move, targetsOf_snoc, targetsOf_snoc, ih]

namespace Sliding

variable {m₀ m : Memory} {s s' : Sliding} {fault : Fault}

/-- Makes a claim to an object, whose mark was that in `m₀`. -/
def makeClaim (m₀ : Memory) (r : Sliding × Memory) (c : Address × ObjectClaim) :
    Except Fault (Option Address × Sliding × Memory) :=
  match c.2 with
  | .move v => r.1.claim r.2 c.1 v (m₀.loadMark c.1)
  | .stay => (r.1.claimSelf r.2 c.1 (m₀.loadMark c.1)).map fun (told, m) => (told, r.1, m)

/-- Makes claims one after the other. -/
def makeClaims (m₀ : Memory) (r : Sliding × Memory) (cs : List (Address × ObjectClaim)) :
    Except Fault (Sliding × Memory) :=
  cs.foldlM (fun r c => (makeClaim m₀ r c).map Prod.snd) r

/-- The marks of the objects are those in `m₀` up to the first claim, and settle their places
from then on. -/
structure Settles (s : Sliding) (m₀ m : Memory) (cs : List (Address × ObjectClaim)) : Prop where
  unclaimed : ∀ a, a ∉ cs.map Prod.fst → m.loadMark a = m₀.loadMark a
  claimed : ∀ a w, told cs a = some w → s.target (m.loadMark a) a = .ok (some w)

/-- Some claims have been made: their marks are settled, and the slots hold the targets of all of
them. -/
structure Raced (m₀ : Memory) (l : Layout) (cs : List (Address × ObjectClaim))
    (r : Sliding × Memory) : Prop where
  holds : r.1.Holds l (asked cs)
  settles : r.1.Settles m₀ r.2 cs

theorem raced_nil (m₀ : Memory) (hs : s.Holds l []) : Raced m₀ l [] (s, m₀) :=
  ⟨hs, fun _ _ => rfl, fun a w h => by cases h⟩

/-! ### One more claim -/

theorem told_snoc_of_mem (h : a ∈ cs.map Prod.fst) (c : ObjectClaim) (x : Address) :
    told (cs ++ [(a, c)]) x = told cs x := by
  unfold told
  rw [List.find?_append]
  cases hfind : cs.find? fun c => c.1 == x with
  | some first => rfl
  | none =>
    have hne : a ≠ x := by
      rintro rfl
      exact told_eq_none_iff.1 (by rw [told, hfind]; rfl) h
    simp [hne]

theorem told_snoc_of_notMem (h : a ∉ cs.map Prod.fst) (c : ObjectClaim) (x : Address) :
    told (cs ++ [(a, c)]) x = if x = a then some (c.place a) else told cs x := by
  by_cases hx : x = a
  · subst hx
    have hfind : cs.find? (fun c => c.1 == x) = none := by
      rwa [← told_eq_none_iff, told, Option.map_eq_none_iff] at h
    rw [if_pos rfl, told, List.find?_append, hfind]
    simp
  · rw [if_neg hx, told, List.find?_append]
    simp [told, Ne.symm hx]

/-- The header decides: the first claim to an object writes its mark, and every other is told the
place that has been settled. -/
theorem Settles.settle (h : s.Settles m₀ m cs) (hmark : (m₀.loadMark a).isForwarded = false)
    {new : Mark} (hnew : s.target new a = .ok (some (c.place a))) :
    ∃ m', MarkCompact.settle m a (m₀.loadMark a) new (fun found => s.target found a)
        = .ok (told cs a, m') ∧ s.Settles m₀ m' (cs ++ [(a, c)]) := by
  cases htold : told cs a with
  | none =>
    have hmem := told_eq_none_iff.1 htold
    have hother : ∀ x, x ≠ a → (m.storeMark a new).loadMark x = m.loadMark x := fun x hx =>
      congrArg Mark.mk (Memory.load_store_of_ne _ (Ne.symm hx) _)
    refine ⟨m.storeMark a new, settle_of_unchanged (h.unclaimed a hmem) _ _, fun x hx => ?_,
      fun x w hw => ?_⟩
    · simp only [List.map_append, List.map_singleton, List.mem_append, List.mem_singleton,
        not_or] at hx
      rw [hother x hx.2, h.unclaimed x hx.1]
    · rw [told_snoc_of_notMem hmem] at hw
      by_cases hx : x = a
      · subst hx
        rw [if_pos rfl] at hw
        obtain rfl := Option.some.inj hw
        rw [Forwarding.loadMark_storeMark_self]
        exact hnew
      · rw [if_neg hx] at hw
        rw [hother x hx]
        exact h.claimed x w hw
  | some w =>
    have hmem : a ∈ cs.map Prod.fst := by
      by_contra hnew
      rw [told_eq_none_iff.2 hnew] at htold
      cases htold
    have hfound := h.claimed a w htold
    refine ⟨m, ?_, fun x hx => h.unclaimed x fun hmem => hx ?_, fun x u hu => h.claimed x u ?_⟩
    · rw [settle_of_forwarded hmark (isForwarded_of_target hfound), hfound]
      rfl
    · rw [List.map_append]
      exact List.mem_append_left _ hmem
    · rwa [told_snoc_of_mem hmem] at hu

/-- One more claim: it is told the place of the object, and leaves the slots as they are if its
own place lies in a region that is a target already. -/
theorem Raced.makeClaim (h : Raced m₀ l cs (s, m)) (hl : l.Addressable) (ha : l.OnGrid a)
    (hv : ∀ v, c = .move v → l.OnGrid v) (hmark : (m₀.loadMark a).isForwarded = false)
    (hroom : (targetsOf l (asked (cs ++ [(a, c)])) (l.indexOf a)).length ≤ basesPerRegion) :
    ∃ s' m', Sliding.makeClaim m₀ (s, m) (a, c) = .ok (told cs a, s', m') ∧
      Raced m₀ l (cs ++ [(a, c)]) (s', m') ∧
      ((∀ v, c = .move v → l.indexOf v ∈ targetsOf l (asked cs) (l.indexOf a)) → s' = s) := by
  obtain ⟨hholds, hsettles⟩ := h
  cases c with
  | stay =>
    obtain ⟨m', hsettle, hsettles'⟩ := hsettles.settle hmark (c := .stay)
      (target_selfForwarded s (m₀.loadMark a) a)
    refine ⟨s, m', ?_, ⟨by simpa using hholds, hsettles'⟩, fun _ => rfl⟩
    show (MarkCompact.settle ..).map _ = _
    rw [hsettle]
    rfl
  | move v =>
    have hv := hv v rfl
    rw [asked_append, asked_move] at hroom
    have hfits : l.indexOf v ∈ targetsOf l (asked cs) (l.indexOf a) ∨
        (targetsOf l (asked cs) (l.indexOf a)).length < basesPerRegion := by
      refine or_iff_not_imp_left.2 fun hnew => ?_
      rw [targetsOf_snoc_of_notMem hnew, List.length_append, List.length_singleton] at hroom
      omega
    obtain ⟨slot, s', hclaim, hslot, hholds', hbase, hkeep⟩ :=
      hholds.claimBase hl ha.region hv.region hfits
    have hlayout : s'.layout = s.layout := hholds'.layout.trans hholds.layout.symm
    have hmono : s'.Settles m₀ m cs := ⟨hsettles.unclaimed, fun x w hw =>
      target_mono hlayout hkeep (hsettles.claimed x w hw)⟩
    obtain ⟨m', hsettle, hsettles'⟩ := hmono.settle hmark (c := .move v)
      (target_merged hl hholds'.layout hv hslot hbase)
    refine ⟨s', m', ?_, ⟨by simpa using hholds', hsettles'⟩, fun hin => ?_⟩
    · exact bind_eq_ok (merge_eq hholds.layout hclaim _) (bind_eq_ok hsettle rfl)
    · have hrun := hholds.claimBase_eq hl ha.region hv.region
      rw [if_pos (hin v rfl)] at hrun
      exact (Prod.mk.inj (Except.ok.inj (hclaim.symm.trans hrun))).2

/-- A third target is refused, whoever would have won. -/
theorem Raced.makeClaim_refused (h : Raced m₀ l cs (s, m)) (hl : l.Addressable) (ha : l.OnGrid a)
    (hv : ∀ v, c = .move v → l.OnGrid v)
    (hthird : basesPerRegion < (targetsOf l (asked (cs ++ [(a, c)])) (l.indexOf a)).length) :
    ∃ v i j, c = .move v ∧ targetsOf l (asked cs) (l.indexOf a) = [i, j] ∧
      Sliding.makeClaim m₀ (s, m) (a, c)
        = .error (.thirdTarget (l.indexOf a) (l.bottom i) (l.bottom j) (l.baseOf v)) := by
  have hroom := h.holds.room (l.indexOf a)
  cases c with
  | stay =>
    rw [asked_append, asked_stay, List.append_nil] at hthird
    omega
  | move v =>
    rw [asked_append, asked_move] at hthird
    obtain ⟨i, j, htargets, hclaim⟩ := h.holds.claimBase_refused hl ha (hv v rfl) hthird
    refine ⟨v, i, j, rfl, htargets, ?_⟩
    show (s.merge _ _ _ >>= _) = _
    unfold merge
    rw [encode_error h.holds.layout hclaim]
    rfl

/-- Where no region has a third target among all places asked for, all claims are made. -/
theorem raced_makeClaims (hl : l.Addressable) (hs : s.Holds l [])
    (hmarks : ∀ c ∈ cs, (m₀.loadMark c.1).isForwarded = false)
    (hgrid : ∀ c ∈ cs, l.OnGrid c.1 ∧ ∀ v, c.2 = .move v → l.OnGrid v)
    (hfew : ∀ r, (targetsOf l (asked cs) r).length ≤ basesPerRegion) :
    ∃ s' m, makeClaims m₀ (s, m₀) cs = .ok (s', m) ∧ Raced m₀ l cs (s', m) := by
  obtain ⟨⟨s', m⟩, hrun, hraced⟩ := foldlM_induct
    (f := fun r c => (Sliding.makeClaim m₀ r c).map Prod.snd)
    (fun done r => Raced m₀ l done r) cs (s, m₀) (raced_nil m₀ hs) (by
      rintro done ⟨a, c⟩ rest ⟨s', m⟩ rfl h
      obtain ⟨ha, hv⟩ := hgrid (a, c) (by simp)
      have hsub : asked (done ++ [(a, c)]) ⊆ asked (done ++ (a, c) :: rest) := by
        rw [List.append_cons done (a, c) rest, asked_append (done ++ [(a, c)])]
        exact List.subset_append_left ..
      have hroom := (length_targetsOf_mono hsub (l.indexOf a)).trans (hfew _)
      obtain ⟨s'', m'', hclaim, hraced, -⟩ := h.makeClaim hl ha hv (hmarks (a, c) (by simp)) hroom
      exact ⟨(s'', m''), by rw [hclaim]; rfl, hraced⟩)
  exact ⟨s', m, hrun, hraced⟩

/-! ### Claims that lose -/

/-- Claims are made to many objects, each with the mark that the object had at first, and those
that lose ask for places in regions to which objects of theirs have gone.  Then a claim that loses
is told the place of its object and leaves the slots as they were, and a claim is refused only if
the regions to which objects of its region have gone and the one it asks for are three. -/
theorem losing_claim_leaves_bases (hl : l.Addressable) (hs : s.Holds l [])
    (hmarks : ∀ c ∈ cs, (m₀.loadMark c.1).isForwarded = false)
    (hgrid : ∀ c ∈ cs, l.OnGrid c.1 ∧ ∀ v, c.2 = .move v → l.OnGrid v) (hfrugal : Frugal l cs)
    {before : List (Address × ObjectClaim)} (hbefore : before ++ [(a, c)] <+: cs)
    (hfew : ∀ r, (targetsOf l (asked (winning before)) r).length ≤ basesPerRegion) :
    ∃ s' m, makeClaims m₀ (s, m₀) before = .ok (s', m) ∧
      ((targetsOf l (asked (winning (before ++ [(a, c)]))) (l.indexOf a)).length ≤ basesPerRegion →
        ∃ s'' m', makeClaim m₀ (s', m) (a, c) = .ok (told before a, s'', m') ∧
          (told before a ≠ none → s'' = s')) ∧
      (basesPerRegion < (targetsOf l (asked (winning (before ++ [(a, c)]))) (l.indexOf a)).length →
        told before a = none ∧ ∃ v i j, c = .move v ∧
          targetsOf l (asked (winning before)) (l.indexOf a) = [i, j] ∧
          makeClaim m₀ (s', m) (a, c)
            = .error (.thirdTarget (l.indexOf a) (l.bottom i) (l.bottom j) (l.baseOf v))) := by
  have hmem : ∀ d ∈ before ++ [(a, c)], d ∈ cs := fun d hd => hbefore.subset hd
  have hlast : (a, c) ∈ cs := hmem _ (by simp)
  obtain ⟨ha, hv⟩ := hgrid _ hlast
  have hthen : Frugal l (before ++ [(a, c)]) := fun pre b v hpre =>
    hfrugal pre b v (hpre.trans hbefore)
  have hfirst : Frugal l before := fun pre b v hpre =>
    hthen pre b v (hpre.trans (List.prefix_append ..))
  obtain ⟨s', m, hrun, hraced⟩ := raced_makeClaims hl hs
    (fun d hd => hmarks d (hmem d (List.mem_append_left _ hd)))
    (fun d hd => hgrid d (hmem d (List.mem_append_left _ hd)))
    fun r => by rw [hfirst.targetsOf_eq]; exact hfew r
  refine ⟨s', m, hrun, fun hroom => ?_, fun hthird => ?_⟩
  · rw [← hthen.targetsOf_eq] at hroom
    obtain ⟨s'', m', hclaim, -, hsame⟩ := hraced.makeClaim hl ha hv (hmarks _ hlast) hroom
    refine ⟨s'', m', hclaim, fun htold => hsame fun v hmove => ?_⟩
    obtain rfl := hmove
    rw [hfirst.targetsOf_eq]
    exact hthen before a v (List.prefix_refl _) (not_not.1 fun hnew => htold (told_eq_none_iff.2 hnew))
  · refine ⟨told_eq_none_iff.2 fun hold => ?_, ?_⟩
    · rw [winning_snoc_of_mem hold] at hthird
      exact absurd (hfew (l.indexOf a)) (by omega)
    · rw [← hthen.targetsOf_eq] at hthird
      obtain ⟨v, i, j, hmove, htargets, hclaim⟩ := hraced.makeClaim_refused hl ha hv hthird
      rw [hfirst.targetsOf_eq] at htargets
      exact ⟨v, i, j, hmove, htargets, hclaim⟩

/-- Two objects of region 2 go to the regions 0 and 1.  Then a claim to the first of them, for a
place in region 1, loses, and a third object finds no third target. -/
theorem losing_claim_leaves_bases_known : ∃ (l : Layout) (m₀ : Memory) (s : Sliding)
    (cs : List (Address × ObjectClaim)), l.Addressable ∧ s.Holds l [] ∧
      (∀ c ∈ cs, (m₀.loadMark c.1).isForwarded = false) ∧
      (∀ c ∈ cs, l.OnGrid c.1 ∧ ∀ v, c.2 = .move v → l.OnGrid v) ∧ Frugal l cs ∧
      cs = [(0x10100, .move 0x10000), (0x10108, .move 0x10080), (0x10100, .move 0x10088),
        (0x10110, .move 0x10100)] ∧
      ∃ s' m, makeClaims m₀ (s, m₀) (cs.take 2) = .ok (s', m) ∧
        (∃ m', makeClaim m₀ (s', m) (0x10100, .move 0x10088) = .ok (some 0x10000, s', m')) ∧
        ∃ s'' m'', makeClaims m₀ (s, m₀) (cs.take 3) = .ok (s'', m'') ∧
          makeClaim m₀ (s'', m'') (0x10110, .move 0x10100)
            = .error (.thirdTarget 2 0x10000 0x10080 0x10100) := by
  let l : Layout := ⟨0x10000, 4, 3⟩
  let m₀ : Memory := ⟨0x10000, 0x1000, ∅⟩
  let cs : List (Address × ObjectClaim) := [(0x10100, .move 0x10000), (0x10108, .move 0x10080),
    (0x10100, .move 0x10088), (0x10110, .move 0x10100)]
  have hl : l.Addressable := by decide
  obtain ⟨s, -, hholds, -⟩ := holds_new hl
  have hmarks : ∀ c ∈ cs, (m₀.loadMark c.1).isForwarded = false := fun c _ => by
    have hload : m₀.load c.1 = 0 := Std.HashMap.getD_empty
    unfold Memory.loadMark
    rw [hload]
    rfl
  have hgrid : ∀ c ∈ cs, l.OnGrid c.1 ∧ ∀ v, c.2 = .move v → l.OnGrid v := by
    intro c hc
    simp only [cs, List.mem_cons, List.not_mem_nil, or_false] at hc
    rcases hc with rfl | rfl | rfl | rfl <;>
    · refine ⟨by decide, ?_⟩
      rintro v ⟨⟩
      decide
  have hfrugal : Frugal l cs := by
    rintro before a v ⟨rest, hrest⟩ hmem
    match before, hrest, hmem with
    | [], _, hmem => cases hmem
    | [_], hrest, hmem =>
      simp only [cs, List.cons_append, List.nil_append, List.cons.injEq, Prod.mk.injEq] at hrest
      obtain ⟨rfl, ⟨rfl, -⟩, -⟩ := hrest
      exact absurd hmem (by decide)
    | [_, _], hrest, hmem =>
      simp only [cs, List.cons_append, List.nil_append, List.cons.injEq, Prod.mk.injEq,
        ObjectClaim.move.injEq] at hrest
      obtain ⟨rfl, rfl, ⟨rfl, rfl⟩, -⟩ := hrest
      decide
    | [_, _, _], hrest, hmem =>
      simp only [cs, List.cons_append, List.nil_append, List.cons.injEq, Prod.mk.injEq] at hrest
      obtain ⟨rfl, rfl, rfl, ⟨rfl, -⟩, -⟩ := hrest
      exact absurd hmem (by decide)
    | _ :: _ :: _ :: _ :: _, hrest, _ =>
      have hlength := congrArg List.length hrest
      simp [cs] at hlength
  have hsource : ∀ move ∈ [((0x10100 : Address), (0x10000 : Address)), (0x10108, 0x10080)],
      l.indexOf move.1 = 2 := by
    intro move hmove
    simp only [List.mem_cons, List.not_mem_nil, or_false] at hmove
    rcases hmove with rfl | rfl <;> decide
  have hfew := length_targetsOf_le_of_region (k := basesPerRegion) hsource (by decide)
  -- the claim that loses
  have htwo : cs.take 2 ++ [(0x10100, .move 0x10088)] <+: cs := by simp [cs]
  obtain ⟨s', m, hrun, hfits, -⟩ :=
    losing_claim_leaves_bases hl hholds hmarks hgrid hfrugal htwo hfew
  obtain ⟨s'', m', hclaim, hsame⟩ := hfits (by decide)
  obtain rfl := hsame (by decide)
  -- the claim that is refused
  have hthree : cs.take 3 ++ [(0x10110, .move 0x10100)] <+: cs := by simp [cs]
  obtain ⟨s₃, m₃, hrun₃, -, hthird⟩ :=
    losing_claim_leaves_bases hl hholds hmarks hgrid hfrugal hthree hfew
  obtain ⟨-, v, i, j, hmove, htargets, hrefused⟩ := hthird (by decide)
  obtain rfl := ObjectClaim.move.inj hmove
  have hij : targetsOf l (asked (winning (cs.take 3))) (l.indexOf 0x10110) = [0, 1] := by decide
  obtain ⟨rfl, rfl⟩ : i = 0 ∧ j = 1 := by
    rw [hij] at htargets
    simpa [eq_comm] using htargets
  rw [show l.indexOf 0x10110 = 2 by decide, show l.bottom 0 = 0x10000 by decide,
    show l.bottom 1 = 0x10080 by decide, show l.baseOf 0x10100 = 0x10100 by decide] at hrefused
  exact ⟨l, m₀, s, cs, hl, hholds, hmarks, hgrid, hfrugal, rfl, s'', m, hrun, ⟨m', hclaim⟩, s₃, m₃,
    hrun₃, hrefused⟩

/-- An object of region 2 goes to region 0, and a claim to it for a place in region 1 loses but
takes a slot.  So another object of region 2 is refused a place in that region, the second one to
which anything would go. -/
theorem losing_claim_takes_slot : ∃ (l : Layout) (m₀ m m' : Memory) (s₀ s s' : Sliding),
    l.Addressable ∧ Sliding.new l = .ok s₀ ∧ (∀ a, (m₀.loadMark a).isForwarded = false) ∧
      makeClaims m₀ (s₀, m₀) [(0x10100, .move 0x10000)] = .ok (s, m) ∧
      makeClaim m₀ (s, m) (0x10100, .move 0x10080) = .ok (some 0x10000, s', m') ∧
      s.base 2 1 = none ∧ s'.base 2 1 = some 0x10080 ∧
      targetsOf l (asked (winning [(0x10100, .move 0x10000), (0x10100, .move 0x10080),
        (0x10110, .move 0x10100)])) (l.indexOf 0x10110) = [0, 2] ∧
      makeClaim m₀ (s', m') (0x10110, .move 0x10100)
        = .error (.thirdTarget 2 0x10000 0x10080 0x10100) := by
  let l : Layout := ⟨0x10000, 4, 3⟩
  let m₀ : Memory := ⟨0x10000, 0x1000, ∅⟩
  have hl : l.Addressable := by decide
  obtain ⟨s₀, hnew, hholds, -⟩ := holds_new hl
  have hmarks : ∀ a, (m₀.loadMark a).isForwarded = false := fun a => by
    have hload : m₀.load a = 0 := Std.HashMap.getD_empty
    unfold Memory.loadMark
    rw [hload]
    rfl
  have ha : l.OnGrid 0x10100 := by decide
  have hb : l.OnGrid 0x10110 := by decide
  have hv : l.OnGrid 0x10000 ∧ l.OnGrid 0x10080 := by decide
  -- the claim that wins
  obtain ⟨s, m, hfirst, hraced, -⟩ := (raced_nil m₀ hholds).makeClaim (c := .move 0x10000) hl ha
    (by rintro v ⟨⟩; exact hv.1) (hmarks _) (by decide)
  -- the claim that loses
  obtain ⟨s', m', hsecond, hraced', -⟩ := hraced.makeClaim (c := .move 0x10080) hl ha
    (by rintro v ⟨⟩; exact hv.2) (hmarks _) (by decide)
  -- the claim that is refused
  obtain ⟨v, i, j, hmove, htargets, hrefused⟩ := hraced'.makeClaim_refused (c := .move 0x10100) hl hb
    (by rintro v ⟨⟩; exact ha) (by decide)
  obtain rfl := ObjectClaim.move.inj hmove
  have hij : targetsOf l [(0x10100, 0x10000), (0x10100, 0x10080)] (l.indexOf 0x10110) = [0, 1] := by
    decide
  obtain ⟨rfl, rfl⟩ : i = 0 ∧ j = 1 := by
    have := hij.symm.trans htargets
    simpa [eq_comm] using this
  rw [show l.indexOf 0x10110 = 2 by decide, show l.bottom 0 = 0x10000 by decide,
    show l.bottom 1 = 0x10080 by decide, show l.baseOf 0x10100 = 0x10100 by decide] at hrefused
  refine ⟨l, m₀, m, m', s₀, s, s', hl, hnew, hmarks, ?_, hsecond, ?_, ?_, by decide, hrefused⟩
  · unfold makeClaims
    rw [List.foldlM_cons, hfirst]
    rfl
  · exact (hraced.holds.slots 2 (by decide) 1 (by decide)).trans (by decide)
  · exact (hraced'.holds.slots 2 (by decide) 1 (by decide)).trans (by decide)

end Sliding

end MarkCompact
