/-
MarkCompact/Proofs/GrowthRequests.lean

When a hash table of new addresses is doubled.

An attempt to insert that leaves the table too full requests more room, and nothing but the
next meeting place or a new collection takes the request back.  So there is a request exactly
if one of the attempts since then has left a table like that (`Hashed.AttemptLeft`): the step
lemma `attemptLeft_concat` says what the last call adds, and `run_growRequested` follows it
along a run.

A table is too full with more entries than three quarters of its buckets (`Overfull`).  The
threshold is computed as three times a quarter, rounded down before it is multiplied.  That
is the same for all powers of two but one: a table of two buckets is taken to be too full
with one entry (`crowded_iff`, `asks_too_early`).

Main result: `growIfRequested_run`.
-/
import MarkCompact.Proofs.ForwardTables
import MarkCompact.Forwarding.Hashed

namespace MarkCompact

namespace ForwardTable

variable {t : ForwardTable}

/-- There are more entries than three quarters of the buckets. -/
def Overfull (t : ForwardTable) : Prop := 3 * t.buckets.size < 4 * t.entries

/-- Two buckets, of which a quarter is none. -/
def Rounded (t : ForwardTable) : Prop := t.buckets.size = 2 ∧ t.entries = 1

/-- What the computed threshold says about the number of buckets a table can have. -/
theorem crowded_iff (h : t.buckets.size.isPowerOfTwo) :
    t.crowded = true ↔ t.Overfull ∨ t.Rounded := by
  obtain ⟨k, hk⟩ := h
  unfold crowded Overfull Rounded
  rw [decide_eq_true_iff, hk]
  match k with
  | 0 => omega
  | 1 => omega
  | k + 2 =>
    have hpower : 2 ^ (k + 2) = 4 * 2 ^ k := by ring
    have hpos : 0 < 2 ^ k := Nat.two_pow_pos k
    rw [hpower]
    omega

theorem size_buckets_put {a v : Address} {o : InsertOutcome} {t' : ForwardTable}
    (h : t.put a v = .ok (o, t')) : t'.buckets.size = t.buckets.size := by
  unfold put at h
  split at h
  · cases h
    rfl
  · split at h
    · cases h
      exact Array.size_setIfInBounds
    · cases h

/-- The answer is about the table as it is left. -/
theorem shouldGrow_put {a v : Address} {o : InsertOutcome} {t' : ForwardTable}
    (h : t.put a v = .ok (o, t')) : o.shouldGrow = t'.crowded := by
  unfold put at h
  split at h
  · cases h
    rfl
  · split at h
    · cases h
      rfl
    · cases h

/-- An entry more, or none. -/
theorem Stores.of_put {moves : List (Address × Address)} (hs : t.Stores moves) {a v : Address}
    {o : InsertOutcome} {t' : ForwardTable} (h : t.put a v = .ok (o, t')) :
    ∃ moves', t'.Stores moves' := by
  by_cases hmem : a ∈ moves.map Prod.fst
  · obtain ⟨e, he, rfl⟩ := List.mem_map.1 hmem
    rw [put_existing (hs.find?_of_mem he)] at h
    cases h
    exact ⟨moves, hs⟩
  · by_cases hroom : moves.length < t.nodes.size
    · obtain ⟨t'', hput, hs', -⟩ := hs.put hmem hroom v
      rw [hput] at h
      cases h
      exact ⟨_, hs'⟩
    · unfold ForwardTable.put at h
      rw [hs.find?_of_notMem hmem] at h
      dsimp only at h
      rw [if_neg (by rwa [hs.used])] at h
      cases h

end ForwardTable

open ForwardTable

namespace Hashed

/-- What can be asked of new addresses in a hash table. -/
inductive Call where
  | start
  | forward (object target : Address)
  | claim (object target : Address) (expected : Mark)
  | grow
  /-- Whatever else happens to the heap. -/
  | heap (m : Memory)

namespace Call

/-- Attempts to insert an entry. -/
def inserts : Call → Bool
  | forward .. => true
  | claim .. => true
  | _ => false

/-- Takes requests back. -/
def settles : Call → Bool
  | start => true
  | grow => true
  | _ => false

end Call

/-- Makes a call. -/
def call (s : Hashed × Memory) : Call → Except Fault (Hashed × Memory)
  | .start => .ok (s.1.start, s.2)
  | .forward object target => s.1.forwardTo s.2 object target
  | .claim object target expected => (s.1.claim s.2 object target expected).map Prod.snd
  | .grow => .ok (s.1.growIfRequested.2, s.2)
  | .heap m => .ok (s.1, m)

/-- Makes calls one after the other. -/
def run (s : Hashed × Memory) (calls : List Call) : Except Fault (Hashed × Memory) :=
  calls.foldlM call s

variable {s s' : Hashed} {m m' : Memory} {s₀ : Hashed × Memory} {calls : List Call} {c : Call}
  {buckets nodes : Nat} {p : ForwardTable → Prop}

theorem run_concat {r : Hashed × Memory} (h : run s₀ (calls ++ [c]) = .ok r) :
    ∃ r₀, run s₀ calls = .ok r₀ ∧ call r₀ c = .ok r := by
  rw [run, List.foldlM_append] at h
  obtain ⟨r₀, h₀, h⟩ := exists_of_bind_eq_ok h
  rw [List.foldlM_cons] at h
  obtain ⟨r₁, h₁, h⟩ := exists_of_bind_eq_ok h
  cases h
  exact ⟨r₀, h₀, h₁⟩

/-! ### What an attempt leaves -/

/-- An attempt to insert, with no request taken back after it, has left such a table. -/
def AttemptLeft (p : ForwardTable → Prop) (s₀ : Hashed × Memory) (calls : List Call) : Prop :=
  ∃ before last after, calls = before ++ last :: after ∧ last.inserts = true ∧
    (∀ c ∈ after, c.settles = false) ∧
    ∃ s m, run s₀ (before ++ [last]) = .ok (s, m) ∧ p s.table

theorem not_attemptLeft_nil : ¬ AttemptLeft p s₀ [] := by
  rintro ⟨before, last, after, heq, -⟩
  exact absurd heq (by simp)

/-- What the last call adds. -/
theorem attemptLeft_concat : AttemptLeft p s₀ (calls ++ [c]) ↔
    (c.inserts = true ∧ ∃ s m, run s₀ (calls ++ [c]) = .ok (s, m) ∧ p s.table) ∨
      (c.settles = false ∧ AttemptLeft p s₀ calls) := by
  constructor
  · rintro ⟨before, last, after, heq, hlast, hafter, hleft⟩
    rcases List.eq_nil_or_concat after with rfl | ⟨after, c', rfl⟩
    · obtain ⟨rfl, hc⟩ := List.append_inj' heq rfl
      cases hc
      exact .inl ⟨hlast, hleft⟩
    · rw [List.concat_eq_append, ← List.cons_append, ← List.append_assoc] at heq
      obtain ⟨rfl, hc⟩ := List.append_inj' heq rfl
      cases hc
      rw [List.concat_eq_append] at hafter
      exact .inr ⟨hafter c (by simp), before, last, after, rfl, hlast,
        fun d hd => hafter d (List.mem_append_left _ hd), hleft⟩
  · rintro (⟨hc, hleft⟩ | ⟨hc, before, last, after, rfl, hlast, hafter, hleft⟩)
    · exact ⟨calls, c, [], rfl, hc, by simp, hleft⟩
    · refine ⟨before, last, after ++ [c], by simp, hlast, fun d hd => ?_, hleft⟩
      rcases List.mem_append.1 hd with hd | hd
      · exact hafter d hd
      · rwa [List.mem_singleton.1 hd]

/-! ### Calls -/

theorem insert_spec {a v : Address} {existing : Option Address}
    (h : s.insert a v = .ok (existing, s')) :
    ∃ o, s.table.put a v = .ok (o, s'.table) ∧
      s'.growRequested = (s.growRequested || s'.table.crowded) ∧ s'.grows = s.grows := by
  obtain ⟨⟨o, t⟩, hput, h⟩ := exists_of_bind_eq_ok h
  cases h
  exact ⟨o, hput, by rw [shouldGrow_put hput], rfl⟩

/-- Only the insertion changes the table. -/
theorem forwardTo_inserts {a v : Address} (h : s.forwardTo m a v = .ok (s', m')) :
    ∃ existing, s.insert a v = .ok (existing, s') := by
  obtain ⟨⟨existing, s''⟩, hinsert, h⟩ := exists_of_bind_eq_ok h
  cases existing with
  | none =>
    cases h
    exact ⟨_, hinsert⟩
  | some w =>
    cases h
    exact ⟨_, hinsert⟩

theorem claim_inserts {a v : Address} {expected : Mark} {answer : Option Address}
    (h : s.claim m a v expected = .ok (answer, s', m')) :
    ∃ existing, s.insert a v = .ok (existing, s') := by
  obtain ⟨⟨existing, s''⟩, hinsert, h⟩ := exists_of_bind_eq_ok h
  cases existing with
  | some w =>
    cases h
    exact ⟨_, hinsert⟩
  | none =>
    dsimp only at h
    split at h
    · cases h
      exact ⟨_, hinsert⟩
    · split at h
      · cases h
        exact ⟨_, hinsert⟩
      · cases h

theorem call_inserts (hc : c.inserts = true) (h : call (s, m) c = .ok (s', m')) :
    ∃ a v existing, s.insert a v = .ok (existing, s') := by
  cases c with
  | forward a v => exact ⟨a, v, forwardTo_inserts h⟩
  | claim a v expected =>
    obtain ⟨⟨answer, r⟩, hclaim, rfl⟩ := exists_of_map_eq_ok h
    exact ⟨a, v, claim_inserts hclaim⟩
  | start => cases hc
  | grow => cases hc
  | heap => cases hc

/-- A table as it is made and used. -/
structure Usable (s : Hashed) (nodes : Nat) : Prop where
  isPowerOfTwo : s.table.buckets.size.isPowerOfTwo
  stores : nodes < 2 ^ 32 → ∃ moves, s.table.Stores moves

theorem usable_new (buckets nodes : Nat) : (new buckets nodes).Usable nodes := by
  have hpower : (new buckets nodes).table.buckets.size.isPowerOfTwo := by
    have hsize : (new buckets nodes).table.buckets.size = powerOfTwoFrom (max buckets 1) :=
      Array.size_replicate
    rw [hsize]
    exact isPowerOfTwo_powerOfTwoFrom _
  refine ⟨hpower, fun hnodes => ?_⟩
  have hfits : TableRequest.Fits nodes [] := by
    simp [TableRequest.Fits, TableRequest.sources, TableRequest.putSince]
  obtain ⟨t, hrun, htabulates⟩ : ∃ t, (ForwardTable.new buckets nodes).serveAll [] = .ok t ∧
      t.Tabulates buckets nodes [] := serveAll_tabulates hnodes (by simp) hfits
  cases hrun
  obtain ⟨moves, hstores, -⟩ := htabulates.stores
  exact ⟨moves, hstores⟩

namespace Usable

theorem start (h : s.Usable nodes) : s.start.Usable nodes := by
  have hsize : s.start.table.buckets.size = s.table.buckets.size := Array.size_replicate
  refine ⟨hsize ▸ h.isPowerOfTwo, fun hnodes => ?_⟩
  obtain ⟨moves, hstores⟩ := h.stores hnodes
  exact ⟨[], stores_reset (bucketAmong_lt_of_isPowerOfTwo h.isPowerOfTwo) hstores.small⟩

theorem insert (h : s.Usable nodes) {a v : Address} {existing : Option Address}
    (hinsert : s.insert a v = .ok (existing, s')) : s'.Usable nodes := by
  obtain ⟨o, hput, -⟩ := insert_spec hinsert
  refine ⟨size_buckets_put hput ▸ h.isPowerOfTwo, fun hnodes => ?_⟩
  obtain ⟨moves, hstores⟩ := h.stores hnodes
  exact hstores.of_put hput

theorem doubled (h : s.Usable nodes) (a : Address) :
    bucketAmong (s.table.buckets.size * 2) a < s.table.buckets.size * 2 :=
  bucketAmong_lt_of_isPowerOfTwo (Nat.isPowerOfTwo_mul_two_of_isPowerOfTwo h.isPowerOfTwo) a

theorem growIfRequested (h : s.Usable nodes) : s.growIfRequested.2.Usable nodes := by
  unfold Hashed.growIfRequested
  split
  · refine ⟨?_, fun hnodes => ?_⟩
    · dsimp only
      rw [size_buckets_grow]
      exact Nat.isPowerOfTwo_mul_two_of_isPowerOfTwo h.isPowerOfTwo
    · obtain ⟨moves, hstores⟩ := h.stores hnodes
      exact ⟨moves, hstores.grow h.doubled⟩
  · exact h

theorem call (h : s.Usable nodes) (hcall : Hashed.call (s, m) c = .ok (s', m')) :
    s'.Usable nodes := by
  cases c with
  | start =>
    cases hcall
    exact h.start
  | forward a v =>
    obtain ⟨a, v, existing, hinsert⟩ := call_inserts rfl hcall
    exact h.insert hinsert
  | claim a v expected =>
    obtain ⟨a, v, existing, hinsert⟩ := call_inserts rfl hcall
    exact h.insert hinsert
  | grow =>
    cases hcall
    exact h.growIfRequested
  | heap m =>
    cases hcall
    exact h

end Usable

/-- A call that takes requests back leaves none. -/
theorem growRequested_of_settles (hc : c.settles = true) (h : call (s, m) c = .ok (s', m')) :
    s'.growRequested = false := by
  cases c with
  | start =>
    cases h
    rfl
  | grow =>
    cases h
    cases hs : s.growRequested with
    | false => rw [growIfRequested_of_not_requested hs, hs]
    | true => rw [growIfRequested, if_pos hs]
  | forward => cases hc
  | claim => cases hc
  | heap => cases hc

/-- A call adds a request if it is an attempt that leaves the table too full. -/
theorem growRequested_of_not_settles (hc : c.settles = false)
    (h : call (s, m) c = .ok (s', m')) : s'.growRequested = true ↔
      (c.inserts = true ∧ s'.table.crowded = true) ∨ s.growRequested = true := by
  cases hinserts : c.inserts with
  | true =>
    obtain ⟨a, v, existing, hinsert⟩ := call_inserts hinserts h
    obtain ⟨-, -, hrequested, -⟩ := insert_spec hinsert
    rw [hrequested, Bool.or_eq_true]
    tauto
  | false =>
    cases c with
    | heap =>
      cases h
      simp
    | start => cases hc
    | grow => cases hc
    | forward => cases hinserts
    | claim => cases hinserts

/-! ### Runs -/

/-- There is a request exactly if an attempt has left the table too full since requests were
taken back last. -/
theorem run_growRequested (hrun : run (new buckets nodes, m) calls = .ok (s, m')) :
    s.Usable nodes ∧ (s.growRequested = true ↔
      AttemptLeft (fun t => t.Overfull ∨ t.Rounded) (new buckets nodes, m) calls) := by
  induction calls using List.reverseRecOn generalizing s m' with
  | nil =>
    cases hrun
    exact ⟨usable_new buckets nodes, iff_of_false Bool.false_ne_true not_attemptLeft_nil⟩
  | append_singleton calls c ih =>
    obtain ⟨⟨s₁, m₁⟩, hbefore, hcall⟩ := run_concat hrun
    obtain ⟨husable, hrequested⟩ := ih hbefore
    have husable' := husable.call hcall
    refine ⟨husable', ?_⟩
    -- the state that the last call leaves is the one we have, so it is enough to look at it
    have hlast : (∃ t m₁, run (new buckets nodes, m) (calls ++ [c]) = .ok (t, m₁) ∧
        (t.table.Overfull ∨ t.table.Rounded)) ↔ s.table.crowded = true := by
      rw [crowded_iff husable'.isPowerOfTwo, hrun]
      exact ⟨fun ⟨_, _, heq, h⟩ => by cases heq; exact h, fun h => ⟨s, m', rfl, h⟩⟩
    rw [attemptLeft_concat, hlast, ← hrequested]
    cases hc : c.settles with
    | true =>
      have hnot : c.inserts = false := by cases c <;> first | rfl | cases hc
      rw [growRequested_of_settles hc hcall, hnot]
      simp
    | false =>
      rw [growRequested_of_not_settles hc hcall]
      simp

/-- The table with twice the buckets. -/
structure Doubled (s s' : Hashed) : Prop where
  buckets : s'.table.buckets.size = 2 * s.table.buckets.size
  grows : s'.grows = s.grows + 1
  /-- The request has been met. -/
  requested : s'.growRequested = false

/-- Meeting a request changes no answer, as long as links reach the whole arena. -/
theorem Usable.forwardee_growIfRequested (h : s.Usable nodes) (hnodes : nodes < 2 ^ 32)
    (m : Memory) (a : Address) : s.growIfRequested.2.forwardee m a = s.forwardee m a := by
  obtain ⟨moves, hstores⟩ := h.stores hnodes
  have hfind : s.growIfRequested.2.table.find? a = s.table.find? a := by
    unfold Hashed.growIfRequested
    split
    · exact ((hstores.grow h.doubled).find?_eq_lookup a).trans (hstores.find?_eq_lookup a).symm
    · rfl
  unfold Hashed.forwardee
  rw [hfind]

/-- Whatever calls have been made on a new table, meeting a request doubles it exactly if an
attempt to insert has left it too full since requests were taken back last, and does nothing
otherwise. -/
theorem growIfRequested_run (buckets nodes : Nat) (m : Memory)
    (hrun : run (new buckets nodes, m) calls = .ok (s, m')) :
    (s.growIfRequested.1 = true ↔
      AttemptLeft (fun t => t.Overfull ∨ t.Rounded) (new buckets nodes, m) calls) ∧
    (s.growIfRequested.1 = true → s.Doubled s.growIfRequested.2) ∧
    (s.growIfRequested.1 = false → s.growIfRequested.2 = s) ∧
    (nodes < 2 ^ 32 → ∀ m a, s.growIfRequested.2.forwardee m a = s.forwardee m a) := by
  obtain ⟨husable, hrequested⟩ := run_growRequested hrun
  refine ⟨?_, ?_, ?_, husable.forwardee_growIfRequested⟩
  all_goals unfold growIfRequested
  · rw [← hrequested]
    cases s.growRequested <;> simp
  · cases s.growRequested with
    | false => exact fun h => absurd h Bool.false_ne_true
    | true => exact fun _ => ⟨by simp [size_buckets_grow, Nat.mul_comm], rfl, rfl⟩
  · cases s.growRequested with
    | false => exact fun _ => rfl
    | true => exact fun h => absurd h.symm Bool.false_ne_true

/-- Twice a table fills up.  In between it grows, and a new collection drops its entries. -/
def filledTwice : List Call :=
  [.forward 8 800, .forward 16 900, .forward 24 1000, .forward 32 1100, .grow, .start,
    .forward 8 800, .forward 16 900, .forward 24 1000, .forward 32 1100, .forward 40 1200,
    .forward 48 1300, .forward 56 1400, .heap ⟨0, 4096, ∅⟩, .claim 8 1500 ⟨0⟩]

theorem growIfRequested_filledTwice : ∃ s m',
    run (new 3 8, ⟨0, 4096, ∅⟩) filledTwice = .ok (s, m') ∧ s.growIfRequested.1 = true ∧
      s.growIfRequested.2.table.buckets.size = 16 ∧ s.growIfRequested.2.grows = 1 ∧
      ∀ m a, s.growIfRequested.2.forwardee m a = s.forwardee m a := by
  obtain ⟨s, m', hrun, hsize, hentries, hgrows⟩ : ∃ s m',
      run (new 3 8, ⟨0, 4096, ∅⟩) filledTwice = .ok (s, m') ∧
        s.table.buckets.size = 8 ∧ s.table.entries = 7 ∧ s.grows = 0 := ⟨_, _, rfl, rfl, rfl, rfl⟩
  obtain ⟨hasks, hdoubled, -, hsame⟩ := growIfRequested_run 3 8 ⟨0, 4096, ∅⟩ hrun
  have hoverfull : s.table.Overfull := by
    rw [Overfull, hsize, hentries]
    decide
  have hyes : s.growIfRequested.1 = true := hasks.2
    ⟨filledTwice.dropLast, .claim 8 1500 ⟨0⟩, [], rfl, rfl, by simp, s, m', hrun, .inl hoverfull⟩
  refine ⟨s, m', hrun, hyes, ?_, ?_, hsame (by decide)⟩
  · rw [(hdoubled hyes).buckets, hsize]
  · rw [(hdoubled hyes).grows, hgrows]

/-- A table of two buckets asks for more room when it is half full. -/
theorem asks_too_early : ∃ s m',
    run (new 2 4, ⟨0, 4096, ∅⟩) [.forward 8 800] = .ok (s, m') ∧ s.growIfRequested.1 = true ∧
      s.table.buckets.size = 2 ∧ s.table.entries = 1 ∧
      ¬ AttemptLeft Overfull (new 2 4, ⟨0, 4096, ∅⟩) [.forward 8 800] := by
  obtain ⟨s, m', hrun, hyes, hsize, hentries⟩ : ∃ s m',
      run (new 2 4, ⟨0, 4096, ∅⟩) [.forward 8 800] = .ok (s, m') ∧ s.growIfRequested.1 = true ∧
        s.table.buckets.size = 2 ∧ s.table.entries = 1 := ⟨_, _, rfl, rfl, rfl, rfl⟩
  refine ⟨s, m', hrun, hyes, hsize, hentries, fun hleft => ?_⟩
  rw [← List.nil_append [Call.forward 8 800], attemptLeft_concat] at hleft
  rcases hleft with ⟨-, t, m₁, hrun₁, hoverfull⟩ | ⟨-, hleft⟩
  · obtain ⟨rfl, -⟩ := Prod.mk.inj (Except.ok.inj (hrun₁.symm.trans hrun))
    rw [Overfull, hsize, hentries] at hoverfull
    exact absurd hoverfull (by decide)
  · exact not_attemptLeft_nil hleft

end Hashed

end MarkCompact
