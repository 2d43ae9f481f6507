/-
MarkCompact/Proofs/ForwardTables.lean

A hash table of new addresses is a map that keeps the first target of an address.

A table is asked for four things (`TableRequest`): to take an entry, to grow, and, with or
without more room, to drop all entries.  What was asked of it says what it must answer,
without a bucket or a link: `putSince` lists the entries since all were dropped last, the
first entry of an address counts (`List.lookup`), and `capacity` is the most room that
anyone has asked for.

Between two requests the nodes handed out are the first entries of their addresses, in
order (`Tabulates`).  Each request keeps that (`Tabulates.serve`): a second entry for an
address is refused before a node is taken, growing links the same nodes anew, and the
nodes left behind by a reset belong to no chain, so they are taken again from the start.

Main result: `serveAll_isMap` (for every number of buckets, every arena that 32-bit links
reach and every sequence of requests).
-/
import MarkCompact.Proofs.HashTables

namespace MarkCompact

/-- What can be asked of a table of new addresses. -/
inductive TableRequest where
  | put (source target : Address)
  | grow
  | reset
  | reserve (entries : Nat)
  deriving DecidableEq

namespace TableRequest

/-- The entries asked for since all were dropped last. -/
def putSince (requests : List TableRequest) : List (Address × Address) :=
  requests.foldl (fun entries request =>
    match request with
    | put source target => entries ++ [(source, target)]
    | grow => entries
    | reset => []
    | reserve _ => []) []

/-- The addresses that have an entry. -/
def sources (requests : List TableRequest) : Finset Address :=
  ((putSince requests).map Prod.fst).toFinset

/-- The room for entries, in an arena that had `nodes` nodes at first. -/
def capacity (nodes : Nat) (requests : List TableRequest) : Nat :=
  requests.foldl (fun room request =>
    match request with
    | reserve entries => max room entries
    | _ => room) nodes

/-- At no time have more addresses an entry than there is room for. -/
def Fits (nodes : Nat) (requests : List TableRequest) : Prop :=
  ∀ done ∈ requests.inits, (sources done).card ≤ capacity nodes done

instance (nodes : Nat) (requests : List TableRequest) : Decidable (Fits nodes requests) :=
  inferInstanceAs (Decidable (∀ _ ∈ _, _))

variable {nodes : Nat} {requests : List TableRequest} {request : TableRequest}

theorem Fits.card_le (h : Fits nodes requests) :
    (sources requests).card ≤ capacity nodes requests :=
  h requests ((List.mem_inits ..).2 List.prefix_rfl)

theorem Fits.of_snoc (h : Fits nodes (requests ++ [request])) : Fits nodes requests :=
  fun done hdone => h done ((List.mem_inits ..).2
    (((List.mem_inits ..).1 hdone).trans (List.prefix_append ..)))

theorem mem_sources {a : Address} :
    a ∈ sources requests ↔ ((putSince requests).lookup a).isSome := by
  rw [sources, List.mem_toFinset, List.mem_map, List.lookup_isSome_iff]
  exact exists_congr fun e => and_congr_right fun _ => by rw [beq_iff_eq, eq_comm]

/-- The room that is asked for is what links reach. -/
theorem capacity_lt {bound : Nat} (hnodes : nodes < bound)
    (hreserve : ∀ entries, reserve entries ∈ requests → entries < bound) :
    capacity nodes requests < bound := by
  induction requests using List.reverseRecOn with
  | nil => exact hnodes
  | append_singleton requests request ih =>
    have hbefore := ih fun entries h => hreserve entries (List.mem_append_left _ h)
    rw [capacity, List.foldl_append]
    cases request with
    | reserve entries => exact max_lt hbefore (hreserve entries (by simp))
    | put source target => exact hbefore
    | grow => exact hbefore
    | reset => exact hbefore

end TableRequest

open TableRequest

namespace ForwardTable

variable {t : ForwardTable} {moves : List (Address × Address)} {buckets nodes : Nat}
  {served : List TableRequest}

/-! ### Looking up -/

theorem Stores.find?_eq_lookup (h : t.Stores moves) (a : Address) :
    t.find? a = moves.lookup a := by
  cases hlookup : moves.lookup a with
  | none =>
    refine h.find?_of_notMem fun hmem => ?_
    obtain ⟨e, he, rfl⟩ := List.mem_map.1 hmem
    exact absurd rfl (bne_iff_ne.1 (List.lookup_eq_none_iff.1 hlookup e he))
  | some v =>
    obtain ⟨before, after, rfl, -⟩ := List.lookup_eq_some_iff.1 hlookup
    exact h.find?_of_mem (by simp)

/-- A node has been handed out for each address. -/
theorem Stores.length_eq_card (h : t.Stores moves)
    (hlookup : ∀ a, moves.lookup a = (putSince served).lookup a) :
    moves.length = (sources served).card := by
  have hsources : sources served = (moves.map Prod.fst).toFinset := by
    ext a
    rw [mem_sources, ← hlookup, List.mem_toFinset, List.mem_map, List.lookup_isSome_iff]
    exact exists_congr fun e => and_congr_right fun _ => by rw [beq_iff_eq, eq_comm]
  rw [hsources, List.toFinset_card_of_nodup h.nodup, List.length_map]

/-! ### One request -/

/-- Meets a request. -/
def serve (t : ForwardTable) : TableRequest → Except Fault ForwardTable
  | .put source target => (t.put source target).map Prod.snd
  | .grow => .ok t.grow
  | .reset => .ok t.reset
  | .reserve entries => .ok (t.reserve entries)

/-- The nodes handed out are the first entries of their addresses. -/
structure Tabulates (t : ForwardTable) (buckets nodes : Nat) (served : List TableRequest) :
    Prop where
  stores : ∃ moves, t.Stores moves ∧ ∀ a, moves.lookup a = (putSince served).lookup a
  nodes_size : t.nodes.size = capacity nodes served
  buckets_size : t.buckets.size = powerOfTwoFrom (max buckets 1) * 2 ^ served.count .grow

namespace Tabulates

theorem isPowerOfTwo (h : t.Tabulates buckets nodes served) : t.buckets.size.isPowerOfTwo := by
  obtain ⟨k, hk⟩ := isPowerOfTwo_powerOfTwoFrom (max buckets 1)
  exact ⟨k + served.count .grow, by rw [h.buckets_size, hk, pow_add]⟩

/-- With no entries asked for, a table is as good as new whatever its nodes hold. -/
theorem dropped {t' : ForwardTable} {request : TableRequest}
    (h : t.Tabulates buckets nodes served) (hbuckets : t'.buckets.size = t.buckets.size)
    (hnodes : t'.nodes.size = capacity nodes (served ++ [request]))
    (hsmall : capacity nodes (served ++ [request]) < 2 ^ 32) (hgrow : request ≠ .grow)
    (hputSince : putSince (served ++ [request]) = []) :
    t'.reset.Tabulates buckets nodes (served ++ [request]) := by
  refine ⟨⟨[], stores_reset ?_ (hnodes ▸ hsmall), fun a => by rw [hputSince]⟩, hnodes, ?_⟩
  · exact bucketAmong_lt_of_isPowerOfTwo (hbuckets ▸ h.isPowerOfTwo)
  · have hsize : t'.reset.buckets.size = t'.buckets.size := Array.size_replicate
    rw [hsize, hbuckets, h.buckets_size, List.count_append, List.count_singleton,
      if_neg (by simpa using hgrow), Nat.add_zero]

/-- The answer to another entry. -/
theorem put (h : t.Tabulates buckets nodes served) {a : Address}
    (hroom : a ∈ sources served ∨ (sources served).card < capacity nodes served) (v : Address) :
    ∃ t', t.put a v = .ok (⟨(putSince served).lookup a, t'.crowded⟩, t') ∧
      (a ∈ sources served → t' = t) ∧ t'.Tabulates buckets nodes (served ++ [.put a v]) := by
  obtain ⟨moves, hstores, hlookup⟩ := h.stores
  have hputSince : putSince (served ++ [.put a v]) = putSince served ++ [(a, v)] := by
    simp [putSince]
  have hcapacity : capacity nodes (served ++ [.put a v]) = capacity nodes served := by
    simp [capacity]
  have hcount : (served ++ [TableRequest.put a v]).count .grow = served.count .grow := by
    simp
  cases hfirst : (putSince served).lookup a with
  | some w =>
    have hfind : t.find? a = some w := by rw [hstores.find?_eq_lookup, hlookup, hfirst]
    refine ⟨t, put_existing hfind v, fun _ => rfl, ⟨moves, hstores, fun b => ?_⟩, ?_, ?_⟩
    · -- the entry that comes first counts
      rw [hlookup, hputSince, List.lookup_append, List.lookup_cons]
      cases hb : b == a with
      | true => rw [beq_iff_eq.1 hb, hfirst, Option.some_or]
      | false => rw [List.lookup_nil, Option.or_none]
    · rw [hcapacity, h.nodes_size]
    · rw [hcount, h.buckets_size]
  | none =>
    have hnot : a ∉ sources served := by rw [mem_sources, hfirst]; exact Bool.false_ne_true
    have hnew : a ∉ moves.map Prod.fst := by
      intro hmem
      obtain ⟨e, he, rfl⟩ := List.mem_map.1 hmem
      have := List.lookup_eq_none_iff.1 ((hlookup e.1).trans hfirst) e he
      exact absurd rfl (bne_iff_ne.1 this)
    have hlength := hstores.length_eq_card hlookup
    obtain ⟨t', hput, hstores', hnodes', hbuckets'⟩ := hstores.put hnew
      (by rw [hlength, h.nodes_size]; exact hroom.resolve_left hnot) v
    refine ⟨t', hput, fun hmem => absurd hmem hnot, ⟨_, hstores', fun b => ?_⟩, ?_, ?_⟩
    · rw [hputSince, List.lookup_append, List.lookup_append, hlookup]
    · rw [hnodes', hcapacity, h.nodes_size]
    · rw [hbuckets', hcount, h.buckets_size]

/-- A new address finds no node in a full arena. -/
theorem put_full (h : t.Tabulates buckets nodes served) {a : Address} (hnew : a ∉ sources served)
    (hfull : (sources served).card = capacity nodes served) (v : Address) :
    t.put a v = .error (.arenaExhausted (capacity nodes served)) := by
  obtain ⟨moves, hstores, hlookup⟩ := h.stores
  have hfind : t.find? a = none := by
    rw [hstores.find?_eq_lookup, hlookup]
    exact Option.not_isSome_iff_eq_none.1 fun hsome => hnew (mem_sources.2 hsome)
  have hused : ¬ t.used < t.nodes.size := by
    rw [hstores.used, hstores.length_eq_card hlookup, hfull, h.nodes_size]
    exact Nat.lt_irrefl _
  unfold ForwardTable.put
  rw [hfind]
  dsimp only
  rw [if_neg hused, h.nodes_size]

/-- Growing changes no answer. -/
theorem grow (h : t.Tabulates buckets nodes served) :
    t.grow.Tabulates buckets nodes (served ++ [.grow]) := by
  obtain ⟨moves, hstores, hlookup⟩ := h.stores
  have hdoubled : (t.buckets.size * 2).isPowerOfTwo :=
    Nat.isPowerOfTwo_mul_two_of_isPowerOfTwo h.isPowerOfTwo
  have hgrow := bucketAmong_lt_of_isPowerOfTwo hdoubled
  refine ⟨⟨moves, hstores.grow hgrow, fun a => ?_⟩, ?_, ?_⟩
  · rw [hlookup]
    simp [putSince]
  · rw [(hstores.threaded.grow hstores.small hgrow).2.size, h.nodes_size]
    simp [capacity]
  · rw [size_buckets_grow, h.buckets_size, List.count_append, List.count_singleton_self,
      Nat.pow_succ, Nat.mul_assoc]

/-- A request is met as long as there is room for it. -/
theorem serve (h : t.Tabulates buckets nodes served) {request : TableRequest}
    (hfits : (sources (served ++ [request])).card ≤ capacity nodes (served ++ [request]))
    (hsmall : capacity nodes (served ++ [request]) < 2 ^ 32) :
    ∃ t', t.serve request = .ok t' ∧ t'.Tabulates buckets nodes (served ++ [request]) := by
  cases request with
  | put a v =>
    have hroom : a ∈ sources served ∨ (sources served).card < capacity nodes served := by
      by_cases ha : a ∈ sources served
      · exact .inl ha
      · -- the new address is one more
        have hsources : sources (served ++ [.put a v]) = insert a (sources served) := by
          ext b
          simp [sources, putSince]
        rw [hsources, Finset.card_insert_of_notMem ha] at hfits
        exact .inr (hfits.trans_eq (by simp [capacity]))
    obtain ⟨t', hput, -, htabulates⟩ := h.put hroom v
    exact ⟨t', by rw [ForwardTable.serve, hput]; rfl, htabulates⟩
  | grow => exact ⟨_, rfl, h.grow⟩
  | reset =>
    refine ⟨_, rfl, h.dropped rfl ?_ hsmall (by decide) (by simp [putSince])⟩
    rw [h.nodes_size]
    simp [capacity]
  | reserve entries =>
    refine ⟨_, rfl, h.dropped ?_ ?_ hsmall (by simp) (by simp [putSince])⟩
    · split <;> rfl
    · have hcapacity : capacity nodes (served ++ [.reserve entries])
          = max (capacity nodes served) entries := by
        simp [capacity]
      rw [hcapacity, ← h.nodes_size]
      split
      case isTrue hlt =>
        dsimp only
        rw [Array.size_replicate, Nat.max_eq_right hlt.le]
      case isFalse hge => rw [Nat.max_eq_left (Nat.le_of_not_lt hge)]

end Tabulates

/-! ### All requests -/

/-- Meets requests one after the other. -/
def serveAll (t : ForwardTable) (requests : List TableRequest) : Except Fault ForwardTable :=
  requests.foldlM serve t

theorem serveAll_tabulates {requests : List TableRequest} (hnodes : nodes < 2 ^ 32)
    (hreserve : ∀ entries, .reserve entries ∈ requests → entries < 2 ^ 32)
    (hfits : Fits nodes requests) :
    ∃ t, (new buckets nodes).serveAll requests = .ok t ∧ t.Tabulates buckets nodes requests := by
  induction requests using List.reverseRecOn with
  | nil =>
    refine ⟨_, rfl, ⟨[], ?_, fun _ => rfl⟩, Array.size_replicate, ?_⟩
    · have hsize : (new buckets nodes).buckets.size = powerOfTwoFrom (max buckets 1) :=
        Array.size_replicate
      have hreset : (new buckets nodes).reset = new buckets nodes := by
        rw [reset, hsize]
        rfl
      rw [← hreset]
      refine stores_reset (bucketAmong_lt_of_isPowerOfTwo ?_) (Array.size_replicate.trans_lt hnodes)
      rw [hsize]
      exact isPowerOfTwo_powerOfTwoFrom _
    · exact Array.size_replicate.trans (Nat.mul_one _).symm
  | append_singleton requests request ih =>
    obtain ⟨t, hrun, htabulates⟩ := ih (fun n hn => hreserve n (List.mem_append_left _ hn))
      hfits.of_snoc
    obtain ⟨t', hserve, htabulates'⟩ := htabulates.serve hfits.card_le
      (capacity_lt hnodes hreserve)
    refine ⟨t', ?_, htabulates'⟩
    rw [serveAll] at hrun ⊢
    rw [List.foldlM_append, hrun]
    exact congrArg (· >>= pure) hserve

/-- What a table answers is what a map that keeps the first target of an address answers. -/
structure IsMap (t : ForwardTable) (buckets nodes : Nat) (served : List TableRequest) : Prop where
  /-- The first target since all entries were dropped last. -/
  find?_eq : ∀ a, t.find? a = (putSince served).lookup a
  entries_eq : t.entries = (sources served).card
  /-- An address that has an entry keeps it, and the caller is told. -/
  put_mem : ∀ a ∈ sources served, ∀ v,
    t.put a v = .ok (⟨(putSince served).lookup a, t.crowded⟩, t)
  /-- Any other gets one, as long as there is room. -/
  put_notMem : ∀ a ∉ sources served, ∀ v, (sources served).card < capacity nodes served →
    ∃ t', t.put a v = .ok (⟨none, t'.crowded⟩, t')
  put_full : ∀ a ∉ sources served, ∀ v, (sources served).card = capacity nodes served →
    t.put a v = .error (.arenaExhausted (capacity nodes served))
  nodes_size : t.nodes.size = capacity nodes served
  buckets_size : t.buckets.size = powerOfTwoFrom (max buckets 1) * 2 ^ served.count .grow
  isPowerOfTwo : t.buckets.size.isPowerOfTwo
  /-- A chain comes to its end and passes no node twice. -/
  chain : ∀ b < t.buckets.size, ∃ is, t.Chain (t.bucket b) is ∧ is.Nodup

theorem Tabulates.isMap (h : t.Tabulates buckets nodes served) : t.IsMap buckets nodes served := by
  obtain ⟨moves, hstores, hlookup⟩ := h.stores
  refine ⟨fun a => ?_, ?_, fun a ha v => ?_, fun a ha v hroom => ?_, fun a ha v => ?_,
    h.nodes_size, h.buckets_size, h.isPowerOfTwo, fun b hb => ?_⟩
  · rw [hstores.find?_eq_lookup, hlookup]
  · rw [hstores.entries, hstores.length_eq_card hlookup]
  · obtain ⟨t', hput, hsame, -⟩ := h.put (.inl ha) v
    rwa [hsame ha] at hput
  · obtain ⟨t', hput, -, -⟩ := h.put (.inr hroom) v
    have hnone : (putSince served).lookup a = none :=
      Option.not_isSome_iff_eq_none.1 fun hsome => ha (mem_sources.2 hsome)
    exact ⟨t', hnone ▸ hput⟩
  · exact fun hfull => h.put_full ha hfull v
  · obtain ⟨is, hchain, hnodup, -⟩ := hstores.threaded.chain b hb
    exact ⟨is, hchain, hnodup⟩

/-- Whatever is asked of a table, in any order, it answers like a map that keeps the first
target of an address, and only an address too many for the arena stops it. -/
theorem serveAll_isMap (buckets : Nat) {nodes : Nat} {requests : List TableRequest}
    (hnodes : nodes < 2 ^ 32)
    (hreserve : ∀ entries, .reserve entries ∈ requests → entries < 2 ^ 32)
    (hfits : Fits nodes requests) :
    ∃ t, (new buckets nodes).serveAll requests = .ok t ∧ t.IsMap buckets nodes requests := by
  obtain ⟨t, hrun, htabulates⟩ := serveAll_tabulates hnodes hreserve hfits
  exact ⟨t, hrun, htabulates.isMap⟩

/-- A table of one bucket and two nodes: the second target of an address is refused, all
entries stay where the bucket is split, and the nodes are taken again after a reset. -/
def refilled : List TableRequest :=
  [.put 8 800, .put 16 900, .put 8 1000, .grow, .put 16 800, .reset, .put 16 1000, .grow,
    .reserve 3, .put 24 800, .put 32 900, .put 24 1000, .put 40 1000]

theorem serveAll_isMap_refilled :
    ∃ t, (new 0 2).serveAll refilled = .ok t ∧ t.find? 24 = some 800 ∧ t.find? 16 = none ∧
      t.entries = 3 ∧ t.buckets.size = 4 ∧ t.put 48 800 = .error (.arenaExhausted 3) := by
  obtain ⟨t, hrun, hmap⟩ := serveAll_isMap 0 (by decide : 2 < 2 ^ 32)
    (by simp [refilled] : ∀ n, .reserve n ∈ refilled → n < 2 ^ 32) (by decide : Fits 2 refilled)
  exact ⟨t, hrun, hmap.find?_eq 24, hmap.find?_eq 16, hmap.entries_eq, hmap.buckets_size,
    hmap.put_full 48 (by decide) 800 (by decide)⟩

end ForwardTable

end MarkCompact
