/-
MarkCompact/Proofs/HashTables.lean

What the hash table of new addresses answers.

`ForwardTable.Chain t link is` says that the chain behind a link runs through the nodes
`is`.  A table is threaded through a set of nodes (`ForwardTable.Threaded`) if every
bucket has a chain, and the chain holds exactly the nodes of the set whose addresses
belong to the bucket.  Adding an entry and growing both do one thing, over and over: they
put a node at the front of the chain of its bucket (`Threaded.push`).

The number of buckets matters in one place: an address must belong to one of them, which
the mask sees to for every power of two and for every number of a word.  A collection
knows a bound on the buckets of its table, so `Linked` and `Holds` ask for that.

Main results: `ForwardTable.Stores.find?_of_mem`, `find?_of_notMem`, `put` (one more
entry) and `grow` (growing loses no entry).
-/
import Mathlib.Tactic
import MarkCompact.Forwarding.Chained
import MarkCompact.Proofs.Loops

namespace MarkCompact

namespace ForwardTable

/-- A node of the arena. -/
def nodeAt (t : ForwardTable) (i : Nat) : ForwardNode := t.nodes[i]?.getD default

/-- The chain behind a link, as the numbers of its nodes. -/
inductive Chain (t : ForwardTable) : UInt32 → List Nat → Prop where
  | stop : Chain t 0 []
  | link {l : UInt32} {is : List Nat} (hne : l ≠ 0) (rest : Chain t (t.node l).next is) :
      Chain t l ((l.toNat - 1) :: is)

variable {t t' : ForwardTable}

/-! ### Chains -/

/-- A chain depends on its own nodes only. -/
theorem Chain.congr {l : UInt32} {is : List Nat} (h : t.Chain l is)
    (hsame : ∀ i ∈ is, t'.nodeAt i = t.nodeAt i) : t'.Chain l is := by
  induction h with
  | stop => exact .stop
  | @link l is hne _ ih =>
    have hnode : t'.node l = t.node l := hsame (l.toNat - 1) (by simp)
    refine .link hne ?_
    rw [hnode]
    exact ih fun i hi => hsame i (List.mem_cons_of_mem _ hi)

/-- A search along a chain finds the first node with the address. -/
theorem Chain.search {l : UInt32} {is : List Nat} (h : t.Chain l is) {fuel : Nat}
    (hfuel : is.length ≤ fuel) (a : Address) :
    t.search a fuel l
      = (is.find? fun i => (t.nodeAt i).source == a).map fun i => (t.nodeAt i).target := by
  induction h generalizing fuel with
  | stop =>
    cases fuel with
    | zero => rfl
    | succ fuel => exact if_pos rfl
  | @link l is hne _ ih =>
    obtain ⟨n, rfl⟩ : ∃ n, fuel = n + 1 := ⟨fuel - 1, by simp at hfuel; omega⟩
    have hrest := ih (Nat.le_of_succ_le_succ hfuel)
    have hnode : t.node l = t.nodeAt (l.toNat - 1) := rfl
    rw [ForwardTable.search, if_neg hne, hrest, hnode, List.find?_cons]
    by_cases ha : (t.nodeAt (l.toNat - 1)).source = a
    · rw [if_pos ha, beq_iff_eq.2 ha]
      rfl
    · rw [if_neg ha, beq_eq_false_iff_ne.2 ha]

/-! ### Buckets -/

theorem bucketAmong_lt {n : Nat} (hpos : 0 < n) (hsmall : n < 2 ^ 64) (a : Address) :
    bucketAmong n a < n := by
  have hn : n.toUInt64.toNat = n := by
    rw [UInt64.toNat_ofNat']
    exact Nat.mod_eq_of_lt hsmall
  have hmask : (n.toUInt64 - 1).toNat = n - 1 := by
    rw [UInt64.toNat_sub_of_le _ _ (UInt64.le_iff_toNat_le.2 (by rw [hn]; exact hpos)), hn]
    rfl
  unfold bucketAmong
  rw [UInt64.toNat_and, hmask]
  exact Nat.and_le_right.trans_lt (Nat.sub_lt hpos Nat.one_pos)

/-- Where there are more buckets than words the mask is all ones. -/
theorem bucketAmong_lt_of_isPowerOfTwo {n : Nat} (hn : n.isPowerOfTwo) (a : Address) :
    bucketAmong n a < n := by
  obtain ⟨k, rfl⟩ := hn
  by_cases hk : k < 64
  · exact bucketAmong_lt (Nat.two_pow_pos k) (Nat.pow_lt_pow_right (by decide) hk) a
  · exact (UInt64.toNat_lt _).trans_le (Nat.pow_le_pow_right (by decide) (Nat.le_of_not_lt hk))

/-- The link that a bucket holds. -/
def bucket (t : ForwardTable) (b : Nat) : UInt32 := t.buckets[b]?.getD 0

/-- Every address belongs to a bucket, and the chains of the buckets hold the nodes of
`members`, each in that of its own. -/
structure Threaded (t : ForwardTable) (members : Nat → Prop) : Prop where
  bucketOf_lt : ∀ a, t.bucketOf a < t.buckets.size
  inside : ∀ i, members i → i < t.nodes.size
  chain : ∀ b < t.buckets.size, ∃ is, t.Chain (t.bucket b) is ∧ is.Nodup ∧
    ∀ i, i ∈ is ↔ members i ∧ t.bucketOf (t.nodeAt i).source = b

/-- The nodes of `members` are linked, each into the chain of its bucket. -/
structure Linked (t : ForwardTable) (members : Nat → Prop) : Prop where
  sizes : 0 < t.buckets.size ∧ t.buckets.size ≤ 2 ^ 34
  inside : ∀ i, members i → i < t.nodes.size
  chain : ∀ b < t.buckets.size, ∃ is, t.Chain (t.bucket b) is ∧ is.Nodup ∧
    ∀ i, i ∈ is ↔ members i ∧ t.bucketOf (t.nodeAt i).source = b

theorem Linked.threaded {members : Nat → Prop} (h : t.Linked members) : t.Threaded members :=
  ⟨bucketAmong_lt h.sizes.1 (h.sizes.2.trans_lt (by decide)), h.inside, h.chain⟩

/-- In `t'` the node `i` has been put at the front of the chain of the bucket of `a`. -/
structure Pushed (t : ForwardTable) (i : Nat) (a v : Address) (t' : ForwardTable) : Prop where
  nodes : t'.nodes = t.nodes.setIfInBounds i ⟨a, v, t.bucket (t.bucketOf a)⟩
  buckets : t'.buckets = t.buckets.setIfInBounds (t.bucketOf a) (i + 1).toUInt32

namespace Pushed

variable {i : Nat} {a v : Address} (hp : t.Pushed i a v t')
include hp

theorem size_nodes : t'.nodes.size = t.nodes.size := by
  rw [hp.nodes, Array.size_setIfInBounds]

theorem size_buckets : t'.buckets.size = t.buckets.size := by
  rw [hp.buckets, Array.size_setIfInBounds]

theorem bucketOf_eq (c : Address) : t'.bucketOf c = t.bucketOf c := by
  unfold bucketOf
  rw [hp.size_buckets]

theorem nodeAt_eq (hi : i < t.nodes.size) (j : Nat) :
    t'.nodeAt j = if i = j then ⟨a, v, t.bucket (t.bucketOf a)⟩ else t.nodeAt j := by
  unfold nodeAt
  rw [hp.nodes, Array.getElem?_setIfInBounds]
  by_cases hj : i = j
  · rw [if_pos hj, if_pos hi, if_pos hj]
    rfl
  · rw [if_neg hj, if_neg hj]

theorem bucket_eq (ha : t.bucketOf a < t.buckets.size) (b : Nat) :
    t'.bucket b = if t.bucketOf a = b then (i + 1).toUInt32 else t.bucket b := by
  unfold bucket
  rw [hp.buckets, Array.getElem?_setIfInBounds]
  by_cases hb : t.bucketOf a = b
  · rw [if_pos hb, if_pos ha, if_pos hb]
    rfl
  · rw [if_neg hb, if_neg hb]

/-- The nodes that were linked before are still as they were. -/
theorem chain (hi : i < t.nodes.size) {l : UInt32} {is : List Nat} (hchain : t.Chain l is)
    (hnotin : i ∉ is) : t'.Chain l is := by
  refine hchain.congr fun j hj => ?_
  rw [hp.nodeAt_eq hi, if_neg]
  rintro rfl
  exact hnotin hj

/-- The new node comes before those that were linked before. -/
theorem chain_front (hi : i < t.nodes.size) (hsmall : i + 1 < 2 ^ 32) {is : List Nat}
    (hchain : t.Chain (t.bucket (t.bucketOf a)) is) (hnotin : i ∉ is) :
    t'.Chain (i + 1).toUInt32 (i :: is) := by
  have hlink : (i + 1).toUInt32.toNat = i + 1 := by
    rw [UInt32.toNat_ofNat']
    exact Nat.mod_eq_of_lt hsmall
  have hfront : (i + 1).toUInt32.toNat - 1 = i := by omega
  have hnext : (t'.node (i + 1).toUInt32).next = t.bucket (t.bucketOf a) := by
    show (t'.nodeAt ((i + 1).toUInt32.toNat - 1)).next = _
    rw [hfront, hp.nodeAt_eq hi, if_pos rfl]
  have hne : (i + 1).toUInt32 ≠ 0 := by
    intro hz
    rw [hz] at hlink
    cases hlink
  have hnew : t'.Chain (i + 1).toUInt32 (((i + 1).toUInt32.toNat - 1) :: is) :=
    .link hne (by rw [hnext]; exact hp.chain hi hchain hnotin)
  rwa [hfront] at hnew

end Pushed

namespace Threaded

variable {members : Nat → Prop}

theorem linked (h : t.Threaded members)
    (hsizes : 0 < t.buckets.size ∧ t.buckets.size ≤ 2 ^ 34) : t.Linked members :=
  ⟨hsizes, h.inside, h.chain⟩

theorem congr {members' : Nat → Prop} (h : t.Threaded members)
    (hiff : ∀ i, members' i ↔ members i) : t.Threaded members' := by
  obtain rfl : members' = members := funext fun i => propext (hiff i)
  exact h

/-- A node is put at the front of the chain of its bucket. -/
theorem push (h : t.Threaded members) {i : Nat} {a v : Address} (hp : t.Pushed i a v t')
    (hnew : ¬ members i) (hi : i < t.nodes.size) (hsmall : i + 1 < 2 ^ 32) :
    t'.Threaded fun j => j = i ∨ members j := by
  refine ⟨fun c => by rw [hp.size_buckets, hp.bucketOf_eq]; exact h.bucketOf_lt c, ?_, ?_⟩
  · rw [hp.size_nodes]
    rintro j (rfl | hj)
    · exact hi
    · exact h.inside j hj
  · intro b hb
    rw [hp.size_buckets] at hb
    obtain ⟨is, hchain, hnodup, hmem⟩ := h.chain b hb
    have hnotin : i ∉ is := fun hin => hnew ((hmem i).1 hin).1
    have hback : ∀ j, j ≠ i → (members j ∧ t.bucketOf (t.nodeAt j).source = b ↔
        (j = i ∨ members j) ∧ t'.bucketOf (t'.nodeAt j).source = b) := by
      intro j hj
      rw [hp.bucketOf_eq, hp.nodeAt_eq hi, if_neg fun hh => hj hh.symm]
      exact ⟨fun hh => ⟨.inr hh.1, hh.2⟩, fun hh => ⟨hh.1.resolve_left hj, hh.2⟩⟩
    have hself : t'.bucketOf (t'.nodeAt i).source = t.bucketOf a := by
      rw [hp.bucketOf_eq, hp.nodeAt_eq hi, if_pos rfl]
    rw [hp.bucket_eq (h.bucketOf_lt a)]
    by_cases hba : t.bucketOf a = b
    · rw [if_pos hba]
      refine ⟨i :: is, hp.chain_front hi hsmall (hba ▸ hchain) hnotin,
        List.nodup_cons.2 ⟨hnotin, hnodup⟩, fun j => ?_⟩
      by_cases hj : j = i
      · subst hj
        simp [hself, hba]
      · rw [List.mem_cons, ← hback j hj, ← hmem j]
        simp [hj]
    · rw [if_neg hba]
      refine ⟨is, hp.chain hi hchain hnotin, hnodup, fun j => ?_⟩
      by_cases hj : j = i
      · subst hj
        rw [hself]
        exact ⟨fun hin => absurd hin hnotin, fun hh => absurd hh.2 hba⟩
      · rw [← hback j hj]
        exact hmem j

/-- The search for an address goes along the chain of its bucket. -/
theorem find?_eq (h : t.Threaded members) (a : Address) :
    ∃ is : List Nat, is.Nodup ∧ (∀ i, i ∈ is ↔ members i ∧ t.bucketOf (t.nodeAt i).source = t.bucketOf a) ∧
      t.find? a = (is.find? fun i => (t.nodeAt i).source == a).map fun i => (t.nodeAt i).target := by
  obtain ⟨is, hchain, hnodup, hmem⟩ := h.chain _ (h.bucketOf_lt a)
  refine ⟨is, hnodup, hmem, hchain.search ?_ a⟩
  -- a chain has no more nodes than the arena
  have hsub : is ⊆ List.range t.nodes.size := fun i hi =>
    List.mem_range.2 (h.inside i ((hmem i).1 hi).1)
  have := (hnodup.subperm hsub).length_le
  rwa [List.length_range] at this

end Threaded

/-! ### Linking anew -/

/-- The same entries, whatever the chains. -/
structure SameEntries (t t' : ForwardTable) : Prop where
  size : t'.nodes.size = t.nodes.size
  used : t'.used = t.used
  entries : t'.entries = t.entries
  source : ∀ i, (t'.nodeAt i).source = (t.nodeAt i).source
  target : ∀ i, (t'.nodeAt i).target = (t.nodeAt i).target

/-- A node that is linked anew keeps its entry. -/
theorem SameEntries.push {old : ForwardTable} (hsame : old.SameEntries t) {i : Nat}
    (hp : t.Pushed i (old.nodeAt i).source (old.nodeAt i).target t') (hi : i < old.nodes.size)
    (hused : t'.used = t.used) (hentries : t'.entries = t.entries) : old.SameEntries t' := by
  have hi' : i < t.nodes.size := by rwa [hsame.size]
  refine ⟨hp.size_nodes.trans hsame.size, hused.trans hsame.used, hentries.trans hsame.entries,
    fun j => ?_, fun j => ?_⟩
  all_goals
    rw [hp.nodeAt_eq hi']
    split
  · rename_i hj
    rw [← hj]
  · exact hsame.source j
  · rename_i hj
    rw [← hj]
  · exact hsame.target j

/-- The nodes of an old chain are linked one after the other. -/
theorem relink_spec {old : ForwardTable} (hsmall : old.nodes.size < 2 ^ 32) {l : UInt32}
    {is : List Nat} (hchain : old.Chain l is) {fuel : Nat} (hfuel : is.length ≤ fuel)
    {members : Nat → Prop} (hthreaded : t.Threaded members) (hsame : old.SameEntries t)
    (hnodup : is.Nodup) (hnew : ∀ i ∈ is, ¬ members i ∧ i < old.nodes.size) :
    (old.relink fuel l t).Threaded (fun i => i ∈ is ∨ members i) ∧
      old.SameEntries (old.relink fuel l t) ∧
      (old.relink fuel l t).buckets.size = t.buckets.size := by
  induction hchain generalizing fuel t members with
  | stop =>
    have hstop : old.relink fuel 0 t = t := by
      cases fuel with
      | zero => rfl
      | succ fuel => exact if_pos rfl
    rw [hstop]
    exact ⟨hthreaded.congr fun i => by simp, hsame, rfl⟩
  | @link l is hne rest ih =>
    obtain ⟨n, rfl⟩ : ∃ n, fuel = n + 1 := ⟨fuel - 1, by simp at hfuel; omega⟩
    obtain ⟨hnotin, hnodup'⟩ := List.nodup_cons.1 hnodup
    obtain ⟨hfree, hinside⟩ := hnew (l.toNat - 1) (by simp)
    have hpos : l.toNat - 1 + 1 = l.toNat := by
      have : l.toNat ≠ 0 := fun hz => hne (UInt32.toNat_inj.1 hz)
      omega
    have hlink : (l.toNat - 1 + 1).toUInt32 = l := by
      rw [hpos]
      simp
    rw [relink, if_neg hne]
    dsimp only
    -- one node is put at the front of the chain of its bucket
    generalize hstep : ({ t with
      nodes := t.nodes.setIfInBounds (l.toNat - 1)
        { old.node l with next := t.buckets[t.bucketOf (old.node l).source]?.getD 0 }
      buckets := t.buckets.setIfInBounds (t.bucketOf (old.node l).source) l } : ForwardTable) = t₁
    have hpushed : t.Pushed (l.toNat - 1) (old.node l).source (old.node l).target t₁ := by
      rw [← hstep]
      exact ⟨rfl, by rw [hlink]⟩
    have hthreaded₁ : t₁.Threaded _ :=
      hthreaded.push hpushed hfree (by rw [hsame.size]; exact hinside) (by omega)
    have hsame₁ : old.SameEntries t₁ := hsame.push hpushed hinside (by rw [← hstep]) (by rw [← hstep])
    obtain ⟨h1, h2, h3⟩ := ih (Nat.le_of_succ_le_succ hfuel) hthreaded₁ hsame₁ hnodup' fun i hi => by
      obtain ⟨h4, h5⟩ := hnew i (List.mem_cons_of_mem _ hi)
      refine ⟨?_, h5⟩
      rintro (rfl | hm)
      · exact hnotin hi
      · exact h4 hm
    refine ⟨h1.congr fun i => ?_, h2, ?_⟩
    · rw [List.mem_cons]
      tauto
    · rw [h3, hpushed.size_buckets]

/-- Empty buckets have empty chains. -/
theorem threaded_of_forall_bucket {members : Nat → Prop}
    (hbucketOf : ∀ a, t.bucketOf a < t.buckets.size) (hzero : ∀ b, t.bucket b = 0)
    (hnone : ∀ i, ¬ members i) : t.Threaded members := by
  refine ⟨hbucketOf, fun i hi => absurd hi (hnone i), fun b _ => ⟨[], ?_, List.nodup_nil, ?_⟩⟩
  · rw [hzero]
    exact .stop
  · simp [hnone]

/-- Growing links every node anew. -/
theorem Threaded.grow {members : Nat → Prop} (h : t.Threaded members)
    (hsmall : t.nodes.size < 2 ^ 32)
    (hgrow : ∀ a, bucketAmong (t.buckets.size * 2) a < t.buckets.size * 2) :
    t.grow.Threaded members ∧ t.SameEntries t.grow := by
  have hsize : (Array.replicate (t.buckets.size * 2) (0 : UInt32)).size = t.buckets.size * 2 :=
    Array.size_replicate
  have hzero : ({ t with buckets := Array.replicate (t.buckets.size * 2) 0 } : ForwardTable).Threaded
      (fun i => members i ∧ t.bucketOf (t.nodeAt i).source < 0) := by
    refine threaded_of_forall_bucket (fun a => ?_) (fun b => ?_)
      fun i hi => absurd hi.2 (Nat.not_lt_zero _)
    · show bucketAmong (Array.replicate _ _).size a < (Array.replicate _ _).size
      rw [hsize]
      exact hgrow a
    · unfold bucket
      dsimp only
      rw [Array.getElem?_replicate]
      split <;> rfl
  -- the chains of the buckets before `b` have been linked
  have key := foldl_induct
    (f := fun (grown : ForwardTable) link => t.relink t.nodes.size link grown)
    (fun done grown => grown.Threaded (fun i => members i ∧
      t.bucketOf (t.nodeAt i).source < done.length) ∧ t.SameEntries grown ∧
      grown.buckets.size = t.buckets.size * 2) t.buckets.toList
    ({ t with buckets := Array.replicate (t.buckets.size * 2) 0 } : ForwardTable)
    ⟨hzero, ⟨rfl, rfl, rfl, fun _ => rfl, fun _ => rfl⟩, hsize⟩ (by
      rintro done link rest grown heq ⟨hthreaded, hsame, hgrown⟩
      have hlen : done.length < t.buckets.size := by
        rw [← Array.length_toList, heq]
        simp
      have hlink : t.bucket done.length = link := by
        unfold bucket
        rw [← Array.getElem?_toList, heq]
        simp
      obtain ⟨is, hchain, hnodup, hmem⟩ := h.chain done.length hlen
      rw [hlink] at hchain
      have hinside : ∀ i ∈ is, i < t.nodes.size := fun i hi => h.inside i ((hmem i).1 hi).1
      have hfuel : is.length ≤ t.nodes.size := by
        have := (hnodup.subperm fun i hi => List.mem_range.2 (hinside i hi)).length_le
        rwa [List.length_range] at this
      obtain ⟨h1, h2, h3⟩ := relink_spec hsmall hchain hfuel hthreaded hsame hnodup fun i hi => by
        refine ⟨fun hh => ?_, hinside i hi⟩
        rw [((hmem i).1 hi).2] at hh
        exact absurd hh.2 (Nat.lt_irrefl _)
      refine ⟨h1.congr fun i => ?_, h2, h3.trans hgrown⟩
      rw [hmem i, List.length_append, List.length_singleton, Nat.lt_succ_iff_lt_or_eq]
      tauto)
  obtain ⟨h1, h2, -⟩ := key
  refine ⟨h1.congr fun i => ?_, h2⟩
  rw [Array.length_toList]
  exact ⟨fun hi => ⟨hi, h.bucketOf_lt _⟩, fun hi => hi.1⟩

/-! ### What a table holds -/

/-- The table holds the given new addresses, each in a node of its own. -/
structure Holds (t : ForwardTable) (moves : List (Address × Address)) : Prop where
  used : t.used = moves.length
  entries : t.entries = moves.length
  room : moves.length ≤ t.nodes.size
  small : t.nodes.size < 2 ^ 32
  nodes : ∀ i e, moves[i]? = some e → (t.nodeAt i).source = e.1 ∧ (t.nodeAt i).target = e.2
  nodup : (moves.map Prod.fst).Nodup
  linked : t.Linked (· < moves.length)

/-- The same without a bound on the number of buckets. -/
structure Stores (t : ForwardTable) (moves : List (Address × Address)) : Prop where
  used : t.used = moves.length
  entries : t.entries = moves.length
  room : moves.length ≤ t.nodes.size
  small : t.nodes.size < 2 ^ 32
  nodes : ∀ i e, moves[i]? = some e → (t.nodeAt i).source = e.1 ∧ (t.nodeAt i).target = e.2
  nodup : (moves.map Prod.fst).Nodup
  threaded : t.Threaded (· < moves.length)

namespace Stores

variable {moves : List (Address × Address)}

theorem holds (h : t.Stores moves) (hsizes : 0 < t.buckets.size ∧ t.buckets.size ≤ 2 ^ 34) :
    t.Holds moves :=
  ⟨h.used, h.entries, h.room, h.small, h.nodes, h.nodup, h.threaded.linked hsizes⟩

/-- An entry is found. -/
theorem find?_of_mem (h : t.Stores moves) {a v : Address} (hmem : (a, v) ∈ moves) :
    t.find? a = some v := by
  obtain ⟨i, hi⟩ := List.mem_iff_getElem?.1 hmem
  obtain ⟨hsource, htarget⟩ := h.nodes i _ hi
  have hlt : i < moves.length := (List.getElem?_eq_some_iff.1 hi).1
  obtain ⟨is, hnodup, hchain, hfind⟩ := h.threaded.find?_eq a
  have hin : i ∈ is := (hchain i).2 ⟨hlt, by rw [hsource]⟩
  rw [hfind]
  -- no other node has the address
  have hfirst : is.find? (fun j => (t.nodeAt j).source == a) = some i := by
    cases hf : is.find? (fun j => (t.nodeAt j).source == a) with
    | none =>
      have := List.find?_eq_none.1 hf i hin
      rw [hsource] at this
      simp at this
    | some j =>
      have hj := List.find?_some hf
      rw [beq_iff_eq] at hj
      have hjlt := ((hchain j).1 (List.mem_of_find?_eq_some hf)).1
      have hjs := (h.nodes j _ (List.getElem?_eq_getElem hjlt)).1
      rw [hj] at hjs
      obtain ⟨hlt', heq⟩ := List.getElem?_eq_some_iff.1 hi
      have h1 : (moves.map Prod.fst)[j]? = some a := by
        rw [List.getElem?_map, List.getElem?_eq_getElem hjlt, hjs]
        rfl
      have h2 : (moves.map Prod.fst)[i]? = some a := by
        rw [List.getElem?_map, hi]
        rfl
      rw [(List.getElem?_inj (by rw [List.length_map]; exact hjlt) h.nodup).1 (h1.trans h2.symm)]
  rw [hfirst]
  exact congrArg some htarget

/-- Nothing else is found. -/
theorem find?_of_notMem (h : t.Stores moves) {a : Address} (hnew : a ∉ moves.map Prod.fst) :
    t.find? a = none := by
  obtain ⟨is, -, hchain, hfind⟩ := h.threaded.find?_eq a
  rw [hfind, Option.map_eq_none_iff, List.find?_eq_none]
  intro i hi heq
  have hlt := ((hchain i).1 hi).1
  have := (h.nodes i _ (List.getElem?_eq_getElem hlt)).1
  rw [beq_iff_eq.1 heq] at this
  exact hnew (List.mem_map.2 ⟨_, List.getElem_mem hlt, this.symm⟩)

/-- The table with another entry in the next node. -/
def added (t : ForwardTable) (a v : Address) : ForwardTable :=
  { buckets := t.buckets.setIfInBounds (t.bucketOf a) (t.used + 1).toUInt32
    nodes := t.nodes.setIfInBounds t.used ⟨a, v, t.head a⟩
    used := t.used + 1
    entries := t.entries + 1 }

/-- One more entry, as long as the arena has a node. -/
theorem put (h : t.Stores moves) {a : Address} (hnew : a ∉ moves.map Prod.fst)
    (hroom : moves.length < t.nodes.size) (v : Address) :
    ∃ t', t.put a v = .ok (⟨none, t'.crowded⟩, t') ∧ t'.Stores (moves ++ [(a, v)]) ∧
      t'.nodes.size = t.nodes.size ∧ t'.buckets.size = t.buckets.size := by
  refine ⟨added t a v, ?run, ?stores, Array.size_setIfInBounds, Array.size_setIfInBounds⟩
  case run =>
    unfold ForwardTable.put
    rw [h.find?_of_notMem hnew]
    dsimp only
    rw [if_pos (by rw [h.used]; exact hroom)]
    rfl
  case stores =>
    generalize hstep : added t a v = t'
    unfold added at hstep
    have hpushed : t.Pushed moves.length a v t' := by
      rw [← hstep, ← h.used]
      exact ⟨rfl, rfl⟩
    have hsmall := h.small
    have hthreaded : t'.Threaded _ :=
      h.threaded.push hpushed (Nat.lt_irrefl _) hroom (by omega)
    refine { used := ?used, entries := ?entries, room := ?room, small := ?small, nodes := ?nodes
             nodup := ?nodup, threaded := ?threaded }
    case used =>
      rw [← hstep, List.length_append]
      exact congrArg (· + 1) h.used
    case entries =>
      rw [← hstep, List.length_append]
      exact congrArg (· + 1) h.entries
    case room =>
      rw [hpushed.size_nodes, List.length_append]
      exact hroom
    case small =>
      rw [hpushed.size_nodes]
      exact hsmall
    case nodes =>
      intro i e he
      rw [hpushed.nodeAt_eq hroom]
      by_cases hi : moves.length = i
      · subst hi
        rw [List.getElem?_concat_length, Option.some.injEq] at he
        subst he
        rw [if_pos rfl]
        exact ⟨rfl, rfl⟩
      · rw [if_neg hi]
        have hlt : i < moves.length := by
          have := (List.getElem?_eq_some_iff.1 he).1
          rw [List.length_append, List.length_singleton] at this
          omega
        rw [List.getElem?_append_left hlt] at he
        exact h.nodes i e he
    case nodup =>
      rw [List.map_append, List.nodup_append]
      refine ⟨h.nodup, List.nodup_singleton _, ?_⟩
      intro x hx y hy hxy
      obtain rfl := List.mem_singleton.1 hy
      exact hnew (hxy ▸ hx)
    case threaded =>
      refine hthreaded.congr fun i => ?_
      rw [List.length_append, List.length_singleton]
      omega

/-- Growing loses no entry. -/
theorem grow (h : t.Stores moves)
    (hgrow : ∀ a, bucketAmong (t.buckets.size * 2) a < t.buckets.size * 2) :
    t.grow.Stores moves := by
  obtain ⟨hthreaded, hsame⟩ := h.threaded.grow h.small hgrow
  refine ⟨hsame.used.trans h.used, hsame.entries.trans h.entries, ?_, ?_, ?_, h.nodup, hthreaded⟩
  · rw [hsame.size]
    exact h.room
  · rw [hsame.size]
    exact h.small
  · intro i e he
    rw [hsame.source, hsame.target]
    exact h.nodes i e he

end Stores

/-- A table that has been emptied. -/
theorem stores_reset (hbucketOf : ∀ a, t.bucketOf a < t.buckets.size)
    (hsmall : t.nodes.size < 2 ^ 32) : t.reset.Stores [] := by
  have hsize : t.reset.buckets.size = t.buckets.size := Array.size_replicate
  refine ⟨rfl, rfl, Nat.zero_le _, hsmall, by simp, List.nodup_nil,
    threaded_of_forall_bucket (fun a => ?_) (fun b => ?_) fun i hi => absurd hi (Nat.not_lt_zero i)⟩
  · unfold bucketOf
    rw [hsize]
    exact hbucketOf a
  · unfold bucket reset
    dsimp only
    rw [Array.getElem?_replicate]
    split <;> rfl

/-! ### A bounded number of buckets -/

/-- Growing links every node anew. -/
theorem grow_spec {members : Nat → Prop} (h : t.Linked members) (hsmall : t.nodes.size < 2 ^ 32)
    (hgrow : t.buckets.size * 2 ≤ 2 ^ 34) : t.grow.Linked members ∧ t.SameEntries t.grow := by
  have hpos : 0 < t.buckets.size * 2 := Nat.mul_pos h.sizes.1 (by decide)
  obtain ⟨hthreaded, hsame⟩ := h.threaded.grow hsmall (bucketAmong_lt hpos (hgrow.trans_lt (by decide)))
  refine ⟨hthreaded.linked ?_, hsame⟩
  rw [size_buckets_grow]
  exact ⟨hpos, hgrow⟩

namespace Holds

variable {moves : List (Address × Address)}

theorem stores (h : t.Holds moves) : t.Stores moves :=
  ⟨h.used, h.entries, h.room, h.small, h.nodes, h.nodup, h.linked.threaded⟩

theorem find?_of_mem (h : t.Holds moves) {a v : Address} (hmem : (a, v) ∈ moves) :
    t.find? a = some v :=
  h.stores.find?_of_mem hmem

theorem find?_of_notMem (h : t.Holds moves) {a : Address} (hnew : a ∉ moves.map Prod.fst) :
    t.find? a = none :=
  h.stores.find?_of_notMem hnew

/-- One more entry, as long as the arena has a node. -/
theorem put (h : t.Holds moves) {a : Address} (hnew : a ∉ moves.map Prod.fst)
    (hroom : moves.length < t.nodes.size) (v : Address) :
    ∃ t', t.put a v = .ok (⟨none, t'.crowded⟩, t') ∧ t'.Holds (moves ++ [(a, v)]) ∧
      t'.nodes.size = t.nodes.size ∧ t'.buckets.size = t.buckets.size := by
  obtain ⟨t', hrun, hstores, hnodes, hbuckets⟩ := h.stores.put hnew hroom v
  exact ⟨t', hrun, hstores.holds (hbuckets ▸ h.linked.sizes), hnodes, hbuckets⟩

/-- Growing loses no entry. -/
theorem grow (h : t.Holds moves) (hgrow : t.buckets.size * 2 ≤ 2 ^ 34) : t.grow.Holds moves := by
  have hpos : 0 < t.buckets.size * 2 := Nat.mul_pos h.linked.sizes.1 (by decide)
  refine (h.stores.grow (bucketAmong_lt hpos (hgrow.trans_lt (by decide)))).holds ?_
  rw [size_buckets_grow]
  exact ⟨hpos, hgrow⟩

end Holds

/-- A table that has been emptied. -/
theorem holds_reset (hsizes : 0 < t.buckets.size ∧ t.buckets.size ≤ 2 ^ 34)
    (hsmall : t.nodes.size < 2 ^ 32) : t.reset.Holds [] := by
  refine (stores_reset (bucketAmong_lt hsizes.1 (hsizes.2.trans_lt (by decide))) hsmall).holds ?_
  have hsize : t.reset.buckets.size = t.buckets.size := Array.size_replicate
  rw [hsize]
  exact hsizes

end ForwardTable

end MarkCompact
