/-
MarkCompact/Proofs/ShadowOffers.lean

What becomes of the shadows that are offered to a region.

While a region is compacted any workers may offer it shadows, and one of them makes it ready, when
all that has to leave it has left.  Both are done under one lock, so the calls come one after the
other, in whatever order (`Call`).  From the moment at which the region is ready it is for the one
who offers a shadow to put it in place, and no longer for the region.

* No call loses a shadow or doubles one: what has waited and what is offered is what is handed out,
  what is given back and what waits after (`count_answer`, and `perm_after` for a run).
* Whether the region is ready says which way an offer goes, and it is ready exactly if it has been
  made so since the collection began (`ready_after`).
* Nothing waits in a region that has been made ready (`pending_after_of_made`), so a collection
  finds the region as the first one did.

Main result: `Region.compaction_handsOver`.
-/
import Mathlib.Tactic
import MarkCompact.Heap.Region

namespace MarkCompact.Region

variable {Worker : Type} {r : Region}

/-! ### Calls -/

/-- What is done with a region apart from handing shadows over. -/
inductive Use where
  | allocate (words : WordCount)
  | transition (expected new : RegionKind)
  | makeFree
  | setKind (kind : RegionKind)
  | setTop (top : Address)
  | setCompactionTop (top : Address)
  | setCompacting (compacting : Bool)
  deriving DecidableEq, Repr

/-- The region after. -/
def use (r : Region) : Use → Region
  | .allocate words => ((r.allocate words).map Prod.snd).getD r
  | .transition expected new => (r.transition expected new).2
  | .makeFree => r.makeFree
  | .setKind kind => { r with kind := kind }
  | .setTop top => { r with top := top }
  | .setCompactionTop top => { r with compactionTop := top }
  | .setCompacting compacting => { r with compacting := compacting }

/-- What a worker does with a region that is being compacted. -/
inductive Call (Worker : Type) where
  | offer (worker : Worker) (shadow : Shadow)
  | markReady (worker : Worker)
  | use (u : Use)
  deriving DecidableEq, Repr

/-- What the worker gets for it. -/
inductive Reply where
  /-- Nothing.  A shadow that has been offered stays with the region. -/
  | nothing
  /-- The shadow that it has offered. -/
  | back (shadow : Shadow)
  /-- The shadows that have stayed with the region. -/
  | handout (shadows : List Shadow)
  deriving DecidableEq, Repr

def Call.isMarkReady : Call Worker → Bool
  | .markReady _ => true
  | _ => false

/-- The shadow that it offers, if it is an offer. -/
def Call.offered : Call Worker → List Shadow
  | .offer _ s => [s]
  | _ => []

/-- The shadow that goes back to the worker, if one does. -/
def Reply.givenBack : Reply → List Shadow
  | .back s => [s]
  | _ => []

/-- The shadows that the worker is handed out. -/
def Reply.handedOut : Reply → List Shadow
  | .handout ss => ss
  | _ => []

/-- What a call gets, and the region after it. -/
def answer (r : Region) : Call Worker → Reply × Region
  | .offer _ s => ((r.offer s).1.elim .nothing .back, (r.offer s).2)
  | .markReady _ => (.handout r.markReady.1, r.markReady.2)
  | .use u => (.nothing, r.use u)

/-- What each of the calls gets, one after the other. -/
def replies (r : Region) : List (Call Worker) → List Reply
  | [] => []
  | c :: cs => (r.answer c).1 :: (r.answer c).2.replies cs

/-- The region after the calls. -/
def after (r : Region) (calls : List (Call Worker)) : Region :=
  calls.foldl (fun r c => (r.answer c).2) r

/-- What has become of the shadows that were offered in a collection. -/
structure HandsOver (calls : List (Call Worker)) (replies : List Reply) : Prop where
  /-- Each has been handed out or given back, and only once. -/
  onceEach : (calls.flatMap Call.offered).Perm
    (replies.flatMap Reply.handedOut ++ replies.flatMap Reply.givenBack)
  /-- Who makes the region ready gets those that were offered before, in the order of the offers. -/
  inOrder : ∀ k w, calls[k]? = some (Call.markReady w) →
    replies[k]? = some (Reply.handout ((calls.take k).flatMap Call.offered))
  /-- A shadow goes back to the worker who offers it if the region has been made ready before, and
  stays with the region otherwise. -/
  toOfferer : ∀ k w s, calls[k]? = some (Call.offer w s) →
    replies[k]? = some (if (calls.take k).any Call.isMarkReady then .back s else .nothing)

/-- A collection in which a region takes part, and what is done with the region before it. -/
structure Compaction (Worker : Type) where
  before : List Use
  calls : List (Call Worker)
  /-- One worker makes the region ready, once. -/
  once : calls.countP Call.isMarkReady = 1

/-- The region when the collection has begun. -/
def begun (r : Region) (c : Compaction Worker) : Region := (c.before.foldl use r).beginCompaction

/-- The region when the collection has ended. -/
def compacted (r : Region) (c : Compaction Worker) : Region :=
  ((r.begun c).after c.calls).endCompaction

/-! ### One call -/

/-- Nothing else that is done with a region has to do with shadows. -/
theorem use_spec (r : Region) (u : Use) :
    (r.use u).ready = r.ready ∧ (r.use u).pending = r.pending := by
  cases u with
  | allocate words =>
    cases hall : r.allocate words with
    | none => simp [use, hall]
    | some p =>
      obtain ⟨-, -, -, hp⟩ := allocate_eq_some_iff.1 hall
      simp [use, hall, hp]
  | transition expected new =>
    by_cases hkind : r.kind = expected <;> simp [use, transition, hkind]
  | makeFree | setKind | setTop | setCompactionTop | setCompacting => exact ⟨rfl, rfl⟩

/-- A region that is ready gives back what it is offered. -/
theorem answer_of_ready (hready : r.ready = true) (w : Worker) (s : Shadow) :
    r.answer (.offer w s) = (.back s, r) := by
  rw [answer, offer_of_ready hready]
  rfl

/-- A region that is not ready keeps it. -/
theorem answer_of_not_ready (hready : r.ready = false) (w : Worker) (s : Shadow) :
    r.answer (.offer w s) = (.nothing, { r with pending := r.pending ++ [s] }) := by
  rw [answer, offer_of_not_ready hready]
  rfl

theorem answer_offer (r : Region) (w : Worker) (s : Shadow) :
    (r.answer (.offer w s)).1 = if r.ready then .back s else .nothing := by
  cases hready : r.ready with
  | true => rw [answer_of_ready hready, if_pos rfl]
  | false => rw [answer_of_not_ready hready, if_neg Bool.false_ne_true]

/-- A region becomes ready when it is made so, and stays ready. -/
theorem ready_answer (r : Region) (c : Call Worker) :
    (r.answer c).2.ready = (r.ready || c.isMarkReady) := by
  cases c with
  | offer w s =>
    cases hready : r.ready with
    | true => rw [answer_of_ready hready, hready]; rfl
    | false => rw [answer_of_not_ready hready]; exact hready
  | markReady w => exact (Bool.or_true _).symm
  | use u => exact (use_spec r u).1.trans (Bool.or_false _).symm

/-- The shadows that have waited and the one that is offered are those that are handed out or given
back and those that wait after. -/
theorem count_answer (r : Region) (c : Call Worker) (s : Shadow) :
    r.pending.count s + c.offered.count s
      = (r.answer c).1.handedOut.count s + (r.answer c).1.givenBack.count s
        + (r.answer c).2.pending.count s := by
  cases c with
  | offer w s' =>
    cases hready : r.ready with
    | true =>
      rw [answer_of_ready hready]
      simp [Call.offered, Reply.handedOut, Reply.givenBack, Nat.add_comm]
    | false =>
      rw [answer_of_not_ready hready]
      simp [Call.offered, Reply.handedOut, Reply.givenBack]
  | markReady w => simp [answer, markReady, Call.offered, Reply.handedOut, Reply.givenBack]
  | use u => simp [answer, Call.offered, Reply.handedOut, Reply.givenBack, (use_spec r u).2]

/-- Until a region is made ready it keeps what it is offered. -/
theorem pending_answer (hready : r.ready = false) {c : Call Worker}
    (hc : c.isMarkReady = false) : (r.answer c).2.pending = r.pending ++ c.offered := by
  cases c with
  | offer w s => rw [answer_of_not_ready hready]; rfl
  | markReady w => cases hc
  | use u => exact (use_spec r u).2.trans (List.append_nil _).symm

/-- When a region is ready it keeps nothing more. -/
theorem pending_answer_of_ready (hready : r.ready = true) (hnone : r.pending = [])
    (c : Call Worker) : (r.answer c).2.pending = [] := by
  cases c with
  | offer w s => rw [answer_of_ready hready]; exact hnone
  | markReady w => rfl
  | use u => exact (use_spec r u).2.trans hnone

/-! ### A run of calls -/

theorem after_append (r : Region) (xs ys : List (Call Worker)) :
    r.after (xs ++ ys) = (r.after xs).after ys :=
  List.foldl_append

/-- A call is answered by the region as the calls before it have left it. -/
theorem getElem?_replies (r : Region) (calls : List (Call Worker)) (k : Nat) :
    (r.replies calls)[k]? = calls[k]?.map fun c => ((r.after (calls.take k)).answer c).1 := by
  induction calls generalizing r k with
  | nil => rfl
  | cons c cs ih =>
    cases k with
    | zero => rfl
    | succ k => exact ih (r.answer c).2 k

/-- A region is ready after calls if it was before or one of them has made it so. -/
theorem ready_after (r : Region) (calls : List (Call Worker)) :
    (r.after calls).ready = (r.ready || calls.any Call.isMarkReady) := by
  induction calls generalizing r with
  | nil => exact (Bool.or_false _).symm
  | cons c cs ih =>
    show ((r.answer c).2.after cs).ready = _
    rw [ih, ready_answer, List.any_cons, Bool.or_assoc]

/-- As many shadows as have waited or are offered are handed out, are given back or wait after. -/
theorem perm_after (r : Region) (calls : List (Call Worker)) :
    (r.pending ++ calls.flatMap Call.offered).Perm
      ((r.replies calls).flatMap Reply.handedOut ++ (r.replies calls).flatMap Reply.givenBack
        ++ (r.after calls).pending) := by
  refine List.perm_iff_count.2 fun s => ?_
  simp only [List.count_append]
  induction calls generalizing r with
  | nil => simp [replies, after]
  | cons c cs ih =>
    have hstep := count_answer r c s
    have hrest := ih (r.answer c).2
    have hafter : r.after (c :: cs) = (r.answer c).2.after cs := rfl
    rw [hafter, replies]
    simp only [List.flatMap_cons, List.count_append]
    omega

/-- A region that is not made ready keeps all that it is offered, in the order of the offers. -/
theorem pending_after (hready : r.ready = false) {calls : List (Call Worker)}
    (hcalls : calls.any Call.isMarkReady = false) :
    (r.after calls).pending = r.pending ++ calls.flatMap Call.offered := by
  induction calls generalizing r with
  | nil => exact (List.append_nil _).symm
  | cons c cs ih =>
    rw [List.any_cons, Bool.or_eq_false_iff] at hcalls
    have hnext : (r.answer c).2.ready = false := by rw [ready_answer, hready, hcalls.1]; rfl
    show ((r.answer c).2.after cs).pending = _
    rw [ih hnext hcalls.2, pending_answer hready hcalls.1, List.flatMap_cons, List.append_assoc]

/-- Nothing comes to wait in a region that is ready. -/
theorem pending_after_of_ready (hready : r.ready = true) (hnone : r.pending = [])
    (calls : List (Call Worker)) : (r.after calls).pending = [] := by
  induction calls generalizing r with
  | nil => exact hnone
  | cons c cs ih =>
    exact ih (by rw [ready_answer, hready]; rfl) (pending_answer_of_ready hready hnone c)

/-- Nothing waits in a region that has been made ready. -/
theorem pending_after_of_made (r : Region) {calls : List (Call Worker)}
    (hmade : calls.any Call.isMarkReady = true) : (r.after calls).pending = [] := by
  obtain ⟨c, hmem, hc⟩ := List.any_eq_true.1 hmade
  obtain ⟨xs, ys, rfl⟩ := List.append_of_mem hmem
  cases c with
  | offer | use => cases hc
  | markReady w =>
    rw [after_append]
    exact pending_after_of_ready (r := ((r.after xs).answer (.markReady w)).2) rfl rfl ys

/-! ### Collections -/

@[simp] theorem pending_new (index : Nat) (bottom stop : Address) :
    (new index bottom stop).pending = [] := rfl

theorem pending_begun (r : Region) (c : Compaction Worker) : (r.begun c).pending = r.pending := by
  show (c.before.foldl use r).pending = _
  induction c.before generalizing r with
  | nil => rfl
  | cons u us ih => exact (ih (r.use u)).trans (use_spec r u).2

/-- A collection leaves no shadow behind. -/
theorem pending_compacted (r : Region) (c : Compaction Worker) : (r.compacted c).pending = [] := by
  refine pending_after_of_made (r.begun c) (List.any_eq_true.2 ?_)
  obtain ⟨x, hx, hmade⟩ := List.countP_pos_iff.1 (c.once ▸ Nat.one_pos)
  exact ⟨x, hx, hmade⟩

/-- Before the call that makes the region ready there is no other one that does. -/
theorem Compaction.none_before (c : Compaction Worker) {k : Nat} {w : Worker}
    (hk : c.calls[k]? = some (Call.markReady w)) : (c.calls.take k).any Call.isMarkReady = false := by
  obtain ⟨hlt, hat⟩ := List.getElem?_eq_some_iff.1 hk
  have hcount := c.once
  rw [← List.take_append_drop k c.calls, List.countP_append, List.drop_eq_getElem_cons hlt, hat,
    List.countP_cons_of_pos rfl] at hcount
  have hzero : (c.calls.take k).countP Call.isMarkReady = 0 := by omega
  exact List.any_eq_false.2 fun x hx => List.countP_eq_zero.1 hzero x hx

/-- Whatever collections a region has been through, in the next one each shadow that any worker
offers it is either handed out, when the region is made ready, in the order of the offers, or given
back, later on, to the worker who has offered it.  None waits once the region is ready, and none is
left for the collection after. -/
theorem compaction_handsOver (hr : r.pending = []) (past : List (Compaction Worker))
    (c : Compaction Worker) :
    HandsOver c.calls (((past.foldl compacted r).begun c).replies c.calls) ∧
      (∀ k, (c.calls.take k).any Call.isMarkReady = true →
        (((past.foldl compacted r).begun c).after (c.calls.take k)).pending = []) ∧
      ((past.foldl compacted r).compacted c).pending = [] := by
  have hpast : (past.foldl compacted r).pending = [] := by
    induction past using List.reverseRecOn with
    | nil => exact hr
    | append_singleton past last _ =>
      rw [List.foldl_append]
      exact pending_compacted _ last
  generalize past.foldl compacted r = r' at hpast ⊢
  have hpending : (r'.begun c).pending = [] := (pending_begun r' c).trans hpast
  have hready : (r'.begun c).ready = false := rfl
  have hleft : ((r'.begun c).after c.calls).pending = [] := pending_compacted r' c
  refine ⟨⟨?_, fun k w hk => ?_, fun k w s hk => ?_⟩,
    fun k hmade => pending_after_of_made _ hmade, hleft⟩
  · have hperm := perm_after (r'.begun c) c.calls
    rwa [hpending, hleft, List.nil_append, List.append_nil] at hperm
  · -- what is handed out is what has come to wait since the collection began
    have hwaiting := pending_after hready (c.none_before hk)
    rw [hpending, List.nil_append] at hwaiting
    rw [getElem?_replies, hk, ← hwaiting]
    rfl
  · rw [getElem?_replies, hk, Option.map_some, answer_offer, ready_after, hready, Bool.false_or]

/-- Two collections of one region, between which an object is made in it.  The shadow that comes too
late for the first one is offered again in the second, before the region is ready and after. -/
theorem compaction_handsOver_again :
    let early : Shadow := ⟨2, 0x1000, [1, 2]⟩
    let late : Shadow := ⟨2, 0x1010, [3]⟩
    let first : Compaction String := ⟨[], [.offer "a" early, .markReady "b", .offer "a" late], rfl⟩
    let second : Compaction String :=
      ⟨[.setKind .regular, .allocate 4],
        [.offer "c" late, .offer "a" early, .use (.setCompactionTop 0x1018), .markReady "b",
          .offer "c" late], rfl⟩
    (new 2 0x1000 0x1200).pending = [] ∧
      HandsOver second.calls [.nothing, .nothing, .nothing, .handout [late, early], .back late] ∧
      (((new 2 0x1000 0x1200).compacted first).compacted second).pending = [] := by
  intro early late first second
  obtain ⟨hover, -, hnone⟩ := compaction_handsOver (pending_new 2 0x1000 0x1200) [first] second
  have hreplies : (((new 2 0x1000 0x1200).compacted first).begun second).replies second.calls
      = [.nothing, .nothing, .nothing, .handout [late, early], .back late] := by decide
  rw [List.foldl_cons, List.foldl_nil] at hover hnone
  exact ⟨rfl, hreplies ▸ hover, hnone⟩

end MarkCompact.Region
