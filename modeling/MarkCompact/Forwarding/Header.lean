/-
MarkCompact/Forwarding/Header.lean

New addresses in the mark word itself.

A classic header has room for a whole address, and so the new address of an object takes
the place of its mark. An object that stays where it is keeps its mark, with the
self-forwarded bit set.

`settle` is what all encodings do that let the header decide between several claims to
the same object: the first exchange of the mark wins, and every later one is told what
the header says.

Main results: `target_forwardedTo` and `target_selfForwarded` (what is written is read
back), and `settle_of_unchanged` (the first claim wins).
-/
import MarkCompact.Heap.Memory

namespace MarkCompact

/-! ### Deciding by the header -/

/-- Replaces the expected mark of an object. If another mark is found, which must be a
forwarded one, the answer is the target that `decode` reads in it. -/
def settle (m : Memory) (object : Address) (expected new : Mark)
    (decode : Mark → Except Fault (Option Address)) :
    Except Fault (Option Address × Memory) :=
  match m.exchangeMark object expected new with
  | (.ok _, m) => .ok (none, m)
  | (.error found, m) =>
    if found.isForwarded then (decode found).map fun target => (target, m)
    else .error (.notForwarded object found)

theorem settle_of_unchanged {m : Memory} {object : Address} {expected : Mark}
    (unchanged : m.loadMark object = expected) (new : Mark)
    (decode : Mark → Except Fault (Option Address)) :
    settle m object expected new decode = .ok (none, m.storeMark object new) := by
  subst unchanged
  simp [settle, Memory.exchangeMark, Memory.exchange, Memory.loadMark, Memory.storeMark]

/-! ### Addresses in headers -/

namespace HeaderForwarding

/-- The target that the mark of an object holds, if it is forwarded. -/
def target (mark : Mark) (object : Address) : Option Address :=
  if !mark.isForwarded then none
  else if mark.isSelfForwarded then some object
  else some mark.pointer

/-- The new address of an object, if it has one. -/
def forwardee (m : Memory) (object : Address) : Option Address :=
  target (m.loadMark object) object

/-- Gives an object a new address. -/
def forwardTo (m : Memory) (object target : Address) : Memory :=
  m.storeMark object (.forwardedTo target)

/-- Keeps an object where it is. -/
def forwardToSelf (m : Memory) (object : Address) : Memory :=
  m.storeMark object (m.loadMark object).selfForwarded

/-- Gives an object a new address unless it has one: then that one is the answer. -/
def claim (m : Memory) (object target : Address) (expected : Mark) :
    Except Fault (Option Address × Memory) :=
  settle m object expected (.forwardedTo target) fun found =>
    .ok (HeaderForwarding.target found object)

/-- Keeps an object where it is unless it has a new address: then that one is the answer. -/
def claimSelf (m : Memory) (object : Address) (expected : Mark) :
    Except Fault (Option Address × Memory) :=
  settle m object expected expected.selfForwarded fun found => .ok (target found object)

theorem target_selfForwarded (mark : Mark) (object : Address) :
    target mark.selfForwarded object = some object := by
  simp [target]

theorem target_eq_none_iff {mark : Mark} {object : Address} :
    target mark object = none ↔ mark.isForwarded = false := by
  cases forwarded : mark.isForwarded <;> cases self : mark.isSelfForwarded <;>
    simp [target, forwarded, self]

/-- An aligned address is read back from the mark it was written into. -/
theorem target_forwardedTo {a : Address} (aligned : a &&& 7 = 0) (object : Address) :
    target (.forwardedTo a) object = some a := by
  have low : ∀ b : Word, b &&& 7 = b → a &&& b = 0 := by
    intro b hb
    rw [← hb, UInt64.and_comm b, ← UInt64.and_assoc, aligned, UInt64.zero_and]
  have disjoint : ∀ b c : Word, a &&& c = 0 → (a ||| b) &&& c = b &&& c := by
    intro b c hc
    apply UInt64.toBitVec_inj.1
    ext i hi
    have here := congrArg (fun w : UInt64 => w.toBitVec[i]) hc
    simp only [UInt64.toBitVec_and, UInt64.toBitVec_or, BitVec.getElem_and, BitVec.getElem_or,
      UInt64.toBitVec_ofNat, BitVec.getElem_zero] at here ⊢
    cases ha : a.toBitVec[i] <;> cases hb : c.toBitVec[i] <;> simp_all
  have self : (Mark.forwardedTo a).isSelfForwarded = false := by
    have : (a ||| 3) &&& 4 = 0 := by rw [disjoint 3 4 (low 4 (by decide))]; decide
    simp [Mark.isSelfForwarded, Mark.forwardedTo, selfMask, this]
  have pointer : (Mark.forwardedTo a).pointer = a := by
    simp only [Mark.pointer, Mark.forwardedTo, lockMask]
    apply UInt64.toBitVec_inj.1
    ext i hi
    have here := congrArg (fun w : UInt64 => w.toBitVec[i]) (low 3 (by decide))
    simp only [UInt64.toBitVec_and, UInt64.toBitVec_or, UInt64.toBitVec_not, BitVec.getElem_and,
      BitVec.getElem_or, BitVec.getElem_not, UInt64.toBitVec_ofNat, BitVec.getElem_zero] at here ⊢
    cases h : a.toBitVec[i] <;> simp_all
  simp [target, self, pointer]

end HeaderForwarding

end MarkCompact
