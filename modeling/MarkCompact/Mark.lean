/-
MarkCompact/Mark.lean

The mark word, the first word of every object.

Its fields, from the lowest bit on:

* bits 0 and 1, the lock: `00` stack-locked, `01` unlocked, `10` monitor, `11` forwarded;
* bit 2, self-forwarded, read only under the lock `11`;
* bits 3 to 6, the age;
* bit 7, hashed: an identity hash has been asked for;
* bit 8, expanded: the hash is kept in a trailing word (compact headers only);
* bits 9 to 39, the hash itself (classic headers only);
* bits 32 to 63, the class (compact headers only).

A classic header keeps its class in a second word, so a forwarded classic mark is the
target address with the lock `11`. A compact header has no room for an address.

Main results: each field reads back what was written into it (`lock_withLock`,
`isForwarded_forwardedTo`, `isSelfForwarded_selfForwarded`, `isHashed_withHashed`,
`isExpanded_withExpanded`), and a relocated mark is unlocked (`isUnlocked_relocated`).
-/
import MarkCompact.Text.Hex

namespace MarkCompact

/-- The first word of an object. -/
structure Mark where
  /-- The word itself. -/
  raw : Word
  deriving DecidableEq, Repr, Inhabited

/-- What the lock bits of a mark say about its object. -/
inductive HeaderState where
  | unlocked
  | stackLocked
  | monitor
  | forwarded
  | selfForwarded
  deriving DecidableEq, Repr

/-- The name of a state as diagnostics print it. -/
def HeaderState.name : HeaderState → String
  | .unlocked => "Unlocked"
  | .stackLocked => "StackLocked"
  | .monitor => "Monitor"
  | .forwarded => "Forwarded"
  | .selfForwarded => "SelfForwarded"

/-! ### Fields -/

/-- The two lock bits. -/
def lockMask : Word := 0b11

/-- The bit of an object that forwards to itself. -/
def selfMask : Word := 0b100

/-- The four bits of the age. -/
def ageMask : Word := 0b1111000

/-- The greatest age that fits. -/
def greatestAge : UInt8 := 15

/-- The bit of an object whose identity hash has been asked for. -/
def hashedMask : Word := 0x80

/-- The bit of an object that carries its hash in a trailing word. -/
def expandedMask : Word := 0x100

/-- The 31 bits of a classic identity hash. -/
def hashMask : Word := 0xfffffffe00

/-- The upper half, the class of a compact object. -/
def classMask : Word := 0xffffffff00000000

namespace Mark

/-- The mark of a new classic object. -/
def fresh : Mark := ⟨0b01⟩

/-- The mark of a new compact object of a class. -/
def freshOf (classId : UInt32) : Mark := ⟨(classId.toUInt64 <<< 32) ||| 0b01⟩

/-- The mark of a classic object that has been given a new address. -/
def forwardedTo (target : Address) : Mark := ⟨target ||| 0b11⟩

/-! ### Lock -/

/-- The lock bits. -/
def lock (m : Mark) : Word := m.raw &&& lockMask

/-- The mark with other lock bits. -/
def withLock (m : Mark) (bits : Word) : Mark :=
  ⟨(m.raw &&& ~~~lockMask) ||| (bits &&& lockMask)⟩

def isUnlocked (m : Mark) : Bool := m.lock == 0b01

/-- Whether the object is stack-locked or has a monitor. -/
def isLocked (m : Mark) : Bool := m.lock == 0b00 || m.lock == 0b10

def isForwarded (m : Mark) : Bool := m.lock == 0b11

def isSelfForwarded (m : Mark) : Bool := m.isForwarded && m.raw &&& selfMask != 0

/-- The same word, forwarded to its own object. -/
def selfForwarded (m : Mark) : Mark := ⟨m.raw ||| 0b11 ||| selfMask⟩

/-- The address in a forwarded classic mark. -/
def pointer (m : Mark) : Address := m.raw &&& ~~~lockMask

/-- The state of the object. -/
def state (m : Mark) : HeaderState :=
  if m.lock = 0b01 then .unlocked
  else if m.lock = 0b00 then .stackLocked
  else if m.lock = 0b10 then .monitor
  else if m.isSelfForwarded then .selfForwarded
  else .forwarded

/-! ### Age -/

/-- The number of collections survived. -/
def age (m : Mark) : UInt8 := ((m.raw &&& ageMask) >>> 3).toUInt8

/-- The mark with another age, cut off at the greatest one. -/
def withAge (m : Mark) (age : UInt8) : Mark :=
  ⟨(m.raw &&& ~~~ageMask) ||| ((min age greatestAge).toUInt64 <<< 3)⟩

/-! ### Identity hash -/

def isHashed (m : Mark) : Bool := m.raw &&& hashedMask != 0

def withHashed (m : Mark) : Mark := ⟨m.raw ||| hashedMask⟩

def isExpanded (m : Mark) : Bool := m.raw &&& expandedMask != 0

def withExpanded (m : Mark) : Mark := ⟨m.raw ||| expandedMask⟩

/-- The identity hash that a classic mark holds. -/
def hash (m : Mark) : UInt32 := ((m.raw &&& hashMask) >>> 9).toUInt32

/-- The classic mark with an identity hash, which also makes it hashed. -/
def withHash (m : Mark) (h : UInt32) : Mark :=
  ⟨(m.raw &&& ~~~hashMask) ||| ((h.toUInt64 &&& 0x7fffffff) <<< 9) ||| hashedMask⟩

/-! ### Class -/

/-- The class that a compact mark holds. -/
def classId (m : Mark) : UInt32 := (m.raw >>> 32).toUInt32

/-! ### Moving -/

/-- Whether the header of the moved object cannot be rebuilt without this mark: it is
locked, or it is a classic mark that holds a hash. -/
def mustPreserve (m : Mark) (compact : Bool) : Bool :=
  m.isLocked || (!compact && m.isHashed)

/-- The mark of an object that has been moved. A classic one starts afresh; a compact one
keeps its class and what is known of its hash, and is expanded if it has `grown`. -/
def relocated (m : Mark) (compact grown : Bool) : Mark :=
  if compact then
    let kept : Mark := ⟨(m.raw &&& (classMask ||| hashedMask ||| expandedMask)) ||| 0b01⟩
    if grown then kept.withExpanded else kept
  else fresh

/-- A mark as diagnostics print it. -/
def debug (m : Mark) : String :=
  "MarkWord(" ++ paddedHex m.raw ++ ", " ++ m.state.name ++ ")"

end Mark

/-! ### What is written is read back -/

namespace Mark

private theorem or_and_ne_zero (w b : Word) (hb : b ≠ 0) : (w ||| b) &&& b ≠ 0 := by
  have absorb : (w ||| b) &&& b = b := by
    apply UInt64.toBitVec_inj.1
    ext i hi
    simp only [UInt64.toBitVec_and, UInt64.toBitVec_or, BitVec.getElem_and, BitVec.getElem_or]
    cases b.toBitVec[i] <;> simp
  rw [absorb]
  exact hb

theorem lock_withLock (m : Mark) (bits : Word) : (m.withLock bits).lock = bits &&& lockMask := by
  apply UInt64.toBitVec_inj.1
  ext i hi
  simp only [lock, withLock, UInt64.toBitVec_and, UInt64.toBitVec_or, UInt64.toBitVec_not,
    BitVec.getElem_and, BitVec.getElem_or, BitVec.getElem_not]
  cases lockMask.toBitVec[i] <;> simp

@[simp] theorem isHashed_withHashed (m : Mark) : m.withHashed.isHashed := by
  simp only [isHashed, withHashed, bne_iff_ne]
  exact or_and_ne_zero _ _ (by decide)

@[simp] theorem isExpanded_withExpanded (m : Mark) : m.withExpanded.isExpanded := by
  simp only [isExpanded, withExpanded, bne_iff_ne]
  exact or_and_ne_zero _ _ (by decide)

@[simp] theorem isForwarded_forwardedTo (a : Address) : (forwardedTo a).isForwarded := by
  have low : (a ||| 0b11) &&& lockMask = 0b11 := by
    apply UInt64.toBitVec_inj.1
    ext i hi
    simp only [UInt64.toBitVec_and, UInt64.toBitVec_or, BitVec.getElem_and, BitVec.getElem_or,
      lockMask]
    cases (3 : UInt64).toBitVec[i] <;> simp
  simp only [isForwarded, lock, forwardedTo, low, beq_self_eq_true]

@[simp] theorem isForwarded_selfForwarded (m : Mark) : m.selfForwarded.isForwarded := by
  have low : (m.raw ||| 0b11 ||| selfMask) &&& lockMask = 0b11 := by
    have split : lockMask &&& selfMask = 0 := by decide
    apply UInt64.toBitVec_inj.1
    ext i hi
    have here := congrArg (fun w : UInt64 => w.toBitVec[i]) split
    simp only [UInt64.toBitVec_and, UInt64.toBitVec_or, BitVec.getElem_and, BitVec.getElem_or,
      lockMask, UInt64.toBitVec_ofNat, BitVec.getElem_zero] at here ⊢
    cases h3 : (3#64)[i] <;> simp_all
  simp only [isForwarded, lock, selfForwarded, low, beq_self_eq_true]

@[simp] theorem isSelfForwarded_selfForwarded (m : Mark) : m.selfForwarded.isSelfForwarded := by
  simp only [isSelfForwarded, isForwarded_selfForwarded, Bool.true_and, bne_iff_ne]
  exact or_and_ne_zero _ _ (by decide)

@[simp] theorem isUnlocked_relocated (m : Mark) (compact grown : Bool) :
    (m.relocated compact grown).isUnlocked := by
  have keeps : (classMask ||| hashedMask ||| expandedMask) &&& lockMask = 0 := by decide
  have flag : expandedMask &&& lockMask = 0 := by decide
  have low : ∀ w e : Word, e &&& lockMask = 0 →
      ((w &&& (classMask ||| hashedMask ||| expandedMask)) ||| 1 ||| e) &&& lockMask = 1 := by
    intro w e he
    apply UInt64.toBitVec_inj.1
    ext i hi
    have hk := congrArg (fun w : UInt64 => w.toBitVec[i]) keeps
    have he := congrArg (fun w : UInt64 => w.toBitVec[i]) he
    have one : (1#64)[i] = true → (3#64)[i] = true := by
      intro h
      have : i = 0 := by simpa using h
      simp [this]
    simp only [UInt64.toBitVec_and, UInt64.toBitVec_or, BitVec.getElem_and, BitVec.getElem_or,
      lockMask, UInt64.toBitVec_ofNat, BitVec.getElem_zero] at hk he one ⊢
    cases h3 : (3#64)[i]
    · rw [h3] at one
      simp only [Bool.and_false, Bool.false_eq_true, imp_false, Bool.not_eq_true] at one ⊢
      exact one.symm
    · simp_all
  cases compact <;> cases grown
  · simp only [relocated, Bool.false_eq_true, if_false]
    decide
  · simp only [relocated, Bool.false_eq_true, if_false]
    decide
  · have := low m.raw 0 (by decide)
    simp_all [relocated, isUnlocked, lock]
  · have := low m.raw expandedMask flag
    simp_all [relocated, isUnlocked, lock, withExpanded]

end Mark

end MarkCompact
