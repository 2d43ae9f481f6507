/-
MarkCompact/Object/ClassTable.lean

Classes: the size of their instances and the places of their reference fields.

A class is numbered in the order of registration. A class is refused if its instances
would not hold their header, if it lists a field twice, or if a field lies in the header
or past the end.

Main result: `register_eq_ok_iff` (which classes are accepted, and their number).
-/
import MarkCompact.Error

namespace MarkCompact

/-- The layout of the instances of a class. -/
structure ClassInfo where
  name : String
  /-- The words of an instance, its header included. -/
  words : WordCount
  /-- The places of the reference fields, in words from the start of an instance. -/
  fields : List WordCount
  deriving DecidableEq, Repr, Inhabited

/-- The classes of a heap. -/
structure ClassTable where
  /-- Whether instances carry their class in the mark word. -/
  compactHeaders : Bool
  classes : Array ClassInfo
  deriving Repr, Inhabited

namespace ClassTable

/-- A table without classes. -/
def empty (compactHeaders : Bool) : ClassTable := ⟨compactHeaders, #[]⟩

/-- The words of a header. -/
def headerWords (t : ClassTable) : WordCount := if t.compactHeaders then 1 else 2

/-- The class of a number. -/
def info (t : ClassTable) (classId : UInt32) : Option ClassInfo := t.classes[classId.toNat]?

/-- Whether a field of an instance lies outside it or in its header. -/
def isOutside (t : ClassTable) (c : ClassInfo) (field : WordCount) : Bool :=
  field < t.headerWords || c.words ≤ field

/-- Why a class is refused, if it is. -/
def refusal (t : ClassTable) (c : ClassInfo) : Option Rejection :=
  if c.words < t.headerWords then some (.classTooSmall c.name c.words t.headerWords)
  else if ¬ c.fields.Nodup then some (.repeatedField c.name)
  else
    match c.fields.find? (t.isOutside c) with
    | some bad => some (.fieldOutside c.name bad t.headerWords c.words)
    | none => if UInt32.size ≤ t.classes.size then some .tooManyClasses else none

/-- Adds a class: its number, and the table with it. -/
def register (t : ClassTable) (c : ClassInfo) : Except CompactError (UInt32 × ClassTable) :=
  match t.refusal c with
  | some rejection => .error (.invalidArgument rejection)
  | none => .ok (t.classes.size.toUInt32, { t with classes := t.classes.push c })

/-- The accepted classes. -/
structure Fits (t : ClassTable) (c : ClassInfo) : Prop where
  header : t.headerWords ≤ c.words
  nodup : c.fields.Nodup
  inside : ∀ f ∈ c.fields, t.headerWords ≤ f ∧ f < c.words
  room : t.classes.size < UInt32.size

theorem refusal_eq_none_iff {t : ClassTable} {c : ClassInfo} :
    t.refusal c = none ↔ t.Fits c := by
  have outside : c.fields.find? (t.isOutside c) = none ↔
      ∀ f ∈ c.fields, t.headerWords ≤ f ∧ f < c.words := by
    simp only [List.find?_eq_none, isOutside, Bool.or_eq_true, decide_eq_true_eq, not_or,
      UInt64.not_lt, UInt64.not_le]
  unfold refusal
  constructor
  · intro h
    split at h
    · simp at h
    · split at h
      · simp at h
      · split at h
        · simp at h
        · rename_i small dup _ none
          refine ⟨UInt64.not_lt.1 small, Decidable.not_not.1 dup, outside.1 none, ?_⟩
          simp only [ite_eq_right_iff, reduceCtorEq, imp_false] at h
          omega
  · intro h
    rw [if_neg (UInt64.not_lt.2 h.header), if_neg (by simpa using h.nodup), outside.2 h.inside]
    have := h.room
    simp only [ite_eq_right_iff, reduceCtorEq, imp_false]
    omega

theorem register_eq_ok_iff {t t' : ClassTable} {c : ClassInfo} {classId : UInt32} :
    t.register c = .ok (classId, t') ↔
      t.Fits c ∧ classId = t.classes.size.toUInt32 ∧
        t' = { t with classes := t.classes.push c } := by
  unfold register
  rw [← refusal_eq_none_iff]
  split
  · rename_i h
    simp [h]
  · rename_i h
    simp only [h, true_and, Except.ok.injEq, Prod.mk.injEq]
    constructor <;> rintro ⟨rfl, rfl⟩ <;> exact ⟨rfl, rfl⟩

end ClassTable

end MarkCompact
