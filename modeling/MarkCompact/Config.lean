/-
MarkCompact/Config.lean

The settings of a heap and of the collections over it.

* `Encoding` is the way in which the new address of an object is recorded, `Style` the
  algorithm;
* `Config.validate` refuses settings out of bounds and pairs of settings that exclude
  each other, in a fixed order: the first fault found is the one reported;
* `Config.encoding`, `Config.regionBytes` and the like are what follows from the settings.

Main result: `validate_eq_ok_iff` (exactly which configurations are accepted).
-/
import MarkCompact.Error
import MarkCompact.Text.Blank

namespace MarkCompact

/-- Where the new address of a moving object is recorded. -/
inductive Encoding where
  /-- As a full address in the mark word. -/
  | header
  /-- As an offset in the mark word, from one of two bases of the object's region. -/
  | sliding
  /-- In one hash table for the whole heap. -/
  | hashed
  /-- In one table for each region. -/
  | dense
  deriving DecidableEq, Repr, Inhabited

/-- The algorithm of a collection. -/
inductive Style where
  /-- Every region is a destination of its own; new addresses are recorded. -/
  | parallel
  /-- One pass over the heap; new addresses are computed from the bitmap. -/
  | serial
  deriving DecidableEq, Repr, Inhabited

/-- The name of an encoding. -/
def Encoding.name : Encoding → String
  | .header => "header"
  | .sliding => "sliding"
  | .hashed => "hashed"
  | .dense => "dense"

/-- The name of a style. -/
def Style.name : Style → String
  | .parallel => "parallel"
  | .serial => "serial"

/-- Reads the name of an encoding; case and white space at the ends do not matter. -/
def Encoding.parse (text : String) : Except ConfigError Encoding :=
  match lowerLatin (trimBlank text) with
  | "header" => .ok .header
  | "sliding" => .ok .sliding
  | "hashed" | "hash" => .ok .hashed
  | "dense" => .ok .dense
  | other => .error (.unknownValue "forwarding" other)

/-- Reads the name of a style; case and white space at the ends do not matter. -/
def Style.parse (text : String) : Except ConfigError Style :=
  match lowerLatin (trimBlank text) with
  | "parallel" => .ok .parallel
  | "serial" => .ok .serial
  | other => .error (.unknownValue "style" other)

/-- The settings of a heap and of its collections. -/
structure Config where
  /-- Whether the class of an object lies in its mark word. -/
  compactHeaders : Bool := false
  /-- The encoding, if the headers are not to decide. -/
  forwarding : Option Encoding := none
  style : Style := .parallel
  /-- The words of a region, as a power of two. -/
  regionShift : UInt32 := 16
  numRegions : UInt64 := 64
  /-- The words of a block of the serial style, as a power of two. -/
  blockShift : UInt32 := 6
  /-- How full a dense table may get. -/
  denseLoadFactor : Float := 0.9
  /-- The number of workers, if the machine is not to decide. -/
  gcThreads : Option UInt64 := none
  /-- How many regions a worker takes at a time. -/
  regionsPerClaim : UInt64 := 4
  /-- Whether objects may wait in a copy for a destination that is still occupied. -/
  shadowRegions : Bool := true
  /-- How often an occupied destination is looked at again before that. -/
  shadowSpinLimit : UInt64 := 64
  /-- Whether the memory of free regions is given back. -/
  releaseFreeRegions : Bool := false
  /-- Whether events are printed. -/
  verbose : Bool := false
  deriving Inhabited

namespace Config

/-! ### Derived values -/

/-- The encoding in force: a full address needs classic headers, else offsets are used. -/
def encoding (c : Config) : Encoding :=
  c.forwarding.getD (if c.compactHeaders then .sliding else .header)

/-- The words of a region. -/
def regionWords (c : Config) : WordCount :=
  1 <<< c.regionShift.toUInt64

/-- The bytes of a region. -/
def regionBytes (c : Config) : UInt64 :=
  c.regionWords * wordBytes

/-- The bytes of the heap. -/
def heapBytes (c : Config) : UInt64 :=
  c.numRegions * c.regionBytes

/-- The words of an object without fields. -/
def leastObjectWords (c : Config) : WordCount :=
  if c.compactHeaders then 1 else 2

/-- The number of workers, at least one; none if the machine decides. -/
def workers (c : Config) : Option UInt64 :=
  c.gcThreads.map (max 1)

/-! ### Validation -/

/-- Refuses unless the condition holds. -/
private def require (condition : Bool) (cause : ConfigError) : Except ConfigError Unit :=
  if condition then .ok () else .error cause

/-- Whether the load factor lies between a half and one. -/
def loadFactorInBounds (c : Config) : Bool :=
  0.5 ≤ c.denseLoadFactor && c.denseLoadFactor ≤ 1.0

/-- Refuses settings out of bounds and settings that exclude each other. -/
def validate (c : Config) : Except ConfigError Unit := do
  require (leastRegionShift ≤ c.regionShift && c.regionShift ≤ greatestRegionShift)
    (.regionSize c.regionShift)
  require (c.numRegions != 0) .noRegions
  require (c.numRegions.toNat * c.regionBytes.toNat < UInt64.size) .heapTooLarge
  require (c.blockShift != 0 && c.blockShift ≤ c.regionShift)
    (.blockSize c.regionShift c.blockShift)
  require c.loadFactorInBounds (.loadFactor c.denseLoadFactor)
  require (c.gcThreads != some 0) .noWorkers
  require (c.regionsPerClaim != 0) .emptyClaims
  require (!(c.compactHeaders && c.forwarding == some .header)) .headerForwarding
  require (!(c.compactHeaders && c.style == .serial)) .serialGrowth

/-- What an accepted configuration satisfies. -/
structure Valid (c : Config) : Prop where
  regionShift : leastRegionShift ≤ c.regionShift ∧ c.regionShift ≤ greatestRegionShift
  numRegions : c.numRegions ≠ 0
  heapFits : c.numRegions.toNat * c.regionBytes.toNat < UInt64.size
  blockShift : c.blockShift ≠ 0 ∧ c.blockShift ≤ c.regionShift
  loadFactor : c.loadFactorInBounds
  gcThreads : c.gcThreads ≠ some 0
  regionsPerClaim : c.regionsPerClaim ≠ 0
  pointerFits : c.compactHeaders → c.forwarding ≠ some .header
  serialFits : c.compactHeaders → c.style ≠ .serial

private theorem require_bind_eq_ok_iff {condition : Bool} {cause : ConfigError}
    {rest : Unit → Except ConfigError Unit} :
    (require condition cause >>= rest) = .ok () ↔ condition ∧ rest () = .ok () := by
  cases condition
  · simp [require, bind, Except.bind]
  · simp [require, bind, Except.bind]

private theorem require_eq_ok_iff {condition : Bool} {cause : ConfigError} :
    require condition cause = .ok () ↔ condition := by
  cases condition <;> simp [require]

/-- The accepted configurations are the valid ones. -/
theorem validate_eq_ok_iff (c : Config) : c.validate = .ok () ↔ c.Valid := by
  unfold validate
  simp only [require_bind_eq_ok_iff, require_eq_ok_iff]
  constructor
  · rintro ⟨h1, h2, h3, h4, h5, h6, h7, h8, h9⟩
    exact ⟨by simpa using h1, by simpa using h2, by simpa using h3, by simpa using h4, h5,
      by simpa using h6, by simpa using h7, by cases h : c.compactHeaders <;> simp_all,
      by cases h : c.compactHeaders <;> simp_all⟩
  · rintro ⟨h1, h2, h3, h4, h5, h6, h7, h8, h9⟩
    exact ⟨by simpa using h1, by simpa using h2, by simpa using h3, by simpa using h4, h5,
      by simpa using h6, by simpa using h7, by cases h : c.compactHeaders <;> simp_all,
      by cases h : c.compactHeaders <;> simp_all⟩

/-- Whether a configuration is valid is found out by validating it. -/
instance (c : Config) : Decidable c.Valid :=
  decidable_of_iff (c.validate.isOk = true) (by
    rw [← validate_eq_ok_iff]
    cases c.validate <;> simp [Except.isOk, Except.toBool])

end Config

end MarkCompact
