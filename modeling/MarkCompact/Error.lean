/-
MarkCompact/Error.lean

What can go wrong, and what is said about it.

Three kinds of failure are kept apart:

* `ConfigError`, a configuration that is refused before anything happens;
* `CompactError`, a request at the edge of the heap (allocation, class registration,
  construction) that is refused, so that the caller can go on without it;
* `Fault`, a broken invariant in the middle of a collection. Nothing recovers from it.

Each is a cause; its wording is in one function `message`.
-/
import MarkCompact.Mark
import MarkCompact.Text.Quoted
import MarkCompact.Decimal.Style
import MarkCompact.Placement.Stage

namespace MarkCompact

/-! ### Configurations -/

/-- The least region size, as a power of two of words. -/
def leastRegionShift : UInt32 := 4

/-- The greatest region size: an offset within a region has 23 bits. -/
def greatestRegionShift : UInt32 := 23

/-- Why a configuration is refused. -/
inductive ConfigError where
  /-- The region size is out of bounds. -/
  | regionSize (shift : UInt32)
  /-- The heap has no region. -/
  | noRegions
  /-- The heap is larger than the address space. -/
  | heapTooLarge
  /-- The block size is zero or larger than a region. -/
  | blockSize (regionShift shift : UInt32)
  /-- The load factor of dense tables is out of bounds. -/
  | loadFactor (factor : Float)
  /-- There are no workers. -/
  | noWorkers
  /-- A worker claims no regions. -/
  | emptyClaims
  /-- The workers are refused for a reason given by the caller. -/
  | workers (reason : String)
  /-- Header forwarding is asked for with compact headers. -/
  | headerForwarding
  /-- The serial style is asked for with compact headers. -/
  | serialGrowth
  /-- The heap has other regions than the configuration. -/
  | otherRegions (regions : Nat) (shift : UInt32) (wanted : Nat) (wantedShift : UInt32)
  /-- The heap has other headers than the configuration. -/
  | otherHeaders (heap wanted : Bool)
  /-- The heap does not match for a reason given by the caller. -/
  | mismatch (reason : String)
  /-- The text of a setting names none of its values. -/
  | unknownValue (setting value : String)

/-- The groups into which refused configurations fall. -/
inductive ConfigError.Kind where
  | invalidRegionSize
  | invalidHeapSize
  | invalidBlockSize
  | invalidLoadFactor
  | invalidGcThreads
  | incompatibleModes
  | heapMismatch
  | invalidValue
  deriving DecidableEq, Repr

/-- The name of a group. -/
def ConfigError.Kind.name : ConfigError.Kind → String
  | .invalidRegionSize => "InvalidRegionSize"
  | .invalidHeapSize => "InvalidHeapSize"
  | .invalidBlockSize => "InvalidBlockSize"
  | .invalidLoadFactor => "InvalidLoadFactor"
  | .invalidGcThreads => "InvalidGcThreads"
  | .incompatibleModes => "IncompatibleModes"
  | .heapMismatch => "HeapMismatch"
  | .invalidValue => "InvalidValue"

namespace ConfigError

/-- The group of a cause. -/
def kind : ConfigError → Kind
  | .regionSize _ => .invalidRegionSize
  | .noRegions | .heapTooLarge => .invalidHeapSize
  | .blockSize _ _ => .invalidBlockSize
  | .loadFactor _ => .invalidLoadFactor
  | .noWorkers | .emptyClaims | .workers _ => .invalidGcThreads
  | .headerForwarding | .serialGrowth => .incompatibleModes
  | .otherRegions .. | .otherHeaders .. | .mismatch _ => .heapMismatch
  | .unknownValue .. => .invalidValue

/-- What is wrong, without the group. -/
def reason : ConfigError → String
  | .regionSize shift =>
    s!"region_size_shift must be between {leastRegionShift} and {greatestRegionShift}, got {shift}"
  | .noRegions => "num_regions must be > 0"
  | .heapTooLarge => "num_regions * region size overflows the address space"
  | .blockSize regionShift shift =>
    s!"block_size_shift must be between 1 and region_size_shift ({regionShift}), got {shift}"
  | .loadFactor factor =>
    "dense_load_factor must be between 0.5 and 1.0, got " ++ floatText plainStyle factor
  | .noWorkers => "gc_threads must be > 0"
  | .emptyClaims => "regions_per_claim must be > 0"
  | .workers reason => reason
  | .headerForwarding =>
    "header forwarding needs a full pointer in the mark word; " ++
      "compact headers do not have room for one"
  | .serialGrowth =>
    "serial compaction cannot grow objects by a hash word; " ++
      "use classic headers or the parallel style"
  | .otherRegions regions shift wanted wantedShift =>
    s!"heap has {regions} regions of 2^{shift} words, " ++
      s!"configuration asks for {wanted} of 2^{wantedShift}"
  | .otherHeaders heap wanted =>
    s!"heap compact headers: {heap}, configuration: {wanted}"
  | .mismatch reason => reason
  | .unknownValue _ value => quoteVisible value

/-- The group as messages open with it. -/
def opening : ConfigError → String
  | .unknownValue setting _ => "Invalid value for " ++ setting
  | e =>
    match e.kind with
    | .invalidRegionSize => "Invalid region size"
    | .invalidHeapSize => "Invalid heap size"
    | .invalidBlockSize => "Invalid block size"
    | .invalidLoadFactor => "Invalid load factor"
    | .invalidGcThreads => "Invalid GC threads"
    | .incompatibleModes => "Incompatible modes"
    | .heapMismatch => "Configuration does not match heap"
    | .invalidValue => "Invalid value"

/-- The text of a refused configuration. -/
def message (e : ConfigError) : String :=
  e.opening ++ ": " ++ e.reason

end ConfigError

/-! ### Requests -/

/-- Why an argument is refused. -/
inductive Rejection where
  /-- An allocation of nothing. -/
  | zeroWords
  /-- There is no region of that index. -/
  | noSuchRegion (region regions : Nat)
  /-- The instances of a class would not hold their header. -/
  | classTooSmall (name : String) (words header : WordCount)
  /-- A class lists a reference field twice. -/
  | repeatedField (name : String)
  /-- A class has a reference field in its header or past its end. -/
  | fieldOutside (name : String) (offset header words : WordCount)
  /-- All class numbers are taken. -/
  | tooManyClasses
  /-- There is no class of that number. -/
  | noSuchClass (classId : UInt32)
  /-- The caller gives the reason. -/
  | stated (reason : String)
  deriving DecidableEq, Repr

/-- The text of a refused argument. -/
def Rejection.message : Rejection → String
  | .zeroWords => "cannot allocate zero words"
  | .noSuchRegion region regions => s!"region {region} out of range ({regions} regions)"
  | .classTooSmall name words header => s!"class {name} has {words} words, header needs {header}"
  | .repeatedField name => s!"class {name} repeats a reference offset"
  | .fieldOutside name offset header words =>
    s!"class {name}: reference offset {offset} outside fields {header}..{words}"
  | .tooManyClasses => "class table is full"
  | .noSuchClass classId => s!"unknown class id {classId}"
  | .stated reason => reason

/-- Why no regions can be given out. -/
inductive RegionShortage where
  /-- No run of free regions is long enough. -/
  | noFreeRun (regions words : WordCount)
  /-- The region belongs to an object of several regions. -/
  | occupied (region : Nat) (kind : String)
  /-- The caller gives the reason. -/
  | stated (reason : String)
  deriving DecidableEq, Repr

/-- The text of a shortage. -/
def RegionShortage.message : RegionShortage → String
  | .noFreeRun regions words => s!"no run of {regions} free regions for {words} words"
  | .occupied region kind => s!"region {region} is {kind}"
  | .stated reason => reason

/-- A request that is refused. -/
inductive CompactError where
  | outOfMemory (requested available : WordCount)
  | emptyHeap
  | heapFailed (reason : String)
  | invalidPointer (address : Address)
  | noRegions (shortage : RegionShortage)
  | invalidArgument (rejection : Rejection)
  | configuration (cause : ConfigError)
  | internal (reason : String)

namespace CompactError

/-- The name of the group into which a refused request falls. -/
def name : CompactError → String
  | .outOfMemory .. => "OutOfMemory"
  | .emptyHeap | .heapFailed _ => "HeapInitialization"
  | .invalidPointer _ => "InvalidPointer"
  | .noRegions _ => "RegionAllocationFailed"
  | .invalidArgument _ => "InvalidArgument"
  | .configuration _ => "Configuration"
  | .internal _ => "Internal"

/-- The text of a refused request. -/
def message : CompactError → String
  | .outOfMemory requested available =>
    s!"Out of memory: requested {requested} words, available {available} words"
  | .emptyHeap => "Heap initialization failed: heap size must be > 0"
  | .heapFailed reason => "Heap initialization failed: " ++ reason
  | .invalidPointer address => "Invalid pointer address: " ++ hex address
  | .noRegions shortage => "Region allocation failed: " ++ shortage.message
  | .invalidArgument rejection => "Invalid argument: " ++ rejection.message
  | .configuration cause => "Configuration error: " ++ cause.message
  | .internal reason => "Internal error: " ++ reason

/-- Whether a collection and a second try may help. -/
def isRecoverable : CompactError → Bool
  | .outOfMemory .. | .noRegions _ => true
  | _ => false

/-- Whether the collector itself is at fault. -/
def isBug : CompactError → Bool
  | .internal _ => true
  | _ => false

end CompactError

/-! ### Broken invariants -/

/-- A broken invariant, which ends the collection. -/
inductive Fault where
  /-- An access reaches past the ends of the memory. -/
  | outsideMemory (start : Address) (words : WordCount) (base stop : Address)
  /-- A header names a class that does not exist. -/
  | unknownClass (object : Address) (classId : UInt32)
  /-- A class has too few reference fields. -/
  | noSuchField (name : String) (fields field : Nat)
  /-- Regions are too wide for a sliding offset. -/
  | regionTooWide (shift : UInt32)
  /-- Objects of a region go to more than two regions. -/
  | thirdTarget (region : Nat) (first second target : Address)
  /-- A sliding header names a target that was never remembered. -/
  | unclaimedTarget (object : Address) (slot : Word)
  /-- A header was replaced by something other than a forwarding. -/
  | notForwarded (object : Address) (found : Mark)
  /-- All nodes of the forwarding arena are used. -/
  | arenaExhausted (nodes : Nat)
  /-- A forwarded header has no entry in its table. -/
  | noEntry (object : Address)
  /-- A table took an entry for an object whose header says otherwise. -/
  | headerDisagrees (object : Address) (found : Mark)
  /-- A region has more moving objects than were announced. -/
  | tableOverflow (bottom : Address) (expected : Nat)
  /-- A region's table has no vacant slot. -/
  | tableFull (bottom : Address) (slots : Nat)
  /-- A region is given two tables. -/
  | secondTable (region : Nat)
  /-- An object moves from a region without a table. -/
  | noTable (object : Address) (region : Nat)
  /-- An object is placed while no region is open. -/
  | notActive (stage : Stage)
  /-- Live objects are left and regions are not. -/
  | outOfRegions (last : Nat)
  /-- An object lies in a region that the compaction point does not hold. -/
  | foreignRegion (source : Nat)
  /-- A block of live words fits in no space that is left. -/
  | outOfSpaces (words : WordCount) (block : Nat)
  /-- Objects would have to grow in the serial style. -/
  | compactHeaders
  /-- A destination is waited for that nobody will vacate. -/
  | neverVacated (region : Nat)
  deriving DecidableEq, Repr

/-- The text of a broken invariant. -/
def Fault.message : Fault → String
  | .outsideMemory start words base stop =>
    s!"word range {hex start}+{words} outside heap [{hex base}, {hex stop})"
  | .unknownClass object classId => s!"object {hex object} has unknown class id {classId}"
  | .noSuchField name fields field =>
    s!"class {name} has {fields} reference fields, asked for {field}"
  | .regionTooWide shift =>
    s!"regions of 2^{shift} words do not fit the {greatestRegionShift}-bit sliding offset"
  | .thirdTarget region first second target =>
    s!"region {region} already forwards into {hex first} and {hex second}, " ++
      s!"cannot add {hex target}"
  | .unclaimedTarget object slot => s!"object {hex object} decodes through unclaimed slot {slot}"
  | .notForwarded object found =>
    s!"object {hex object} changed under forwarding but is not forwarded: {found.debug}"
  | .arenaExhausted nodes => s!"forward table arena exhausted ({nodes} nodes)"
  | .noEntry object => s!"object {hex object} is marked forwarded but has no entry"
  | .headerDisagrees object found =>
    s!"object {hex object} won the table race but its header is {found.debug}"
  | .tableOverflow bottom expected =>
    s!"forwarding table of region at {hex bottom} overflowed: {expected} entries announced"
  | .tableFull bottom slots =>
    s!"forwarding table of region at {hex bottom} is full ({slots} slots)"
  | .secondTable region => s!"forwarding table of region {region} created twice"
  | .noTable object region => s!"object {hex object} forwarded in region {region} without a table"
  | .notActive stage => s!"forward on a {stage.name} compaction point"
  | .outOfRegions last => s!"compaction point ran out of regions after region {last}"
  | .foreignRegion source => s!"source region {source} is not part of its compaction point"
  | .outOfSpaces words block => s!"no compaction space left for {words} words of block {block}"
  | .compactHeaders => "block offset compaction needs classic headers"
  | .neverVacated region => s!"destination region {region} is never vacated"

end MarkCompact
