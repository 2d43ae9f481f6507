/-
MarkCompact/Config/Environment.lean

Settings taken from environment variables.

`Config.ofEnvironment` starts from the default settings. A variable that is set to a text
its setting cannot read leaves the default in place; for the two settings that are names,
a warning says so.
-/
import MarkCompact.Config

namespace MarkCompact

/-- Reads a flag: "1", or "true" or "yes" in any case. -/
def parseFlag (text : String) : Bool :=
  text == "1" || lowerLatin text == "true" || lowerLatin text == "yes"

/-- Reads decimal digits, at least one, which a plus sign may precede. -/
def parseDigits (text : String) : Option Nat :=
  let digits := match text.toList with
    | '+' :: rest => rest
    | cs => cs
  if digits.isEmpty || !digits.all Char.isDigit then none
  else some (digits.foldl (fun n c => 10 * n + (c.toNat - '0'.toNat)) 0)

/-- Reads a number of 32 bits. -/
def parseUInt32 (text : String) : Option UInt32 :=
  (parseDigits text).bind fun n => if n < UInt32.size then some n.toUInt32 else none

/-- Reads a number of 64 bits. -/
def parseUInt64 (text : String) : Option UInt64 :=
  (parseDigits text).bind fun n => if n < UInt64.size then some n.toUInt64 else none

namespace Config

/-- The setting that a variable holds, or the present one and a warning. -/
private def named {α : Type} (parse : String → Except ConfigError α) (name : String) :
    Option String → α → α × List String
  | none, present => (present, [])
  | some text, present =>
    match parse text with
    | .ok value => (value, [])
    | .error cause => (present, ["ignoring " ++ name ++ ": " ++ cause.message])

/-- The settings that the environment asks for, and the warnings about texts that could
not be read. -/
def ofEnvironment (lookup : String → Option String) : Config × List String :=
  let start : Config := { }
  let flag (name : String) (present : Bool) := ((lookup name).map parseFlag).getD present
  let (forwarding, warned) :=
    named (fun s => (Encoding.parse s).map some) "FGC_FORWARDING" (lookup "FGC_FORWARDING")
      start.forwarding
  let (style, warnedToo) :=
    named Style.parse "FGC_COMPACTION_STYLE" (lookup "FGC_COMPACTION_STYLE") start.style
  let config :=
    { start with
      compactHeaders := flag "FGC_COMPACT_HEADERS" start.compactHeaders
      forwarding := forwarding
      style := style
      regionShift := ((lookup "FGC_REGION_SIZE_SHIFT").bind parseUInt32).getD start.regionShift
      numRegions := ((lookup "FGC_NUM_REGIONS").bind parseUInt64).getD start.numRegions
      gcThreads := ((lookup "FGC_GC_THREADS").bind parseUInt64).or start.gcThreads
      shadowRegions := flag "FGC_SHADOW_REGIONS" start.shadowRegions
      verbose := flag "FGC_VERBOSE" start.verbose }
  (config, warned ++ warnedToo)

end Config

end MarkCompact
