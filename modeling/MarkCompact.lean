import MarkCompact.Collection.Cycle
import MarkCompact.Config.Environment
import MarkCompact.Object.Graph
import MarkCompact.Proofs.SerialCollection
import MarkCompact.Proofs.DenseTables
import MarkCompact.Proofs.Enlisting
import MarkCompact.Proofs.Headers
import MarkCompact.Proofs.Claimers
import MarkCompact.Proofs.Cursors
import MarkCompact.Proofs.ObjectClaims
import MarkCompact.Proofs.Collections
import MarkCompact.Proofs.SessionInvariants
import MarkCompact.Proofs.Figures
import MarkCompact.Proofs.AlikePhases
import MarkCompact.Proofs.DeadMemory
import MarkCompact.Proofs.LeftmostRuns
import MarkCompact.Proofs.LowestStarts
import MarkCompact.Proofs.Requests
import MarkCompact.Proofs.Tuning
import MarkCompact.Proofs.Compacted
import MarkCompact.Proofs.ParallelCompacted
import MarkCompact.Proofs.SerialCompacted
import MarkCompact.Proofs.DenseMaps
import MarkCompact.Proofs.Recollection
import MarkCompact.Proofs.BlockTables
import MarkCompact.Proofs.Placements
import MarkCompact.Proofs.TwoTargets
import MarkCompact.Proofs.LosingClaims
import MarkCompact.Proofs.ForwardTables
import MarkCompact.Proofs.NewRuns
import MarkCompact.Proofs.Marking
import MarkCompact.Proofs.RegionRoles
import MarkCompact.Proofs.Grants
import MarkCompact.Proofs.Handouts
import MarkCompact.Proofs.GrowthRequests
import MarkCompact.Proofs.ForwardedHeaders
import MarkCompact.Proofs.ShadowCopies
import MarkCompact.Proofs.LowestFits
import MarkCompact.Proofs.PlainProbing
import MarkCompact.Proofs.SlidingCopies
import MarkCompact.Proofs.WordSets
import MarkCompact.Proofs.RoomSearch
import MarkCompact.Proofs.ShadowOffers
