import Lsmlite.BlockSearch
import Lsmlite.CallsReturn
import Lsmlite.CompactionAtomic
import Lsmlite.IndexExact
import Lsmlite.LinearizableMap
import Lsmlite.ListingOrder
import Lsmlite.LogLag
import Lsmlite.MemtableCost
import Lsmlite.MemtableSize
import Lsmlite.PipelineFailures
import Lsmlite.ReadPath
import Lsmlite.SearchFaults
import Lsmlite.SecondRestart
import Lsmlite.SilentReads
import Lsmlite.SpaceBounds
