import Liballocator.Library.Tiling
import Liballocator.Allocator
import Liballocator.Zones.Store
import Liballocator.Zones.Monotone
import Liballocator.Zones.Frame
import Liballocator.Zones.Cost
import Liballocator.Zones.Equivalence
import Liballocator.Zones.Large
import Liballocator.Zones.Holders
import Liballocator.Zones.Capacity
import Liballocator.Zones.Range
import Liballocator.Pages.Maximal
import Liballocator.Pages.Exact
import Liballocator.Pages.Crossing
import Liballocator.Pages.Resolution
import Liballocator.Pages.Refused
import Liballocator.Pages.Fragmentation
import Liballocator.Pages.Contiguous
import Liballocator.Pages.Statistics
import Liballocator.Zones.Leaks
import Liballocator.Zones.Independence
import Liballocator.Zones.Accounting
import Liballocator.Zones.Outcome
import Liballocator.Zones.Bounds
import Liballocator.Zones.Invalid
import Liballocator.Zones.Cleared
import Liballocator.NodeHeap
import Liballocator.Zones.Rounding
import Liballocator.Zones.Acceptance
import Liballocator.Zones.Termination
