import TrackFM.Lib.Bytes
import TrackFM.Lib.Pieces
import TrackFM.Lib.Counter
import TrackFM.Lib.Search
import TrackFM.Lib.Reader
import TrackFM.Lib.Saturate
import TrackFM.Lib.Stride
import TrackFM.Lib.Affine
import TrackFM.Lib.Cfg
import TrackFM.Lib.Program
import TrackFM.Lib.Emit
import TrackFM.Lib.Service
import TrackFM.Config
import TrackFM.Manager
import TrackFM.Runtime
import TrackFM.Coherence
import TrackFM.Stores
import TrackFM.Libc
import TrackFM.Frames
import TrackFM.Fill
import TrackFM.Machine
import TrackFM.Blocks
import TrackFM.Cache
import TrackFM.Accounting
import TrackFM.Sizes
import TrackFM.Intact
import TrackFM.Leaks
import TrackFM.Refinement
import TrackFM.Frontier
import TrackFM.Memcpy
import TrackFM.Mutable
import TrackFM.Bulk
import TrackFM.Chunked
import TrackFM.Strides
import TrackFM.Realloc
import TrackFM.Alignment
import TrackFM.Zeroed
import TrackFM.Compare
import TrackFM.Strings
import TrackFM.Strcmp
import TrackFM.Bounded
import TrackFM.Strto
import TrackFM.Format
import TrackFM.Printf
import TrackFM.Racing
import TrackFM.Ir
import TrackFM.StackChecks
import TrackFM.Offsets
import TrackFM.Splice
import TrackFM.WellSpliced
import TrackFM.Guard
import TrackFM.Rewritten
import TrackFM.Annotations
import TrackFM.Files
import TrackFM.Scanner
import TrackFM.Vsnprintf
import TrackFM.Flat
import TrackFM.Prefetch
import TrackFM.Settled
import TrackFM.Served
import TrackFM.Clients
import TrackFM.LibcTransform
import TrackFM.Modules
import TrackFM.Compiled
import TrackFM.Launch
import TrackFM.Traces
import TrackFM.Numerals
import TrackFM.Walkers
