import SystemsLabs.Library.MachineInt
import SystemsLabs.Library.ByteMemory
import SystemsLabs.Library.Transition
import SystemsLabs.Library.Tiling
import SystemsLabs.Library.MoveToFront
import SystemsLabs.Library.Paging
import SystemsLabs.Library.MatrixTrace
import SystemsLabs.Library.CellLoops
import SystemsLabs.Library.Monitor
import SystemsLabs.Library.Rearrangement
import SystemsLabs.Library.ExchangeSort
import SystemsLabs.Library.SignedMaximum
import SystemsLabs.Library.Orbit
import SystemsLabs.Library.Stdio
import SystemsLabs.Library.Y86.Words
import SystemsLabs.Library.Y86.Machine
import SystemsLabs.Library.Y86.Encoding
import SystemsLabs.Library.Y86.Program
import SystemsLabs.Library.Y86.Cells
import SystemsLabs.Library.Y86.Loads
import SystemsLabs.Library.X86.Machine
import SystemsLabs.ImplicitHeap.Code
import SystemsLabs.ImplicitHeap.Layout
import SystemsLabs.ImplicitHeap.Tags
import SystemsLabs.ImplicitHeap.Represents
import SystemsLabs.ImplicitHeap.Free
import SystemsLabs.ImplicitHeap.Cursor
import SystemsLabs.ImplicitHeap.Malloc
import SystemsLabs.ImplicitHeap.Session
import SystemsLabs.ImplicitHeap.Invariant
import SystemsLabs.ImplicitHeap.Create
import SystemsLabs.ImplicitHeap.WellFormed
import SystemsLabs.ImplicitHeap.Isolation
import SystemsLabs.ImplicitHeap.NextFit
import SystemsLabs.ImplicitHeap.Search
import SystemsLabs.ImplicitHeap.Rounding
import SystemsLabs.ImplicitHeap.Undo
import SystemsLabs.ImplicitHeap.FreeOrder
import SystemsLabs.ImplicitHeap.Splitting
import SystemsLabs.ImplicitHeap.Tiled
import SystemsLabs.ImplicitHeap.Placement
import SystemsLabs.ImplicitHeap.Establish
import SystemsLabs.ImplicitHeap.Average
import SystemsLabs.ImplicitHeap.Fragmentation
import SystemsLabs.BlockCache.Code
import SystemsLabs.BlockCache.Lines
import SystemsLabs.BlockCache.Refines
import SystemsLabs.BlockCache.Geometry
import SystemsLabs.BlockCache.Session
import SystemsLabs.BlockCache.Lru
import SystemsLabs.BlockCache.Inclusion
import SystemsLabs.BlockCache.Transparent
import SystemsLabs.BlockCache.Bounds
import SystemsLabs.BlockCache.Recency
import SystemsLabs.BlockCache.Competitive
import SystemsLabs.BlockCache.BlockNumber
import SystemsLabs.BlockCache.CacheTest
import SystemsLabs.BlockCache.MissRates
import SystemsLabs.Mask.Code
import SystemsLabs.Mask.Agree
import SystemsLabs.Mask.Symmetry
import SystemsLabs.Mask.Operations
import SystemsLabs.Mask.Range
import SystemsLabs.Mask.Comparison
import SystemsLabs.Pgm.Code
import SystemsLabs.Pgm.Header
import SystemsLabs.Pgm.Termination
import SystemsLabs.Pgm.Image
import SystemsLabs.Pgm.Format
import SystemsLabs.Pgm.RoundTrip
import SystemsLabs.Pgm.Truncated
import SystemsLabs.Pgm.Layouts
import SystemsLabs.Timemask.Code
import SystemsLabs.Timemask.Trials
import SystemsLabs.Timemask.Run
import SystemsLabs.Timemask.Chain
import SystemsLabs.Smokers.Code
import SystemsLabs.Smokers.Steady
import SystemsLabs.Smokers.Startup
import SystemsLabs.Smokers.Cast
import SystemsLabs.Smokers.Stage
import SystemsLabs.Smokers.Outcome
import SystemsLabs.QuickSort.Code
import SystemsLabs.QuickSort.Sorted
import SystemsLabs.QuickSort.Recursion
import SystemsLabs.QuickSort.Rights
import SystemsLabs.QuickSort.Worst
import SystemsLabs.QuickSort.Listing
import SystemsLabs.QuickSort.Layout
import SystemsLabs.QuickSort.Frame
import SystemsLabs.QuickSort.Phases
import SystemsLabs.QuickSort.Simulation
import SystemsLabs.QuickSort.Caller
import SystemsLabs.QuickSort.Sort
import SystemsLabs.QuickSort.Optimal
import SystemsLabs.QuickSort.MachineSort
import SystemsLabs.Assembly.Listing
import SystemsLabs.Assembly.ArrayMax
import SystemsLabs.Assembly.Process
import SystemsLabs.Assembly.Collatz
import SystemsLabs.Assembly.Wrapped
import SystemsLabs.ArrayPrograms.Listing
import SystemsLabs.ArrayPrograms.Exchange
import SystemsLabs.ArrayPrograms.Maximum
import SystemsLabs.ArrayPrograms.AbsSum
import SystemsLabs.ArrayPrograms.SumFunction
import SystemsLabs.Ext2.Code
import SystemsLabs.Ext2.BlockMap
import SystemsLabs.Ext2.Content
import SystemsLabs.Ext2.Directory
import SystemsLabs.Ext2.Path
import SystemsLabs.Ext2.Callbacks
import SystemsLabs.Ext2.Fuse
import SystemsLabs.Ext2.Addressing
import SystemsLabs.Ext2.InodeRecord
import SystemsLabs.Ext2.Open
import SystemsLabs.Ext2.StatSize
import SystemsLabs.Ext2.Blockwise
import SystemsLabs.Ext2.Mounted
import SystemsLabs.Ext2.Readlink
