import Duperemove.Lib.Loop
import Duperemove.Lib.Steps
import Duperemove.Lib.Checkpoint
import Duperemove.Lib.Handles
import Duperemove.Lib.Word
import Duperemove.Lib.Pieces
import Duperemove.Lib.SafeList
import Duperemove.Lib.Sql
import Duperemove.Lib.Transaction
import Duperemove.Lib.MapTotal
import Duperemove.Lib.SearchTree
import Duperemove.Lib.RedBlack
import Duperemove.Lib.TreeRuns
import Duperemove.Lib.Memcmp
import Duperemove.Csum
import Duperemove.Filerec
import Duperemove.HashTree.Invariant
import Duperemove.Rbtree
import Duperemove.Rbtree.Shape
import Duperemove.Rbtree.Insert
import Duperemove.Rbtree.Erase
import Duperemove.Rbtree.Remove
import Duperemove.Rbtree.Walk
import Duperemove.Lib.Rings
import Duperemove.ListHead
import Duperemove.Lib.MergeParts
import Duperemove.ListSort
import Duperemove.Dedupe.Fdupes
import Duperemove.Fiemap
import Duperemove.Fiemap.Shared
import Duperemove.FileScan.LockedFs
import Duperemove.FileScan.WalkDir
import Duperemove.FileScan.Listed
import Duperemove.FileScan.Model
import Duperemove.FileScan.ZeroTest
import Duperemove.FileScan.Ignored
import Duperemove.FileScan.Extents
import Duperemove.FileScan.Blocks
import Duperemove.FileScan.Run
import Duperemove.FileScan.Exact
import Duperemove.FileScan.Zeroes
import Duperemove.FileScan.Stretches
import Duperemove.FileScan.ExtentRows
import Duperemove.FileScan.FastForward
import Duperemove.FileScan.Holes
import Duperemove.FileScan.AnyReads
import Duperemove.Dedupe.Context
import Duperemove.Dedupe.Descriptors
import Duperemove.Dedupe.Conservation
import Duperemove.Dedupe.InMemory
import Duperemove.Dedupe.Driver
import Duperemove.Dedupe.Coverage
import Duperemove.FindDupes.Model
import Duperemove.FindDupes.Soundness
import Duperemove.FindDupes.Straddling
import Duperemove.FindDupes.Cursors
import Duperemove.Dbfile.Config
import Duperemove.Dbfile.ConfigRows
import Duperemove.SizeOption
import Duperemove.Dbfile.Open
import Duperemove.Dbfile.Tables
import Duperemove.Dbfile.Statements
import Duperemove.Dbfile.Renumber
import Duperemove.Dbfile.Queries
import Duperemove.Dbfile.Nondupe
import Duperemove.ResultsTree
import Duperemove.ResultsTree.Removal
import Duperemove.ResultsTree.Invariant
import Duperemove.ResultsTree.Concurrent
import Duperemove.ResultsTree.Push
import Duperemove.Descents
import Duperemove.Rbtree.Runs
import Duperemove.Rbtree.Loops
import Duperemove.Dedupe.Outcome
import Duperemove.Dedupe.Turns
import Duperemove.Dedupe.Ranges
import Duperemove.Dedupe.Covers
import Duperemove.Dedupe.Aligned
import Duperemove.Dedupe.Accounting
import Duperemove.Dedupe.Tiling
import Duperemove.Dedupe.Clean
import Duperemove.Dedupe.Sharing
import Duperemove.Dedupe.CleanNodes
import Duperemove.Dedupe.Worker
import Duperemove.Dedupe.Rescan
import Duperemove.Dedupe.WholeFiles
import Duperemove.Dbfile.Load
import Duperemove.Dbfile.Groups
import Duperemove.FindDupes.Search
import Duperemove.FindDupes.SameFile
import Duperemove.ScanRun.Model
import Duperemove.ScanRun.Rename
import Duperemove.ScanRun.Interrupt
import Duperemove.ScanRun.Batches
import Duperemove.ScanRun.Pairs
import Duperemove.ScanRun.Ownership
import Duperemove.ScanRun.Locking
import Duperemove.ScanRun.Interrupted
import Duperemove.ScanRun.Progress
import Duperemove.ScanRun.Robust
import Duperemove.ScanRun.Again
import Duperemove.ScanRun.Identical
import Duperemove.ScanRun.Rounds
import Duperemove.ScanRun.Stored
import Duperemove.Dedupe.Inside
import Duperemove.Dedupe.Gain
