import Cs5600.Graph
import Cs5600.Layout
import Cs5600.Path
import Cs5600.WriteLog
import Cs5600.Disk
import Cs5600.FileSystem
import Cs5600.Objects
import Cs5600.Image
import Cs5600.Names
import Cs5600.Tree
import Cs5600.Blocks
import Cs5600.Lookup
import Cs5600.Ends
import Cs5600.Contents
import Cs5600.Steps
import Cs5600.Writes
import Cs5600.Format
import Cs5600.Runs
import Cs5600.Namespace
import Cs5600.FileBytes
import Cs5600.Crash
import Cs5600.Remount
import Cs5600.FileParent
import Cs5600.Accounting
import Cs5600.FreeSpace
import Cs5600.Failures
import Cs5600.LargeFiles
import Cs5600.Visible
import Cs5600.Twins
import Cs5600.Leaks
import Cs5600.Python
import Cs5600.DiskFmt
import Cs5600.GenDisk
import Cs5600.Described
import Cs5600.ReadImg
import Cs5600.ReadsAlike
import Cs5600.Resolution
import Cs5600.Listing
import Cs5600.LargeDirs
import Cs5600.Traces
import Cs5600.Volume
import Cs5600.Refinement
import Cs5600.VolumeRuns
import Cs5600.Walks
import Cs5600.Space
import Cs5600.Lifetimes
import Cs5600.Streams
import Cs5600.Interleave
import Cs5600.Monitors
import Cs5600.DiskCalls
import Cs5600.WordStack
import Cs5600.Switch
import Cs5600.BoundedMap
import Cs5600.CText
import Cs5600.LinkedQueue
import Cs5600.Db.Table
import Cs5600.Db.Moves
import Cs5600.Db.Steps
import Cs5600.Db.Careful
import Cs5600.Db.Safety
import Cs5600.Db.Reads
import Cs5600.Db.Sequential
import Cs5600.Db.Server
import Cs5600.Db.Wire
import Cs5600.Db.Client
import Cs5600.Db.LoadTest
import Cs5600.Db.Overrun
import Cs5600.Db.Splits
import Cs5600.Db.FailedWrite
import Cs5600.Db.Visits
import Cs5600.Db.Acknowledged
import Cs5600.Db.Unterminated
import Cs5600.Db.Replies
import Cs5600.Db.Queue
import Cs5600.Db.Wakeups
import Cs5600.Db.Shutdown
import Cs5600.Db.Descriptors
import Cs5600.AddressSpace
import Cs5600.PagedMemory
import Cs5600.Loader
import Cs5600.Elf
import Cs5600.ReadLine
import Cs5600.CommandLine
import Cs5600.Caesar
import Cs5600.Loads
import Cs5600.Ugrep
import Cs5600.Shell
import Cs5600.Processes
import Cs5600.NodeQueue
import Cs5600.Bitmaps
import Cs5600.DoubleUse
import Cs5600.Report
import Cs5600.Pipeline
