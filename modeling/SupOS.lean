import SupOS.Lib.Bytes
import SupOS.Lib.Bits
import SupOS.Lib.Outcome
import SupOS.Lib.BlockMap
import SupOS.Lib.Words
import SupOS.Lib.Radix
import SupOS.Lib.Forest
import SupOS.Lib.OrderedSet
import SupOS.Lib.Machine
import SupOS.Lib.NameTree
import SupOS.Lib.Ring
import SupOS.Lib.Chain
import SupOS.Fault
import SupOS.Errno
import SupOS.Ext2.Types
import SupOS.Memory.Bitset
import SupOS.Memory.BitsetRuns
import SupOS.Memory.BitsetWords
import SupOS.Memory.PhysicalAllocator
import SupOS.Memory.Frames
import SupOS.Memory.Paging
import SupOS.Memory.Tables
import SupOS.Memory.Mapping
import SupOS.Memory.Large
import SupOS.Memory.LargeRuns
import SupOS.Memory.Heap
import SupOS.Memory.Alike
import SupOS.Memory.Break
import SupOS.Memory.PageHeap
import SupOS.Memory.UserMemory
import SupOS.Memory.TLB
import SupOS.Memory.Release
import SupOS.Memory.Copy
import SupOS.Memory.Spaces
import SupOS.Memory.UserPointer
import SupOS.Memory.Fork
import SupOS.Memory.Growth
import SupOS.Memory.Lifetime
import SupOS.Memory.System
import SupOS.Processes.Waiting
import SupOS.Processes.Scheduler
import SupOS.Processes.Tasks
import SupOS.Processes.Kinship
import SupOS.Processes.Objects
import SupOS.Processes.Tree
import SupOS.Processes.Runs
import SupOS.Processes.Children
import SupOS.Processes.Queue
import SupOS.Processes.Assertions
import SupOS.Processes.Blocking
import SupOS.Processes.Turns
import SupOS.Processes.Registered
import SupOS.Processes.Unawaited
import SupOS.Processes.Living
import SupOS.Pipes.System
import SupOS.Pipes.Fifo
import SupOS.Pipes.Holders
import SupOS.Pipes.Sleepers
import SupOS.Pipes.Steps
import SupOS.Pipes.Readers
import SupOS.Pipes.Writers
import SupOS.Pipes.Lifetime
import SupOS.Descriptors.Vector
import SupOS.Descriptors.FileDescriptor
import SupOS.Descriptors.Table
import SupOS.Descriptors.Made
import SupOS.Descriptors.Counting
import SupOS.Descriptors.Runs
import SupOS.Descriptors.Loss
import SupOS.Descriptors.Held
import SupOS.Streams.BytesStream
import SupOS.Streams.Seek
import SupOS.Libcpp.SharedPtr
import SupOS.Libcpp.Owners
import SupOS.Libcpp.PtrRuns
import SupOS.Libcpp.Deque
import SupOS.Libcpp.Refines
import SupOS.Libcpp.DequeRuns
import SupOS.Libcpp.RawVector
import SupOS.Libcpp.Layout
import SupOS.Libcpp.VectorSteps
import SupOS.Libcpp.VectorRuns
import SupOS.Libcpp.BasicString
import SupOS.Libcpp.StringSteps
import SupOS.Libcpp.StringRuns
import SupOS.Libcpp.SplitConcat
import SupOS.Lib.KeyOrder
import SupOS.Libcpp.SortedVector
import SupOS.Libcpp.SortedRuns
import SupOS.Libcpp.ConstLookups
import SupOS.Video.AlignedCopy
import SupOS.Video.TextWindow
import SupOS.Video.Lines
import SupOS.Video.SGR
import SupOS.Video.Send
import SupOS.Video.Inside
import SupOS.Video.Extent
import SupOS.Video.Workspace
import SupOS.Video.OnScreen
import SupOS.Video.Membership
import SupOS.Ext2.FS
import SupOS.Ext2.Layout
import SupOS.Ext2.Bitmap
import SupOS.Ext2.Numbering
import SupOS.Ext2.Accounting
import SupOS.Ext2.Inode
import SupOS.Ext2.Tree
import SupOS.Ext2.Read
import SupOS.Ext2.Frame
import SupOS.Ext2.Grow
import SupOS.Ext2.Write
import SupOS.Ext2.Files
import SupOS.Ext2.Contents
import SupOS.Ext2.Truncate
import SupOS.Ext2.Resize
import SupOS.Ext2.Shorten
import SupOS.Ext2.Ownership
import SupOS.Ext2.Resizing
import SupOS.Ext2.Upkeep
import SupOS.Ext2.Streams
import SupOS.Ext2.Handles
import SupOS.Ext2.Scan
import SupOS.Ext2.DirRecord
import SupOS.Ext2.Listing
import SupOS.Ext2.Directory
import SupOS.Ext2.Insertion
import SupOS.Ext2.Removal
import SupOS.Ext2.Creation
import SupOS.Ext2.Names
import SupOS.Ext2.NameSteps
import SupOS.Ext2.Ledger
import SupOS.Ext2.NameRuns
import SupOS.Lib.Digits
import SupOS.Libc.Stdio
import SupOS.Libc.Numbers
import SupOS.Libc.Format
import SupOS.Libc.Printf
import SupOS.Libc.Transfer
import SupOS.Libc.Malloc
import SupOS.Lib.Blocks
import SupOS.Libc.MallocChain
import SupOS.Libc.MallocSteps
import SupOS.Libc.FreeSteps
import SupOS.Libc.MallocRuns
import SupOS.Lib.Descent
import SupOS.VFS.FS
import SupOS.VFS.Mounts
import SupOS.VFS.Parents
import SupOS.VFS.Visible
import SupOS.VFS.Listing
import SupOS.VFS.Paths
import SupOS.VFS.Ownership
import SupOS.VFS.WorkingDirectory
import SupOS.VFS.Splitting
import SupOS.RamFS.FS
import SupOS.RamFS.Links
import SupOS.RamFS.Bookkeeping
import SupOS.RamFS.Runs
import SupOS.HDD.HardDrive
import SupOS.IO.Deque
import SupOS.IO.DequeRuns
import SupOS.IO.Keyboard
import SupOS.IO.Interleaving
import SupOS.HDD.ByteArray
import SupOS.HDD.RegularFile
import SupOS.RamFS.RegularFile
import SupOS.Ext2.RegularFile
import SupOS.HDD.Partition
import SupOS.HDD.Polling
import SupOS.HDD.SameFiles
import SupOS.User.Handlers
import SupOS.User.Results
import SupOS.User.Agreement
import SupOS.Shell.Commands
import SupOS.Shell.Restores
import SupOS.Shell.Statuses
