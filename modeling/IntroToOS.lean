import IntroToOS.Lib.Run
import IntroToOS.Lib.Slots
import IntroToOS.Lib.Bytes
import IntroToOS.Lib.Fold
import IntroToOS.Mlfq.Kernel
import IntroToOS.Mlfq.Queues
import IntroToOS.Mlfq.Machine
import IntroToOS.Mlfq.HandOver
import IntroToOS.Mlfq.Dispatch
import IntroToOS.Mlfq.LockOrder
import IntroToOS.Fscheck.Check
import IntroToOS.Fscheck.Blocks
import IntroToOS.Fscheck.Entries
import IntroToOS.Fscheck.Accept
import IntroToOS.Fscheck.Scans
import IntroToOS.Fscheck.Visits
import IntroToOS.Fscheck.Bounds
import IntroToOS.Fscheck.Consistent
import IntroToOS.Lib.Blocked
import IntroToOS.Fscheck.Links
import IntroToOS.Lib.Orbits
import IntroToOS.Fscheck.Tree
import IntroToOS.Mkfs.Tool
import IntroToOS.Mkfs.Layout
import IntroToOS.Mkfs.Append
import IntroToOS.CheckedFs.Disk
import IntroToOS.CheckedFs.Pointers
import IntroToOS.CheckedFs.Sound
import IntroToOS.CheckedFs.Bmap
import IntroToOS.CheckedFs.Transfer
import IntroToOS.CheckedFs.Write
import IntroToOS.CheckedFs.Calls
import IntroToOS.CheckedFs.Checksums
import IntroToOS.CheckedFs.Outcomes
import IntroToOS.CheckedFs.Truncate
import IntroToOS.CheckedFs.Contents
import IntroToOS.Threads.Files
import IntroToOS.Threads.Kernel
import IntroToOS.Threads.AddressSpaces
import IntroToOS.Threads.References
import IntroToOS.Threads.OpenFiles
import IntroToOS.WebServer.Server
import IntroToOS.WebServer.HandOff
import IntroToOS.WebServer.Wakeups
import IntroToOS.Mkfs.Build
import IntroToOS.Mkfs.Accepted
import IntroToOS.SharedMemory.Syscall
import IntroToOS.Stats.Clients
import IntroToOS.Mlfq.Slices
import IntroToOS.Mlfq.Reuse
import IntroToOS.Lib.Codec
import IntroToOS.Varsort.Sort
import IntroToOS.SharedMemory.Kernel
import IntroToOS.SharedMemory.Exec
import IntroToOS.Lib.Windows
import IntroToOS.SharedMemory.Frames
import IntroToOS.SharedMemory.Images
import IntroToOS.SharedMemory.Forks
import IntroToOS.SharedMemory.Growproc
import IntroToOS.SharedMemory.OutOfMemory
import IntroToOS.SharedMemory.Invariant
import IntroToOS.SharedMemory.Preserve
import IntroToOS.SharedMemory.Attach
import IntroToOS.SharedMemory.Detach
import IntroToOS.SharedMemory.Exits
import IntroToOS.SharedMemory.ForkExec
import IntroToOS.SharedMemory.Reachable
import IntroToOS.SharedMemory.FailedAttach
import IntroToOS.SharedMemory.SharedRegion
import IntroToOS.CheckedFs.Balloc
import IntroToOS.CheckedFs.Room
import IntroToOS.CheckedFs.Corruption
import IntroToOS.Threads.Clone
import IntroToOS.Threads.UserThreads
import IntroToOS.Threads.Reaping
import IntroToOS.Threads.SameTable
import IntroToOS.Mlfq.Pointers
import IntroToOS.Lib.Rotate
import IntroToOS.Mlfq.RoundRobin
import IntroToOS.Mlfq.Starvation
import IntroToOS.Mlfq.Trigger
import IntroToOS.Lib.Comparison
import IntroToOS.Varsort.Comparators
import IntroToOS.Lib.Rearrange
import IntroToOS.Varsort.QuickSort
import IntroToOS.Shell.LinkedList
import IntroToOS.Shell.ListOps
import IntroToOS.Shell.ListHistory
import IntroToOS.Lib.Memory
import IntroToOS.Varsort.Bounds
import IntroToOS.Lib.Lines
import IntroToOS.WebServer.Rio
import IntroToOS.Lib.CString
import IntroToOS.WebServer.Request
import IntroToOS.Shell.Command
import IntroToOS.Shell.Input
import IntroToOS.Lib.Buckets
import IntroToOS.Shell.Jobs
import IntroToOS.CheckedFs.Exec
import IntroToOS.CheckedFs.Contained
import IntroToOS.Lib.Circular
import IntroToOS.Threads.Umalloc
import IntroToOS.Lib.Extents
import IntroToOS.Threads.FreeList
import IntroToOS.Threads.Allocator
import IntroToOS.Lib.Ring
import IntroToOS.Lib.Logs
import IntroToOS.Pipes.Machine
import IntroToOS.Pipes.Stream
import IntroToOS.Pipes.Ends
import IntroToOS.Pipes.Wakeups
import IntroToOS.Bcache.Machine
import IntroToOS.Bcache.Owners
import IntroToOS.Bcache.Sectors
import IntroToOS.Bcache.Drive
import IntroToOS.Bcache.Store
import IntroToOS.Bcache.Sleepers
import IntroToOS.Console.Machine
import IntroToOS.Console.Lines
import IntroToOS.Console.Readers
