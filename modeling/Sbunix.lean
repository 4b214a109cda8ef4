import Sbunix.Library.Run
import Sbunix.Library.Ownership
import Sbunix.Library.Interval
import Sbunix.Library.LinkedQueue
import Sbunix.Library.Chain
import Sbunix.Library.Radix
import Sbunix.Library.Bytes
import Sbunix.Library.Numeral
import Sbunix.Library.X86
import Sbunix.Library.Spaces
import Sbunix.Mmgr.Model
import Sbunix.Mmgr.Bitmap
import Sbunix.Mmgr.Search
import Sbunix.Mmgr.Range
import Sbunix.Mmgr.Exclusive
import Sbunix.Mmgr.Undo
import Sbunix.Mmgr.FirstRange
import Sbunix.Mmgr.Capacity
import Sbunix.Mmgr.Boot
import Sbunix.Mmgr.Usable
import Sbunix.Mmgr.UsableFrames
import Sbunix.Thread.Model
import Sbunix.Thread.Queue
import Sbunix.Thread.Preempt
import Sbunix.Thread.Lifecycle
import Sbunix.Thread.Pid
import Sbunix.Thread.Timer
import Sbunix.Thread.Sleep
import Sbunix.Thread.Areas
import Sbunix.Thread.Join
import Sbunix.Thread.AllThreads
import Sbunix.Switch.Model
import Sbunix.Switch.Frames
import Sbunix.Switch.Call
import Sbunix.Switch.Fork
import Sbunix.Switch.Start
import Sbunix.Switch.SystemCall
import Sbunix.Paging.Model
import Sbunix.Paging.Entry
import Sbunix.Paging.MapPage
import Sbunix.Paging.Recursive
import Sbunix.Paging.Copy
import Sbunix.Paging.Fork
import Sbunix.Paging.Clear
import Sbunix.Paging.UserPage
import Sbunix.Paging.Recycled
import Sbunix.Paging.Marks
import Sbunix.Paging.Arrange
import Sbunix.Paging.Regular
import Sbunix.Paging.Isolation
import Sbunix.Paging.Private
import Sbunix.Paging.Bump
import Sbunix.Boot.Init
import Sbunix.Boot.Allocators
import Sbunix.Boot.LinearMap
import Sbunix.Boot.Accounting
import Sbunix.Fault.CopyOnWrite
import Sbunix.Fault.Segmentation
import Sbunix.Fault.Isolation
import Sbunix.Fault.Kill
import Sbunix.Exec.Model
import Sbunix.Exec.Segments
import Sbunix.Exec.Sound
import Sbunix.Exec.Heap
import Sbunix.Exec.Stack
import Sbunix.Heap.Model
import Sbunix.Heap.Layout
import Sbunix.Heap.Safety
import Sbunix.Heap.FreeBlocks
import Sbunix.Heap.Cut
import Sbunix.Libc.Malloc
import Sbunix.Fs.Model
import Sbunix.Fs.Sync
import Sbunix.Fs.Table
import Sbunix.Fs.Create
import Sbunix.Fs.Files
import Sbunix.Fs.Unique
import Sbunix.Fs.Transfer
import Sbunix.Fs.ReadBack
import Sbunix.Fs.Reject
import Sbunix.Fs.Cursor
import Sbunix.Fs.Syscalls
import Sbunix.Fs.Controller
import Sbunix.Tarfs.Model
import Sbunix.Tarfs.Walk
import Sbunix.Tarfs.Find
import Sbunix.Tarfs.Exact
import Sbunix.Tarfs.Image
import Sbunix.Tarfs.Ends
import Sbunix.Tarfs.Tree
import Sbunix.Tarfs.Mirror
import Sbunix.Tarfs.Cd
import Sbunix.Text.Convert
import Sbunix.Libc.Printf
import Sbunix.Shell.Parse
import Sbunix.Terminal.Read
import Sbunix.Terminal.Screen
import Sbunix.Terminal.Text
import Sbunix.Terminal.Bounds
import Sbunix.Terminal.Keyboard
import Sbunix.Ahci.Model
import Sbunix.Ahci.Command
import Sbunix.Ahci.Complete
import Sbunix.Ahci.Rebase
import Sbunix.Ahci.Slots
import Sbunix.Ahci.Refine
