import Xv6.Log.Commit
import Xv6.Log.Crash
import Xv6.Lib.Run
import Xv6.Log.Group
import Xv6.Log.GroupInvariant
import Xv6.Log.Reservation
import Xv6.Proc.Table
import Xv6.Lib.Memory
import Xv6.Proc.Getproc
import Xv6.Sys.Args
import Xv6.Sys.Getprocs
import Xv6.Lib.Chunk
import Xv6.Sys.Read
import Xv6.Vm.Page
import Xv6.Vm.Space
import Xv6.Vm.Dealloc
import Xv6.Vm.Alloc
import Xv6.Vm.Grow
import Xv6.Vm.Exec
import Xv6.Vm.Confine
import Xv6.Fs.Disk
import Xv6.Lib.Prog
import Xv6.Fs.Inode
import Xv6.Fs.Dir
import Xv6.Fs.Call
import Xv6.Fs.Descriptors
import Xv6.Fs.View
import Xv6.Fs.BlockMap
import Xv6.Fs.Content
import Xv6.Fs.Refine
import Xv6.Fs.RefineData
import Xv6.Proc.Family
import Xv6.Proc.Kill
import Xv6.Proc.Reap
import Xv6.Proc.Cpu
import Xv6.Proc.Sleep
import Xv6.Proc.Ticks
import Xv6.Vm.Owner
import Xv6.Vm.Moves
import Xv6.Vm.Isolation
import Xv6.Vm.Frames
import Xv6.Fs.Icache
import Xv6.Lib.RingBuf
import Xv6.Ipc.Pipe
import Xv6.Ipc.Wakeup
import Xv6.Io.Memide
import Xv6.Lib.LinkQueue
import Xv6.Io.Bio
import Xv6.Io.Ide
import Xv6.Io.Coherent
import Xv6.Mkfs.Basic
import Xv6.Mkfs.Build
import Xv6.Mkfs.Holes
import Xv6.Fs.Reading
import Xv6.Mkfs.Readback
import Xv6.Fs.Room
import Xv6.Mkfs.Consistent
import Xv6.Vm.Clear
import Xv6.Vm.Extend
import Xv6.Vm.Sbrk
import Xv6.Vm.Copy
import Xv6.Io.Console
import Xv6.Io.LineDiscipline
import Xv6.Log.Waiters
import Xv6.Proc.Pids
import Xv6.Lib.LinkRing
import Xv6.User.Umalloc
import Xv6.User.FreeList
import Xv6.User.Malloc
import Xv6.User.Heap
import Xv6.User.HeapInvariant
import Xv6.User.Grammar
import Xv6.User.Parser
import Xv6.User.Parsecmd
import Xv6.Fs.ByteArray
import Xv6.Fs.SharedFile
import Xv6.Fs.Transaction
import Xv6.Fs.FailedWrite
import Xv6.User.Requests
import Xv6.Io.Exhaust
import Xv6.Fs.Footprint
import Xv6.Fs.Reserve
import Xv6.Vm.Args
import Xv6.Vm.Private
import Xv6.Vm.ArgStack
import Xv6.Vm.ExecStack
import Xv6.Vm.ExecSafe
import Xv6.Lib.Pattern
import Xv6.User.Match
import Xv6.Lib.Lines
import Xv6.User.Grep
import Xv6.Boot.Mp
import Xv6.Sys.Ids
import Xv6.User.Builtin
import Xv6.User.Strings
import Xv6.Proc.Ppid
import Xv6.Proc.StateList
import Xv6.Lib.Accounts
import Xv6.Proc.Account
import Xv6.Vm.Mapping
import Xv6.Proc.Interrupts
import Xv6.Sys.Memmove
import Xv6.User.Printf
import Xv6.User.Durations
import Xv6.User.Date
