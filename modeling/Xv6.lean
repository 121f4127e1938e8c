import Xv6.Lib.Machine
import Xv6.Lib.Bytes
import Xv6.Param
import Xv6.LogDisk
import Xv6.LogOps
import Xv6.LogRoom
import Xv6.Fs.Layout
import Xv6.Lib.Outcome
import Xv6.Fs.Inode
import Xv6.Fs.Alloc
import Xv6.Fs.Bmap
import Xv6.Fs.FileIO
import Xv6.Fs.Refine
import Xv6.Fs.Share
import Xv6.Fs.Iput
import Xv6.Fs.System
import Xv6.Fs.WriteThrough
import Xv6.Kernel.Names
import Xv6.Kernel.State
import Xv6.Kernel.Calls
import Xv6.Kernel.Alone
import Xv6.Lib.Counting
import Xv6.Kernel.Refs
import Xv6.Kernel.Balance
import Xv6.Kernel.Know
import Xv6.Kernel.Exact
import Xv6.Kernel.RefCounts
import Xv6.Kernel.Paths
import Xv6.Kernel.Writers
import Xv6.Lib.Ring
import Xv6.Lib.Locks
import Xv6.Pipe.Steps
import Xv6.Pipe.Fifo
import Xv6.Pipe.Wakeup
import Xv6.Sched.Steps
import Xv6.Sched.Table
import Xv6.Sched.Invariant
import Xv6.Sched.Moves
import Xv6.Sched.Safety
import Xv6.Vm.Paging
import Xv6.Vm.Calls
import Xv6.Vm.Tables
import Xv6.Vm.Account
import Xv6.Vm.Boot
import Xv6.Vm.Owners
import Xv6.Vm.Size
import Xv6.Ftable.Steps
import Xv6.Ftable.Account
import Xv6.Ftable.Local
import Xv6.Ftable.Calls
import Xv6.Ftable.Refs
import Xv6.Mkfs.Program
import Xv6.Mkfs.Append
import Xv6.Fs.Dir
import Xv6.Mkfs.Build
import Xv6.Mkfs.Limits
import Xv6.Mkfs.Readable
import Xv6.Lib.Monitor
import Xv6.Lib.Naps
import Xv6.Spinlock
import Xv6.Sleeplock
import Xv6.Sem.Spoons
import Xv6.Sem.Waiters
import Xv6.Phil.Dinner
import Xv6.Sched.Tree
import Xv6.Sched.Family
import Xv6.Sched.Reap
import Xv6.Sched.Kill
import Xv6.Console.Keys
import Xv6.Console.Buffer
import Xv6.Console.Strings
import Xv6.Console.Screen
import Xv6.Console.History
import Xv6.Console.Edit
import Xv6.Console.Reads
import Xv6.Killed
import Xv6.Syscall.Entry
import Xv6.Syscall.Calls
import Xv6.Syscall.Bounds
import Xv6.Syscall.Args
import Xv6.Vm.Words
import Xv6.Vm.TwoLevel
import Xv6.Exec.Image
import Xv6.Exec.Copyout
import Xv6.Exec.Load
import Xv6.Exec.Args
import Xv6.Memmove
import Xv6.Sched.Pids
import Xv6.User.Numbers
import Xv6.Mp
import Xv6.User.Grep
