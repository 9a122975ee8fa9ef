import Xv6.Bio.Spec
import Xv6.Console.Lines
import Xv6.Disk.Shared
import Xv6.Fs.Count
import Xv6.Fs.Entries
import Xv6.Fs.FileTable
import Xv6.Fs.Resolve
import Xv6.Log.Crash
import Xv6.Log.Refcnt
import Xv6.Log.Sleep
import Xv6.Memmove
import Xv6.Pipe.Deliver
import Xv6.Pipe.Fifo
import Xv6.Pipe.Wakeup
import Xv6.Process.Clean
import Xv6.Process.Cpu
import Xv6.Process.Deadlock
import Xv6.Sh.Strings
import Xv6.Sleeplock.Exclusion
import Xv6.Spinlock
import Xv6.Uart
import Xv6.User.Find
import Xv6.User.Itoa
import Xv6.Vm.Exec
