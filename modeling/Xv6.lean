import Xv6.Log.Crash
import Xv6.Log.Reservation
import Xv6.Process.Sharing
import Xv6.Process.RoundRobin
import Xv6.Vm.Growproc
import Xv6.Exec.Confined
import Xv6.Process.Cpus
import Xv6.Process.Reaping
import Xv6.Process.Wakeup
import Xv6.Process.Boost
import Xv6.Process.Join
import Xv6.Process.Statistics
import Xv6.Files.Lifetime
import Xv6.Fs.Lseek
import Xv6.Fs.Transactions
import Xv6.Inodes.Coherence
import Xv6.Mkfs.Reading
import Xv6.Device.Console
import Xv6.Device.Ide
import Xv6.Device.Pipe
import Xv6.Disk.Transparency
import Xv6.User.Diff
import Xv6.User.Find
import Xv6.User.Parser
import Xv6.User.Search
import Xv6.User.Grep
import Xv6.User.History
import Xv6.User.Memmove
import Xv6.User.Request
import Xv6.Vm.Args
import Xv6.Vm.Dealloc
import Xv6.Device.Mp
import Xv6.User.Tree
import Xv6.Lock.Spinlock
import Xv6.User.Runcmd
