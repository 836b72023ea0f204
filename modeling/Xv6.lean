import Xv6.Disk.Crash
import Xv6.Proc.History
import Xv6.Proc.Blocking
import Xv6.Ipc.Pipe
import Xv6.Disk.Group
import Xv6.Disk.Cache
import Xv6.Fs.Image
import Xv6.Fs.Tree
import Xv6.Proc.Pinfo
import Xv6.Fs.Icache
import Xv6.Proc.Control
import Xv6.Mkfs.Agree
import Xv6.Fs.Failed
import Xv6.Dev.Console
import Xv6.Dev.Ide
import Xv6.Dev.Net
import Xv6.Proc.Sleeplock
import Xv6.User.Uthread
import Xv6.User.Grammar
import Xv6.Proc.Slices
import Xv6.Proc.Dispatch
import Xv6.Proc.Args
import Xv6.Vm.Growproc
import Xv6.Vm.Stack
import Xv6.User.Grep
import Xv6.User.Sbrk
import Xv6.Fs.Path
import Xv6.Fs.Shared
import Xv6.Fs.Opblocks
import Xv6.Dev.Icmp
import Xv6.Dev.Arp
import Xv6.Dev.Madt
import Xv6.User.Move
import Xv6.Vm.Flat
