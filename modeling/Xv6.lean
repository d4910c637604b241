import Xv6.Library.CInt
import Xv6.Library.Run
import Xv6.Library.Disk
import Xv6.Library.Tally
import Xv6.Library.ByteMem
import Xv6.Library.DList
import Xv6.Proc.Basic
import Xv6.Proc.Ops
import Xv6.Proc.Step
import Xv6.Proc.Frame
import Xv6.Proc.Admission
import Xv6.Proc.Lifecycle
import Xv6.Proc.Budget
import Xv6.Fs.Log
import Xv6.Fs.Trans
import Xv6.Fs.GroupCommit
import Xv6.Fs.Bio
import Xv6.System.Basic
import Xv6.System.Outstanding
import Xv6.System.Refs
import Xv6.Vm.Basic
import Xv6.Vm.Copyout
import Xv6.Vm.Kvm
import Xv6.Fs.Layout
import Xv6.Fs.Content
import Xv6.Fs.Mkfs
import Xv6.Fs.Path
import Xv6.Fs.Boot
import Xv6.Library.Owners
import Xv6.Fs.Blocks
import Xv6.Proc.Dispatch
import Xv6.Proc.Policy
import Xv6.Proc.Wakeup
import Xv6.Proc.Pid
import Xv6.Library.Ring
import Xv6.Io.Pipe
import Xv6.User.Umalloc
import Xv6.Io.Console
import Xv6.Library.Extent
import Xv6.Fs.File
import Xv6.User.Grep
import Xv6.Vm.Grow
import Xv6.Vm.Args
import Xv6.Fs.LogCache
import Xv6.Fs.Namei
import Xv6.User.ShToken
import Xv6.User.ShParse
import Xv6.User.ShGrammar
import Xv6.User.ShCmd
import Xv6.Library.Copy
import Xv6.Clib.Memmove
import Xv6.Boot.Mp
import Xv6.Vm.Dealloc
import Xv6.Fs.Bmap
import Xv6.Library.Splice
import Xv6.Fs.ReadWrite
import Xv6.Fs.Trunc
import Xv6.Fs.Icache
import Xv6.Fs.Dirlink
import Xv6.Fs.Sysfile
