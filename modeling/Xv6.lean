import Xv6.Proc.Priority
import Xv6.Log.Space
import Xv6.Proc.Kill
import Xv6.Proc.OneCpu
import Xv6.Proc.Reaping
import Xv6.Proc.Aging
import Xv6.Sleep.Wakeup
import Xv6.Sleep.Killed
import Xv6.Vm.Accounting
import Xv6.Pipe.Fifo
import Xv6.Pipe.Stuck
import Xv6.Proc.Decision
import Xv6.Proc.RoundTrip
import Xv6.Bio.Coherence
import Xv6.Vm.Isolation
import Xv6.Console.Editor
import Xv6.Sh.Command
import Xv6.Umalloc.Heap
import Xv6.Grep.Lines
import Xv6.Vm.Sbrk
import Xv6.Vm.Stack
import Xv6.Fs.Transaction
import Xv6.Fs.Chunks
import Xv6.Clib.Memmove
import Xv6.Clib.Printint
import Xv6.Mp.Walk
import Xv6.Vm.Ranges
import Xv6.Sleep.Sleeplock
import Xv6.Spinlock.Nesting
