import Xv6.Console.Editor
import Xv6.Console.Raw
import Xv6.Exec.Result
import Xv6.Exec.Sbrk
import Xv6.Files.Lifetime
import Xv6.Find.Glob
import Xv6.Find.Walk
import Xv6.Fs.Filewrite
import Xv6.Log.Admission
import Xv6.Log.Group
import Xv6.Mem.UserCopy
import Xv6.Pipes.Read
import Xv6.Pipes.Wakeup
import Xv6.Procs.Zombies
import Xv6.Sched.Wakeup
import Xv6.Shell.Keys
import Xv6.Shell.Plumbing
import Xv6.User.Grep
import Xv6.User.HeapInv
import Xv6.User.Memmove
import Xv6.User.Sieve
import Xv6.User.Xargs
import Xv6.Virtio.Protocol
