import Gpmx.Bch.Persist
import Gpmx.Builtin.TaskTable
import Gpmx.Container.SortedList
import Gpmx.Dloader.Load
import Gpmx.Dloader.Relocate
import Gpmx.Fatfs.File
import Gpmx.Gmsh.Shell
import Gpmx.Hrt.CalloutPunctual
import Gpmx.Hrt.Clock
import Gpmx.Hrt.Sections
import Gpmx.Libc.Nanosleep
import Gpmx.Libc.TimerRuns
import Gpmx.Littlefs.Mount
import Gpmx.Mm.Pool
import Gpmx.Mmcsd.Select
import Gpmx.Mmcsd.Transfer
import Gpmx.Mqueue.Lifetime
import Gpmx.Mtd.At24
import Gpmx.Mtd.FtlLifetime
import Gpmx.Mtd.Isolation
import Gpmx.Mtd.Ramtron
import Gpmx.Mtd.W25Pages
import Gpmx.Mtd.W25Serial
import Gpmx.Nsh.Escape
import Gpmx.Nsh.LineSplit
import Gpmx.Nsh.TestEval
import Gpmx.Nsh.VarSplit
import Gpmx.Nsh.Whole
import Gpmx.Perf.Counter
import Gpmx.Pipe.Ends
import Gpmx.Pipe.Stream
import Gpmx.PseudoFs.DirStreamRuns
import Gpmx.PseudoFs.DupEquivalent
import Gpmx.PseudoFs.Foreach
import Gpmx.PseudoFs.MountRoundTrip
import Gpmx.PseudoFs.RenameTree
import Gpmx.PseudoFs.ReserveAtomic
import Gpmx.Pthread.Barrier
import Gpmx.Pthread.Cond
import Gpmx.Pthread.InheritRuns
import Gpmx.Pthread.LifeCycle
import Gpmx.Pthread.MutexKernels
import Gpmx.Pthread.Once
import Gpmx.Pthread.RwlockMutexRuns
import Gpmx.Pthread.RwlockRuns
import Gpmx.Pthread.Spin
import Gpmx.Pthread.Tls
import Gpmx.Queue.Primitives
import Gpmx.Readline.History
import Gpmx.Romfs.CromfsLookup
import Gpmx.Romfs.CromfsRead
import Gpmx.Romfs.GromfsNames
import Gpmx.Romfs.GromfsOpen
import Gpmx.Rtc.Calendar
import Gpmx.Semaphore.NamedRuns
import Gpmx.Semaphore.TokenRuns
import Gpmx.Serial.Buffer
import Gpmx.Uorb.BlockingRuns
import Gpmx.Uorb.Identity
import Gpmx.Uorb.Interval
import Gpmx.Uorb.PublisherFile
import Gpmx.Uorb.RegistryRefines
import Gpmx.Uorb.Wrap
import Gpmx.Vfs.FileListRuns
import Gpmx.Vfs.PollUndo
import Gpmx.Workqueue.ManagerRuns
import Gpmx.Workqueue.Scheduled
import Gpmx.Workqueue.Worker
import Gpmx.Wqueue.WorkTiming
import Gpmx.Ymodem.Header
import Gpmx.Ymodem.Line
import Gpmx.Ymodem.Reuse
