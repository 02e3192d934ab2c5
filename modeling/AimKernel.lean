import AimKernel.Arch.Trap
import AimKernel.Dev.DevNext
import AimKernel.Dev.ProbeOnce
import AimKernel.I386.BootIndex
import AimKernel.I386.Mp
import AimKernel.I386.PgOperation
import AimKernel.Libbitmap.Areas
import AimKernel.Libbitmap.Find
import AimKernel.Libc.VsnprintfInt
import AimKernel.Mm.AlignedPages
import AimKernel.Mm.AllocatorMove
import AimKernel.Mm.ContentFlow
import AimKernel.Mm.CopyExact
import AimKernel.Mm.EarlyReports
import AimKernel.Mm.Exhaustion
import AimKernel.Mm.PallocExact
import AimKernel.Mm.PlainPage
import AimKernel.Mm.Reentrancy
import AimKernel.Mm.SlabSize
import AimKernel.Mm.Tlb
import AimKernel.Proc.KpidRuns
import AimKernel.Proc.ProcTree
import AimKernel.Proc.ProcWalk
import AimKernel.Proc.SchedIntr
import AimKernel.Proc.SchedWakeup
import AimKernel.Sync.RecursiveLock
import AimKernel.Sync.Semaphore
import AimKernel.Sync.TicketLock
