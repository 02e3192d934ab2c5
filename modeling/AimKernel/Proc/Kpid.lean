import AimKernel.Libbitmap.Bits
import AimKernel.Proc.Sched

/-!
# AimKernel.Proc.Kpid

Process numbers: `proc_new`, `proc_destroy` and the bitmap that they take a number from and give it
back to.

* Positions in the bitmap count from one, so the number zero, of the idle processes, has no bit: the
  one that the operations of `AimKernel.Libbitmap.Bits` take for it lies far behind the bitmap.
* `kpid_new` does not look at the answer of the search, and `proc_new` not at the answer of
  `kpid_new`. Once all numbers are taken, the next process gets the number of the idle processes.

The calls are made one after the other; the allocators' answers are arguments of `proc_new`.
-/

namespace AimKernel.Kpid

open Libbitmap
open Sched (ProcState)

/-! ### Processes -/

/-- The configuration, and where the linker has put the bitmap and the idle processes. The bitmap
lies in the kernel's half of the address space, behind the lock of the same record. -/
structure Globals where
  maxProcesses : Nat
  bitmap : Nat
  idleproc : Nat → Nat
  kernel : kernBase < bitmap
  fits : bitmap + 4 * bitsToLongs maxProcesses ≤ 2 ^ 32

/-- `struct proc`, without the fields that `proc_new` clears and no function here looks at. -/
structure Proc where
  kstack : Nat
  kstackSize : Nat
  tid : Int
  pid : Int
  kpid : Int
  state : ProcState
  oncpu : Int
  bed : Nat
  ns : Nat
  deriving DecidableEq

/-- The state: words of memory, the blocks and pages in use, and the processes that have been
created and not been destroyed, with their addresses. -/
structure Procs where
  mem : Memory
  blocks : List Nat
  pages : List Nat
  procs : List (Nat × Proc)

/-- The numbers that are in use. -/
def Procs.kpids (s : Procs) : List Int := s.procs.map fun e => e.2.kpid

/-- `alloc_kstack`, from the answer of `pgalloc`. -/
def allocKstack (paddr : Nat) : Nat := if paddr = addrError then 0 else pa2kva paddr

/-- `kpid_new`. -/
def kpidNew (G : Globals) (mem : Memory) : Int × Memory :=
  let kpid := (BitVec.ofNat 32 (bitmapFindFirstZeroBit mem G.bitmap G.maxProcesses)).toInt
  (kpid, atomicSetBit (BitVec.ofInt 32 kpid) G.bitmap mem)

/-- `kpid_recycle`. -/
def kpidRecycle (G : Globals) (kpid : Int) (mem : Memory) : Memory :=
  atomicClearBit (BitVec.ofInt 32 kpid) G.bitmap mem

/-- `pid_new`. -/
def pidNew (kpid : Int) (_ns : Nat) : Int := kpid

/-- `proc_new`: the new process or `NULL`. `kmalloc` answers `block`, and `pgalloc` answers `page`
if it is called. -/
def procNew (G : Globals) (ns block page : Nat) (s : Procs) : Nat × Procs :=
  if block = 0 then (0, s)
  else
    let s := { s with blocks := block :: s.blocks }
    let kstack := allocKstack page
    if kstack = 0 then (0, { s with blocks := s.blocks.erase block })
    else
      let s := { s with pages := page :: s.pages }
      let new := kpidNew G s.mem
      let proc : Proc :=
        { kstack, kstackSize := pageSize, tid := new.1, pid := pidNew new.1 ns, kpid := new.1,
          state := .embryo, oncpu := -1, bed := 0, ns }
      (block, { s with mem := new.2, procs := (block, proc) :: s.procs })

/-- `proc_destroy` of a process, given with its address. -/
def procDestroy (G : Globals) (proc : Nat × Proc) (s : Procs) : Procs :=
  { mem := kpidRecycle G proc.2.kpid s.mem
    pages := s.pages.erase (kva2pa proc.2.kstack)
    blocks := s.blocks.erase proc.1
    procs := s.procs.erase proc }

/-! ### Runs -/

/-- The calls, with the allocators' answers. -/
inductive Call
  | procNew (ns block page : Nat)
  | procDestroy (proc : Nat × Proc)
  | other

/-- What the allocators may answer: nothing, or something that is not in use. -/
structure Supplied (G : Globals) (s : Procs) (block page : Nat) : Prop where
  block_fresh : block ≠ 0 → block ∉ s.blocks ∧ ∀ cpu, block ≠ G.idleproc cpu
  page_fresh : page ≠ addrError → page ∉ s.pages ∧ page < lowramTop

/-- Two records of one process, as far as others do not write it. -/
structure SameProc (e e' : Nat × Proc) : Prop where
  addr : e'.1 = e.1
  kstack : e'.2.kstack = e.2.kstack
  pid : e'.2.pid = e.2.pid
  kpid : e'.2.kpid = e.2.kpid
  ns : e'.2.ns = e.2.ns

/-- One step. Each process is destroyed while it is there; the rest of the kernel writes other words,
allocates for itself, and changes the other fields of the processes. -/
inductive Step (G : Globals) (s : Procs) : Call → Procs → Prop
  | procNew {ns block page : Nat} (h : Supplied G s block page) :
      Step G s (.procNew ns block page) (procNew G ns block page s).2
  | procDestroy {proc : Nat × Proc} (h : proc ∈ s.procs) :
      Step G s (.procDestroy proc) (procDestroy G proc s)
  | other {s' : Procs}
      (hmem : ∀ i < bitsToLongs G.maxProcesses, s'.mem (G.bitmap + 4 * i) = s.mem (G.bitmap + 4 * i))
      (hprocs : List.Forall₂ SameProc s.procs s'.procs) : Step G s .other s'

/-- The states that are reached from one with an empty bitmap and no process, by steps that are
admitted. -/
inductive Reach (G : Globals) (Admitted : Procs → Call → Prop) : Procs → Prop
  | boot {s : Procs} (hmem : ∀ i < bitsToLongs G.maxProcesses, s.mem (G.bitmap + 4 * i) = 0#32)
      (hprocs : s.procs = []) : Reach G Admitted s
  | step {s s' : Procs} {c : Call} (h : Reach G Admitted s) (hadm : Admitted s c)
      (hstep : Step G s c s') : Reach G Admitted s'

/-- A process is created only if there is a number left for it, or no memory. -/
def Roomy (G : Globals) (s : Procs) : Call → Prop
  | .procNew _ block page => s.procs.length < G.maxProcesses ∨ block = 0 ∨ page = addrError
  | .procDestroy _ => True
  | .other => True

end AimKernel.Kpid
