import AimKernel.Mm.PgTable

/-!
# AimKernel.Mm.Uvm

User address spaces: `struct mm` with its list of VMAs, and the calls on it.

The VMA list of an `mm` is a Lean list. A pointer into it is a *place*: the number
of VMAs up to and including the one pointed to, so that `0` is the list sentinel seen
as a predecessor. The code also reads `start` and `size` through the sentinel, which
is no VMA; what such a read yields is a parameter of the call (`Sentinel`). Each VMA
carries its `struct upages`, since no modelled function shares one between VMAs. The
list of the VMAs that share an `upages`, `vma_count` and `ref_count` are written but
never read and are left out, as are the locks, which the source has commented out.

`kmalloc` is present through its contract, like the page allocator: `Desk.ksupply`
lists its answers, and anything but the address of a new object is a shortage.

The calls reach the page allocator and the page tables through `PageOps`, so that the
same code can be run on page tables in memory (`physOps`) and on plain maps.
-/

namespace AimKernel

/-! ### State -/

/-- `struct upages`, with its own address. -/
structure Upages extends Pages where
  addr : Nat
  refs : Nat
  deriving Repr, DecidableEq

/-- `struct vma`, with its own address. -/
structure Vma where
  addr : Nat
  start : Nat
  size : Nat
  flags : Nat
  pages : Upages
  deriving Repr, DecidableEq

/-- `struct mm`. -/
structure Mm where
  pgindex : Nat
  vmas : List Vma
  deriving Repr, DecidableEq

/-- What reading `start` and `size` through the list sentinel yields. -/
structure Sentinel where
  start : Nat
  size : Nat
  deriving Repr, DecidableEq

/-- The kernel objects of the user memory code. -/
structure Desk where
  /-- The live `kmalloc` objects. -/
  objs : List Nat
  /-- The coming answers of `kmalloc`. -/
  ksupply : List (Option Nat)
  /-- The address spaces, by address. -/
  mms : Nat → Option Mm
  /-- `kernel_mm`. -/
  kernelMm : Nat
  /-- `current_proc->mm`. -/
  currentMm : Option Nat
  /-- `current_pgdir`. -/
  currentPgdir : Nat

/-- The memory management state over a state `P` of pages and page tables. -/
structure Vm (P : Type) where
  pages : P
  desk : Desk

/-- What the user memory code asks of the page allocator and the page tables. -/
structure PageOps (P : Type) where
  allocPages (pages : Pages) : StateT P (Except Fault) (Int × Pages)
  freePages (pages : Pages) : StateT P (Except Fault) Unit
  initPgindex : StateT P (Except Fault) Nat
  destroyPgindex (pgindex : Nat) : StateT P (Except Fault) Unit
  mapPages (pgindex vaddr paddr size flags : Nat) : StateT P (Except Fault) Int
  unmapPages (pgindex vaddr size : Nat) : StateT P (Except Fault) (Nat × Option Nat)
  setPagesPerm (pgindex addr len flags : Nat) : StateT P (Except Fault) Int
  memmove (dst src len : Nat) : StateT P (Except Fault) Unit

/-- Computations on the memory management state. -/
abbrev VmM (P : Type) : Type → Type := StateT (Vm P) (Except Fault)

section Lift

variable {P α : Type}

/-- A computation on pages and page tables. -/
def onPages (m : StateT P (Except Fault) α) : VmM P α :=
  zoom Vm.pages (fun p s => { s with pages := p }) m

/-- A computation on the kernel objects. -/
def onDesk (m : StateT Desk (Except Fault) α) : VmM P α :=
  zoom Vm.desk (fun d s => { s with desk := d }) m

end Lift

/-! ### Objects -/

namespace Desk

/-- `kmalloc`; the result is zero for `NULL`. -/
def kmalloc : StateT Desk (Except Fault) Nat := do
  let s ← get
  match s.ksupply.head? with
  | some (some a) =>
    if a ≠ 0 ∧ a ∉ s.objs then
      set { s with objs := a :: s.objs, ksupply := s.ksupply.tail }
      return a
    else
      set { s with ksupply := s.ksupply.tail }
      return 0
  | _ =>
    set { s with ksupply := s.ksupply.tail }
    return 0

/-- `kfree`. -/
def kfree (a : Nat) : StateT Desk (Except Fault) Unit := do
  let s ← get
  if a ∈ s.objs then
    set { s with objs := s.objs.erase a }
  else
    throw (.badKfree a)

/-- Follow a pointer to a `struct mm`. -/
def getMm (a : Nat) : StateT Desk (Except Fault) Mm := do
  match (← get).mms a with
  | some mm => return mm
  | none => throw (.wild a)

/-- Write a `struct mm`, or let it cease to be one. -/
def setMm (a : Nat) (mm : Option Mm) : StateT Desk (Except Fault) Unit :=
  modify fun s => { s with mms := Function.update s.mms a mm }

end Desk

variable {P : Type}

/-- `kmalloc`; the result is zero for `NULL`. -/
def kmalloc : VmM P Nat := onDesk Desk.kmalloc

/-- `kfree`. -/
def kfree (a : Nat) : VmM P Unit := onDesk (Desk.kfree a)

/-- Follow a pointer to a `struct mm`. -/
def getMm (a : Nat) : VmM P Mm := onDesk (Desk.getMm a)

/-- Write a `struct mm`. -/
def setMm (a : Nat) (mm : Mm) : VmM P Unit := onDesk (Desk.setMm a (some mm))

/-! ### The VMA list -/

/-- `__find_vma_before`. -/
def findVmaBefore (sent : Sentinel) (vmas : List Vma) (addr size : Nat) : Option Nat :=
  if vmas.isEmpty then
    some 0
  else
    let place := vmas.findIdx fun vma => u32 (addr + size) ≤ vma.start
    let prevEnd :=
      match place with
      | 0 => u32 (sent.start + sent.size)
      | k + 1 => (vmas[k]?.map fun vma => u32 (vma.start + vma.size)).getD 0
    if addr < prevEnd then none else some place

/-- `vma->start` at an index; the sentinel comes after the last VMA. -/
def startAt (sent : Sentinel) (vmas : List Vma) (k : Nat) : Nat :=
  (vmas[k]?.map Vma.start).getD sent.start

/-- `next_entry`: the list is a ring through the sentinel. -/
def nextEntry (vmas : List Vma) (k : Nat) : Nat := if k = vmas.length then 0 else k + 1

/-- The loop of `__find_continuous_vma` over the pages after the first. -/
def continuousLoop (sent : Sentinel) (vmas : List Vma) (addr len : Nat) (fuel i k : Nat) :
    Except Fault Bool :=
  if i < len then
    match fuel with
    | 0 => throw .diverge
    | fuel + 1 =>
      let k := nextEntry vmas k
      if startAt sent vmas k ≠ u32 (addr + i) then
        return false
      else
        continuousLoop sent vmas addr len fuel (u32 (i + pageSize)) k
  else
    return true

/-- `__find_continuous_vma`: the index of the first VMA. -/
def findContinuousVma (sent : Sentinel) (vmas : List Vma) (addr len : Nat) :
    Except Fault (Option Nat) :=
  if addr % pageSize ≠ 0 then
    throw (.assertion .alignedAddr)
  else if len % pageSize ≠ 0 then
    throw (.assertion .alignedLen)
  else
    let k := vmas.findIdx fun vma => vma.start == addr
    if k = vmas.length then
      return none
    else do
      let all ← continuousLoop sent vmas addr len maxPages pageSize k
      return if all then some k else none

/-! ### Calls -/

section Calls

variable (B : PageOps P)

/-- `mm_new`; the result is zero for `NULL`. -/
def mmNew : VmM P Nat := do
  let mm ← kmalloc
  if mm = 0 then
    return 0
  else do
    let pgindex ← onPages B.initPgindex
    if pgindex = 0 then
      kfree mm
      return 0
    else
      setMm mm ⟨pgindex, []⟩
      return mm

/-- `__unref_and_free_upages`, and the `kfree` its callers make of the structure when
the pages were freed. -/
def unrefAndFreeUpages (p : Upages) : VmM P Unit :=
  if u32 (p.refs + (2 ^ 32 - 1)) = 0 then do
    onPages (B.freePages p.toPages)
    kfree p.addr
  else
    return ()

/-- The loop of `__unmap_and_free_vma`; `k` is the index of `vma_cur`. -/
def unmapAndFreeLoop (a k size : Nat) (fuel i : Nat) : VmM P Unit :=
  if i < size then
    match fuel with
    | 0 => throw .diverge
    | fuel + 1 => do
        let mm ← getMm a
        match mm.vmas[k]? with
        | none => throw .sentinelFreed
        | some vma =>
          setMm a { mm with vmas := mm.vmas.eraseIdx k }
          let (unmapped, _) ← onPages (B.unmapPages mm.pgindex vma.start vma.size)
          if unmapped ≠ vma.size then
            throw (.assertion .unmapSize)
          else
            unrefAndFreeUpages B vma.pages
            kfree vma.addr
            unmapAndFreeLoop a k size fuel (u32 (i + vma.size))
  else
    return ()

/-- `__unmap_and_free_vma`, from the VMA with index `k` on. -/
def unmapAndFreeVma (a k size : Nat) : VmM P Unit := unmapAndFreeLoop B a k size maxPages 0

/-- `__clean_vma`. -/
def cleanVma (pgindex : Nat) (vma : Vma) : VmM P Unit :=
  if vma.size ≠ vma.pages.size then
    throw (.assertion .cleanSize)
  else do
    let (unmapped, pa) ← onPages (B.unmapPages pgindex vma.start vma.size)
    if pa ≠ some vma.pages.paddr then
      throw (.assertion .cleanPaddr)
    else if unmapped ≠ vma.size then
      throw (.assertion .cleanUnmapped)
    else
      return ()

/-- `mm_destroy`. -/
def mmDestroy (a : Nat) : VmM P Unit := do
  let desk ← onDesk get
  if a = 0 ∨ a = desk.kernelMm then
    return ()
  else do
    let mm ← getMm a
    mm.vmas.forM fun vma => do
      cleanVma B mm.pgindex vma
      unrefAndFreeUpages B vma.pages
      kfree vma.addr
    onPages (B.destroyPgindex mm.pgindex)
    onDesk (Desk.setMm a none)
    kfree a

/-- The body that the loops of `create_uvm` and `mm_clone` share: a new VMA with new
pages, linked in at `place`. `init` is what happens to the pages once they are
mapped. -/
def addVma (a place start size flags psize pflags : Nat)
    (init : Nat → StateT P (Except Fault) Unit) : VmM P Int := do
  let vma ← kmalloc
  if vma = 0 then
    return -ENOMEM
  else do
    let p ← kmalloc
    if p = 0 then
      kfree vma
      return -ENOMEM
    else do
      let (result, pages) ← onPages (B.allocPages ⟨0, psize, pflags⟩)
      if result < 0 then
        kfree p
        kfree vma
        return -ENOMEM
      else do
        let mm ← getMm a
        let retcode ← onPages (B.mapPages mm.pgindex start pages.paddr size flags)
        if retcode < 0 then
          onPages (B.freePages pages)
          kfree p
          kfree vma
          return retcode
        else
          onPages (init pages.paddr)
          setMm a { mm with
            vmas := mm.vmas.insertIdx place ⟨vma, start, size, flags, ⟨pages, p, 1⟩⟩ }
          return 0

/-- The loop of `create_uvm`: the return code and the number of bytes mapped. -/
def createLoop (a len flags : Nat) (fuel mapped vcur place : Nat) : VmM P (Int × Nat) :=
  if mapped < len then
    match fuel with
    | 0 => throw .diverge
    | fuel + 1 => do
        let retcode ← addVma B a place vcur pageSize flags pageSize 0 fun _ => pure ()
        if retcode < 0 then
          return (retcode, mapped)
        else
          createLoop a len flags fuel (u32 (mapped + pageSize)) (u32 (vcur + pageSize)) (place + 1)
  else
    return (0, mapped)

/-- `create_uvm`. -/
def createUvm (sent : Sentinel) (a addr len flags : Nat) : VmM P Int :=
  if len % pageSize ≠ 0 ∨ a = 0 ∨ addr % pageSize ≠ 0 then
    return -EINVAL
  else if len = 0 then
    return 0
  else do
    let mm ← getMm a
    match findVmaBefore sent mm.vmas addr len with
    | none => return -EFAULT
    | some place =>
      let (retcode, mapped) ← createLoop B a len flags maxPages 0 addr place
      if retcode < 0 then
        unmapAndFreeVma B a place mapped
        return retcode
      else
        return 0

/-- `destroy_uvm`. -/
def destroyUvm (sent : Sentinel) (a addr len : Nat) : VmM P Int :=
  if len % pageSize ≠ 0 ∨ a = 0 ∨ addr % pageSize ≠ 0 then
    return -EINVAL
  else do
    let mm ← getMm a
    match ← findContinuousVma sent mm.vmas addr len with
    | none => return -EFAULT
    | some k =>
      unmapAndFreeVma B a k len
      return 0

/-- The loop of `set_uvm_perm`: `k` is the index of the first VMA throughout. -/
def setUvmPermLoop (a k len flags : Nat) (fuel i addr : Nat) : VmM P Int :=
  if i < len then
    match fuel with
    | 0 => throw .diverge
    | fuel + 1 => do
        let mm ← getMm a
        setMm a { mm with vmas := mm.vmas.modify k fun vma => { vma with flags := flags } }
        let retcode ← onPages (B.setPagesPerm mm.pgindex addr pageSize flags)
        if retcode ≠ 0 then
          return -ENOENT
        else
          setUvmPermLoop a k len flags fuel (u32 (i + pageSize)) (u32 (addr + pageSize))
  else
    return 0

/-- `set_uvm_perm`. -/
def setUvmPerm (sent : Sentinel) (a addr len flags : Nat) : VmM P Int :=
  if len % pageSize ≠ 0 ∨ a = 0 ∨ addr % pageSize ≠ 0 then
    return -EINVAL
  else do
    let mm ← getMm a
    match ← findContinuousVma sent mm.vmas addr len with
    | none => return -EFAULT
    | some k => setUvmPermLoop B a k len flags maxPages 0 addr

/-- The loop of `mm_clone` over the VMAs of the source: the return code and the
number of bytes cloned. -/
def cloneLoop (dst : Nat) (cloned place : Nat) : List Vma → VmM P (Int × Nat)
  | [] => return (0, cloned)
  | vma :: rest => do
      let retcode ← addVma B dst place vma.start vma.size vma.flags vma.pages.size vma.pages.flags
        fun paddr => B.memmove (pa2kva paddr) (pa2kva vma.pages.paddr) vma.size
      if retcode < 0 then
        return (retcode, cloned)
      else
        cloneLoop dst (u32 (cloned + vma.size)) (place + 1) rest

/-- `mm_clone`. The source's list is read as it is at the call. -/
def mmClone (dst src : Nat) : VmM P Int := do
  let mm ← getMm src
  let (retcode, cloned) ← cloneLoop B dst 0 0 mm.vmas
  if retcode < 0 then
    unmapAndFreeVma B dst 0 cloned
    return retcode
  else
    return 0

end Calls

/-! ### On page tables in memory -/

/-- The page allocator and the page tables of the MIPS port. -/
def physOps : PageOps Phys where
  allocPages := allocPages
  freePages := freePages
  initPgindex := initPgindex
  destroyPgindex := destroyPgindex
  mapPages := mapPages
  unmapPages := unmapPages
  setPagesPerm := setPagesPerm
  memmove dst src len := modify fun s => { s with mem := s.mem.copy dst src len }

/-- `map_pages` for one page, except that it fails without a change: if the leaf table
is missing and there is no frame for one, nothing else happens. -/
def mapPagesOrFail (pgindex vaddr paddr size flags : Nat) : PhysM Int := do
  let s ← get
  if IsFrame paddr ∧ s.mem.load32 (entry pgindex (pdx vaddr)) = 0 ∧
      s.answer pageSize = none then
    set { s with supply := s.supply.tail }
    return -ENOMEM
  else
    mapPages pgindex vaddr paddr size flags

/-- The MIPS port with a `map_pages` that changes nothing when it fails. -/
def cleanOps : PageOps Phys := { physOps with mapPages := mapPagesOrFail }

end AimKernel
