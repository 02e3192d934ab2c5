import AimKernel.Mm.Frames

/-!
# AimKernel.Mm.PgTable

The two-level MIPS page table.

A page index is the kernel address of a directory page; each of its words is zero
or the kernel address of a leaf page, whose words are the page table entries. The
functions work on the bytes of physical memory, entry by entry, as the source does.

Loops that count through the 32-bit address space in steps of a page carry a budget
of `maxPages` rounds. A loop that has used it up has been at its current address
before and never ends.
-/

namespace AimKernel

/-! ### Error numbers -/

def ENOENT : Int := 2
def ENOMEM : Int := 12
def EACCES : Int := 13
def EFAULT : Int := 14
def EEXIST : Int := 17
def EINVAL : Int := 22

/-! ### Entries -/

/-- `NR_PTENTRIES`. -/
def nrPtentries : Nat := 1024

/-- The pages of the 32-bit address space. It is irreducible, or Lean would try to run
the loops that have it as their budget. -/
@[irreducible] def maxPages : Nat := 2 ^ 20

/-- `PDX`. -/
def pdx (va : Nat) : Nat := va / 2 ^ 22 % 2 ^ 10

/-- `PTX`. -/
def ptx (va : Nat) : Nat := va / 2 ^ 12 % 2 ^ 10

/-- The address of a word of a table. -/
def entry (table i : Nat) : Nat := table + 4 * i

def PTE_CACHEABLE : Nat := 0x600
def PTE_DIRTY : Nat := 0x100
def PTE_VALID : Nat := 0x080
def PTE_GLOBAL : Nat := 0x040

/-- `PTE_PADDR`. -/
def ptePaddr (pte : Nat) : Nat := pte &&& 0xfffff000

def VMA_WRITE : Nat := 0x02

/-- `__pgtable_perm`. -/
def pgtablePerm (vmaFlags : Nat) : Nat :=
  PTE_VALID ||| PTE_GLOBAL ||| PTE_CACHEABLE |||
    (if vmaFlags &&& VMA_WRITE ≠ 0 then PTE_DIRTY else 0)

/-- `struct pagedesc`. -/
structure Pagedesc where
  pdev : Nat
  ptev : Nat
  pdx : Nat
  ptx : Nat
  deriving Repr, DecidableEq, Inhabited

/-! ### Functions -/

/-- `__getpagedesc`: the return value and the descriptor as the call leaves it. On
failure the leaf table and the index into it keep their old values. -/
def getpagedesc (pgindex addr : Nat) (create : Bool) (pd : Pagedesc) :
    PhysM (Int × Pagedesc) := do
  let pd := { pd with pdev := pgindex, pdx := pdx addr }
  let pde := (← get).mem.load32 (entry pgindex pd.pdx)
  if pde ≠ 0 then
    return (0, { pd with ptev := pde, ptx := ptx addr })
  else if create then
    let paddr ← pgalloc
    if paddr = addrError then
      return (-ENOMEM, pd)
    else
      let ptev := pa2kva paddr
      modify fun s =>
        { s with mem := (s.mem.fill ptev 0 pageSize).store32 (entry pgindex pd.pdx) ptev }
      return (0, { pd with ptev := ptev, ptx := ptx addr })
  else
    return (-ENOENT, pd)

/-- One round of `__free_intermediate_pgtable`. A zero directory entry is followed
like any other, to whatever lies at the bottom of the address space. -/
def freeIfEmpty (pgindex i : Nat) : PhysM Unit := do
  let m := (← get).mem
  let table := m.load32 (entry pgindex i)
  if table = 0 then
    throw (.wild 0)
  else if (List.range nrPtentries).all fun j => m.load32 (entry table j) == 0 then do
    pgfree (kva2pa table)
    modify fun s => { s with mem := s.mem.store32 (entry pgindex i) 0 }
  else
    return ()

/-- `__free_intermediate_pgtable`. -/
def freeIntermediatePgtable (pgindex vaddr size : Nat) : PhysM Unit :=
  let first := pdx vaddr
  let last := pdx (u32 (vaddr + size + (2 ^ 32 - pageSize)))
  (List.range' first (last + 1 - first)).forM (freeIfEmpty pgindex)

/-- `init_pgindex`; the result is zero for `NULL`. -/
def initPgindex : PhysM Nat := do
  let paddr ← pgalloc
  if paddr = addrError then
    return 0
  else
    pmemset paddr 0 pageSize
    return pa2kva paddr

/-- `destroy_pgindex`. -/
def destroyPgindex (pgindex : Nat) : PhysM Unit :=
  pgfree (kva2pa pgindex)

/-- The first pass of `map_pages`: the leaf tables are there and the entries are
free. The result is the return code, the page the pass stopped at and the last
descriptor. -/
def mapScan (pgindex pend : Nat) (fuel pcur vcur : Nat) (pd : Pagedesc) :
    PhysM (Int × Nat × Pagedesc) :=
  if pcur < pend then
    match fuel with
    | 0 => throw .diverge
    | fuel + 1 => do
        let (retcode, pd) ← getpagedesc pgindex vcur true pd
        if retcode = -ENOMEM then
          return (retcode, vcur, pd)
        else if (← get).mem.load32 (entry pd.ptev pd.ptx) ≠ 0 then
          return (-EEXIST, vcur, pd)
        else
          mapScan pgindex pend fuel (add64 pcur pageSize) (u32 (vcur + pageSize)) pd
  else
    return (0, vcur, pd)

/-- The second pass of `map_pages`: fill the entries. -/
def mapFill (pgindex pend flags : Nat) (fuel pcur vcur : Nat) (pd : Pagedesc) : PhysM Unit :=
  if pcur < pend then
    match fuel with
    | 0 => throw .diverge
    | fuel + 1 => do
        let (_, pd) ← getpagedesc pgindex vcur false pd
        modify fun s =>
          { s with mem := s.mem.store32 (entry pd.ptev pd.ptx) (u32 pcur ||| pgtablePerm flags) }
        mapFill pgindex pend flags fuel (add64 pcur pageSize) (u32 (vcur + pageSize)) pd
  else
    return ()

/-- `map_pages`. -/
def mapPages (pgindex vaddr paddr size flags : Nat) : PhysM Int :=
  if paddr % pageSize ≠ 0 ∨ size % pageSize ≠ 0 ∨ vaddr % pageSize ≠ 0 then
    return -EINVAL
  else do
    let pend := add64 paddr size
    let (retcode, vcur, pd) ← mapScan pgindex pend maxPages paddr vaddr default
    if retcode < 0 then
      freeIntermediatePgtable pgindex vaddr (u32 (vcur + (2 ^ 32 - vaddr)))
      return retcode
    else
      mapFill pgindex pend flags maxPages paddr vaddr pd
      return 0

/-- The loop of `unmap_pages`: the number of bytes unmapped and the physical address
stored through `paddr`, if any. -/
def unmapLoop (pgindex vend : Nat) (fuel vcur unmapped pcur : Nat) (pd : Pagedesc)
    (paddr : Option Nat) : PhysM (Nat × Option Nat) :=
  if vcur < vend then
    match fuel with
    | 0 => throw .diverge
    | fuel + 1 => do
        let (retcode, pd) ← getpagedesc pgindex vcur false pd
        if retcode < 0 then
          throw (.unmapNonExistent vcur)
        else
          let pte := (← get).mem.load32 (entry pd.ptev pd.ptx)
          if unmapped ≠ 0 ∧ pte ≠ pcur then
            return (unmapped, paddr)
          else
            -- unmapping the first page: store the physical address
            let (pcur, paddr) :=
              if unmapped = 0 then (ptePaddr pte, some (ptePaddr pte)) else (pcur, paddr)
            modify fun s => { s with mem := s.mem.store32 (entry pd.ptev pd.ptx) 0 }
            unmapLoop pgindex vend fuel (u32 (vcur + pageSize)) (u32 (unmapped + pageSize))
              (add64 pcur pageSize) pd paddr
  else
    return (unmapped, paddr)

/-- `unmap_pages`: the return value and what is stored through `paddr`. -/
def unmapPages (pgindex vaddr size : Nat) : PhysM (Nat × Option Nat) := do
  let (unmapped, paddr) ←
    unmapLoop pgindex (u32 (vaddr + size)) maxPages vaddr 0 0 default none
  freeIntermediatePgtable pgindex vaddr unmapped
  return (unmapped, paddr)

/-- The loop of `set_pages_perm`. -/
def setPermLoop (pgindex len flags : Nat) (fuel i addr : Nat) (pd : Pagedesc) : PhysM Unit :=
  if i < len then
    match fuel with
    | 0 => throw .diverge
    | fuel + 1 => do
        let (retcode, pd) ← getpagedesc pgindex addr false pd
        if retcode < 0 then
          throw (.changePermNonExistent addr)
        else
          modify fun s =>
            let pte := s.mem.load32 (entry pd.ptev pd.ptx)
            { s with
              mem := s.mem.store32 (entry pd.ptev pd.ptx) (ptePaddr pte ||| pgtablePerm flags) }
          setPermLoop pgindex len flags fuel (u32 (i + pageSize)) (u32 (addr + pageSize)) pd
  else
    return ()

/-- `set_pages_perm`. -/
def setPagesPerm (pgindex addr len flags : Nat) : PhysM Int := do
  setPermLoop pgindex len flags maxPages 0 addr default
  return 0

/-- `uva2kva`; the result is zero for `NULL`. -/
def uva2kva (pgindex uaddr : Nat) : PhysM Nat := do
  let (retcode, pd) ← getpagedesc pgindex uaddr false default
  if retcode < 0 then
    return 0
  else
    let pte := (← get).mem.load32 (entry pd.ptev pd.ptx)
    return pa2kva (ptePaddr pte ||| uaddr % pageSize)

end AimKernel
