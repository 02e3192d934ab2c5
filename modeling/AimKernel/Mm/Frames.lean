import AimKernel.Lib.Memory
import AimKernel.Lib.Wp
import AimKernel.Mm.Types
import Mathlib.Data.List.Nodup

/-!
# AimKernel.Mm.Frames

Physical memory as the page table code and the user memory code meet it: the bytes
of the kernel's linear mapping and the interface of the page allocator.

The allocator is present through its contract only. `Phys.supply` lists what it is
going to answer, in order; an answer that is not a block of frames which are all
free counts as a shortage, and so does the end of the list. Freeing something that
is not handed out stops the model with a fault. `Phys.freed` is a history variable:
every frame that was freed, with the memory at the moment of the call.
-/

namespace AimKernel

/-! ### Faults -/

/-- The assertions of the modelled functions. -/
inductive Assertion
  /-- `vma->size == vma->pages->size` in `__clean_vma`. -/
  | cleanSize
  /-- `pa == vma->pages->paddr` in `__clean_vma`. -/
  | cleanPaddr
  /-- `unmapped == (ssize_t)vma->size` in `__clean_vma`. -/
  | cleanUnmapped
  /-- `unmap_pages(...) == (ssize_t)vma_size` in `__unmap_and_free_vma`. -/
  | unmapSize
  /-- `PTR_IS_ALIGNED(addr, PAGE_SIZE)` in `__find_continuous_vma`. -/
  | alignedAddr
  /-- `IS_ALIGNED(len, PAGE_SIZE)` in `__find_continuous_vma`. -/
  | alignedLen
  /-- `mm->pgindex == get_pgindex()` in `__copy_fill_uvm`. -/
  | loadedPgindex
  deriving Repr, DecidableEq

/-- What stops the kernel. -/
inductive Fault
  /-- A failed assertion. -/
  | assertion (a : Assertion)
  /-- The panic of `unmap_pages`. -/
  | unmapNonExistent (vcur : Nat)
  /-- The panic of `set_pages_perm`. -/
  | changePermNonExistent (addr : Nat)
  /-- A frame is freed that is not handed out. -/
  | badFree (paddr : Nat)
  /-- An object is freed that is not live. -/
  | badKfree (addr : Nat)
  /-- An access through a null or stale pointer. -/
  | wild (addr : Nat)
  /-- The list sentinel is unlinked and freed as if it were a VMA. -/
  | sentinelFreed
  /-- An access to a user page that the loaded page index does not allow. -/
  | pageFault (addr : Nat)
  /-- A loop over the 32-bit address space that has come round. -/
  | diverge
  deriving Repr, DecidableEq

/-! ### State -/

/-- Physical memory and the page allocator's side of it. -/
structure Phys where
  /-- The bytes of the linear mapping, by kernel virtual address. -/
  mem : Mem
  /-- The frames that are handed out. -/
  frames : List Nat
  /-- The allocator's coming answers. -/
  supply : List (Option Nat)
  /-- Every frame freed so far and the memory when it was. -/
  freed : List (Nat × Mem)

/-- Computations on physical memory. -/
abbrev PhysM : Type → Type := StateT Phys (Except Fault)

/-- The frames of a block. -/
def block (paddr size : Nat) : List Nat :=
  (List.range (size / pageSize)).map fun i => paddr + i * pageSize

variable {f g : Nat} {m m' : Mem} {b : UInt8}

@[simp] theorem block_page (paddr : Nat) : block paddr pageSize = [paddr] := by
  simp [block, pageSize]

/-- Fill the pages of a block through the linear mapping. -/
def fillBlock (m : Mem) (paddr : Nat) (b : UInt8) (size : Nat) : Mem :=
  (block paddr size).foldl (fun m f => m.fill (pa2kva f) b pageSize) m

@[simp] theorem fillBlock_page (m : Mem) (paddr : Nat) (b : UInt8) :
    fillBlock m paddr b pageSize = m.fill (pa2kva paddr) b pageSize := by
  simp [fillBlock]

/-- `pmemset`. The loop counts the size down in steps of a page and misses zero if it
is not a multiple. -/
def pmemset (paddr : Nat) (b : UInt8) (size : Nat) : PhysM Unit :=
  if size % pageSize ≠ 0 then
    throw .diverge
  else
    modify fun s => { s with mem := fillBlock s.mem paddr b size }

/-- `JUNKBYTE`. -/
def junkbyte : UInt8 := 0x20

/-! ### The page allocator's interface -/

/-- The answer to a request for `size` bytes while `frames` are handed out: a block of
free frames, or nothing. -/
def pageAnswer (supply : List (Option Nat)) (frames : List Nat) (size : Nat) : Option Nat :=
  match supply.head? with
  | some (some f) =>
    if size % pageSize = 0 ∧ ∀ g ∈ block f size, IsFrame g ∧ g ∉ frames then
      some f
    else none
  | _ => none

/-- What the allocator answers next. -/
def Phys.answer (s : Phys) (size : Nat) : Option Nat := pageAnswer s.supply s.frames size

/-- `__allocator.alloc`: the return value, and the request as the call leaves it. -/
def allocatorAlloc (pages : Pages) : PhysM (Int × Pages) := do
  let s ← get
  match s.answer pages.size with
  | some f =>
    set { s with frames := block f pages.size ++ s.frames, supply := s.supply.tail }
    return (0, { pages with paddr := f })
  | none =>
    set { s with supply := s.supply.tail }
    return (-1, pages)

/-- `__allocator.free`. `m` is the memory to record. -/
def allocatorFree (pages : Pages) (m : Mem) : PhysM Unit := do
  let s ← get
  let frames := block pages.paddr pages.size
  if ∀ f ∈ frames, f ∈ s.frames then
    set { s with
      frames := s.frames.diff frames
      freed := frames.map (fun f => (f, m)) ++ s.freed }
  else throw (.badFree pages.paddr)

/-- `alloc_pages`: the return value, and the request as the call leaves it. -/
def allocPages (pages : Pages) : PhysM (Int × Pages) := do
  let (result, pages) ← allocatorAlloc pages
  if pages.flags &&& gfpZero ≠ 0 then
    pmemset pages.paddr 0 pages.size
    return (result, pages)
  else
    return (result, pages)

/-- `free_pages`. -/
def freePages (pages : Pages) : PhysM Unit := do
  let s ← get
  if pages.flags &&& gfpUnsafe = 0 then
    pmemset pages.paddr junkbyte pages.size
    allocatorFree pages s.mem
  else
    allocatorFree pages s.mem

/-- `pgalloc`, over any `alloc_pages`. -/
def pgallocBy {P : Type} (allocPages : Pages → StateT P (Except Fault) (Int × Pages)) :
    StateT P (Except Fault) Nat := do
  let (result, p) ← allocPages ⟨0, pageSize, 0⟩
  if result ≠ 0 then return addrError else return premapAddr p.paddr

/-- `pgfree`, over any `free_pages`. -/
def pgfreeBy {P : Type} (freePages : Pages → StateT P (Except Fault) Unit) (paddr : Nat) :
    StateT P (Except Fault) Unit :=
  freePages ⟨premapAddr paddr, pageSize, 0⟩

/-- `pgalloc`. -/
def pgalloc : PhysM Nat := pgallocBy allocPages

/-- `pgfree`. -/
def pgfree (paddr : Nat) : PhysM Unit := pgfreeBy freePages paddr

/-! ### Frames in the linear mapping -/

theorem IsFrame.pa2kva_eq (h : IsFrame f) : pa2kva f = f + kernBase :=
  AimKernel.pa2kva_eq h.lt_kernBase

@[simp] theorem IsFrame.kva2pa_pa2kva (h : IsFrame f) : kva2pa (pa2kva f) = f :=
  AimKernel.kva2pa_pa2kva h.lt_kernBase

theorem IsFrame.premapAddr_eq (h : IsFrame f) : premapAddr f = f :=
  AimKernel.premapAddr_eq h.lt_kernBase

theorem IsFrame.pa2kva_ne_zero (h : IsFrame f) : pa2kva f ≠ 0 := by
  rw [h.pa2kva_eq]
  unfold kernBase
  omega

theorem IsFrame.pa2kva_lt (h : IsFrame f) : pa2kva f + pageSize < 2 ^ 32 := by
  have hf := h.2
  rw [h.pa2kva_eq]
  unfold pageSize lowramTop kernBase at *
  omega

theorem IsFrame.apart (hf : IsFrame f) (hg : IsFrame g) (hne : f ≠ g) :
    pa2kva f + pageSize ≤ pa2kva g ∨ pa2kva g + pageSize ≤ pa2kva f := by
  have := PageBelow.apart hf hg hne
  rw [hf.pa2kva_eq, hg.pa2kva_eq]
  omega

/-- The bytes of a frame are the same in both memories. -/
def Untouched (m m' : Mem) (f : Nat) : Prop := m.SameOn m' (pa2kva f) pageSize

theorem Untouched.refl (m : Mem) (f : Nat) : Untouched m m f := Mem.SameOn.refl m _ _

theorem Untouched.trans {m'' : Mem} (h : Untouched m m' f) (h' : Untouched m' m'' f)
    : Untouched m m'' f := Mem.SameOn.trans h h'

theorem Untouched.fill (h : Untouched m m' f) (hf : IsFrame f) (hg : IsFrame g) (hne : f ≠ g) :
    Untouched m (m'.fill (pa2kva g) b pageSize) f :=
  Mem.SameOn.fill h (hg.apart hf hne.symm)

theorem block_nodup (paddr size : Nat) : (block paddr size).Nodup := by
  apply List.Nodup.map _ List.nodup_range
  intro i j hij
  dsimp only at hij
  unfold pageSize at hij
  omega

theorem fillBlock_apply (m : Mem) (paddr : Nat) (b : UInt8) (size x : Nat) :
    fillBlock m paddr b size x =
      if ∃ f ∈ block paddr size, pa2kva f ≤ x ∧ x < pa2kva f + pageSize then b else m x := by
  unfold fillBlock
  generalize block paddr size = fs
  induction fs generalizing m with
  | nil => simp
  | cons f rest ih =>
    rw [List.foldl_cons, ih]
    by_cases hrest : ∃ g ∈ rest, pa2kva g ≤ x ∧ x < pa2kva g + pageSize
    · obtain ⟨g, hg, hin⟩ := hrest
      rw [if_pos ⟨g, hg, hin⟩, if_pos ⟨g, List.mem_cons_of_mem f hg, hin⟩]
    · rw [if_neg hrest]
      unfold Mem.fill
      by_cases hin : pa2kva f ≤ x ∧ x < pa2kva f + pageSize
      · rw [if_pos hin, if_pos ⟨f, List.mem_cons_self, hin⟩]
      · rw [if_neg hin, if_neg]
        rintro ⟨g, hg, hgin⟩
        rcases List.mem_cons.mp hg with rfl | hg
        · exact hin hgin
        · exact hrest ⟨g, hg, hgin⟩

/-- Filling a block leaves the other frames alone. -/
theorem Untouched.fillBlock {paddr size : Nat} (hf : IsFrame f)
    (hblock : ∀ g ∈ block paddr size, IsFrame g ∧ g ≠ f) :
    Untouched m (fillBlock m paddr b size) f := by
  intro x hlo hhi
  rw [fillBlock_apply, if_neg]
  rintro ⟨g, hg, hin⟩
  obtain ⟨hgf, hne⟩ := hblock g hg
  have := hgf.apart hf hne
  omega

/-! ### Specifications -/

section Specs

variable {s : Phys}

variable {f : Nat} {Q : Unit → Phys → Prop}

theorem pageAnswer_free {supply : List (Option Nat)} {frames : List Nat} {size : Nat}
    (h : pageAnswer supply frames size = some f) :
    size % pageSize = 0 ∧ ∀ g ∈ block f size, IsFrame g ∧ g ∉ frames := by
  unfold pageAnswer at h
  split at h
  · split at h
    · cases h
      assumption
    · cases h
  · cases h

theorem Phys.answer_page (h : s.answer pageSize = some f) :
    IsFrame f ∧ f ∉ s.frames :=
  (pageAnswer_free h).2 f (by simp)

/-- Asking for one page without flags: a shortage, or a fresh frame. -/
theorem wp_allocPages {paddr : Nat} {Q : Int × Pages → Phys → Prop}
    (hshort : Q (-1, ⟨paddr, pageSize, 0⟩) { s with supply := s.supply.tail })
    (hfresh : ∀ f, IsFrame f → f ∉ s.frames → Q (0, ⟨f, pageSize, 0⟩)
      { s with frames := f :: s.frames, supply := s.supply.tail }) :
    wp (allocPages ⟨paddr, pageSize, 0⟩) Q s := by
  simp only [allocPages, allocatorAlloc, wp_bind, wp_get]
  cases ha : s.answer pageSize with
  | none => simpa [gfpZero] using hshort
  | some f =>
    obtain ⟨hf, hnew⟩ := Phys.answer_page ha
    simpa [gfpZero] using hfresh f hf hnew

/-- `pgalloc` when the allocator has a frame. -/
theorem wp_pgalloc {Q : Nat → Phys → Prop} (h : s.answer pageSize = some f)
    (hQ : Q f { s with frames := f :: s.frames, supply := s.supply.tail }) :
    wp pgalloc Q s := by
  obtain ⟨hf, -⟩ := Phys.answer_page h
  simpa [pgalloc, pgallocBy, allocPages, allocatorAlloc, h, gfpZero, hf.premapAddr_eq] using hQ

theorem wp_freePages (hf : f ∈ s.frames) (hQ : Q () { s with
      mem := s.mem.fill (pa2kva f) junkbyte pageSize
      frames := s.frames.erase f
      freed := (f, s.mem) :: s.freed }) :
    wp (freePages ⟨f, pageSize, 0⟩) Q s := by
  simpa [freePages, allocatorFree, pmemset, hf, gfpUnsafe, List.diff_cons] using hQ

theorem wp_pgfree (hframe : IsFrame f) (hf : f ∈ s.frames) (hQ : Q () { s with
      mem := s.mem.fill (pa2kva f) junkbyte pageSize
      frames := s.frames.erase f
      freed := (f, s.mem) :: s.freed }) :
    wp (pgfree f) Q s := by
  rw [pgfree, pgfreeBy, hframe.premapAddr_eq]
  exact wp_freePages hf hQ

end Specs

end AimKernel
