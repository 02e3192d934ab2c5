import Mathlib.Algebra.Group.Int.Defs
import Mathlib.Algebra.Group.Nat.Defs

/-!
# AimKernel.Mm.Types

Machine words, address conversion and the request record shared by the memory
management modules.

`addr_t` and `lsize_t` are 64-bit on every port, while pointers and `size_t` are
32-bit. Both are natural numbers here; wherever the kernel's arithmetic can wrap,
the operation goes through `add64`, `sub64` or an explicit reduction modulo
`2 ^ 32`.
-/

namespace AimKernel

/-- `PAGE_SIZE`. -/
def pageSize : Nat := 4096

/-- `KERN_BASE`, the start of the kernel's linear mapping. -/
def kernBase : Nat := 0x80000000

/-- `LOWRAM_TOP`, the end of the physical memory handed to the page allocator. -/
def lowramTop : Nat := 0x10000000

/-- A page that ends at or below `top`. -/
structure PageBelow (top p : Nat) : Prop where
  aligned : p % pageSize = 0
  bound : p + pageSize ≤ top

instance (top p : Nat) : Decidable (PageBelow top p) :=
  decidable_of_iff (p % pageSize = 0 ∧ p + pageSize ≤ top)
    ⟨fun h => ⟨h.1, h.2⟩, fun h => ⟨h.aligned, h.bound⟩⟩

/-- 64-bit addition. -/
def add64 (a b : Nat) : Nat := (a + b) % 2 ^ 64

/-- 64-bit subtraction. -/
def sub64 (a b : Nat) : Nat := (a + (2 ^ 64 - b % 2 ^ 64)) % 2 ^ 64

/-- `(addr_t)-1`, the error value of `pgalloc`. -/
def addrError : Nat := 2 ^ 64 - 1

theorem add64_eq {a b : Nat} (h : a + b < 2 ^ 64) : add64 a b = a + b :=
  Nat.mod_eq_of_lt h

theorem sub64_eq {a b : Nat} (hb : b ≤ a) (ha : a < 2 ^ 64) : sub64 a b = a - b := by
  unfold sub64
  omega

theorem PageBelow.mono {s t p : Nat} (h : PageBelow s p) (hle : s ≤ t) : PageBelow t p :=
  ⟨h.aligned, Nat.le_trans h.bound hle⟩

theorem PageBelow.lt {top p : Nat} (h : PageBelow top p) : p < top :=
  Nat.lt_of_lt_of_le (Nat.lt_add_of_pos_right (by decide)) h.bound

theorem PageBelow.apart {s t p q : Nat} (hp : PageBelow s p) (hq : PageBelow t q) (hne : p ≠ q) :
    p + pageSize ≤ q ∨ q + pageSize ≤ p := by
  have h1 := hp.aligned
  have h2 := hq.aligned
  unfold pageSize at *
  omega

/-- A page frame of the memory that `init_free_pages` gives to the allocator. -/
def IsFrame (f : Nat) : Prop := PageBelow lowramTop f

instance (f : Nat) : Decidable (IsFrame f) := inferInstanceAs (Decidable (PageBelow _ _))

theorem IsFrame.lt_kernBase {f : Nat} (h : IsFrame f) : f < kernBase :=
  (h.mono (by decide)).lt

theorem IsFrame.ne_addrError {f : Nat} (h : IsFrame f) : f ≠ addrError :=
  Nat.ne_of_lt (h.mono (by decide)).lt

/-- The cast `(uint32_t)x`, which is also `(size_t)x`. -/
def u32 (x : Nat) : Nat := x % 2 ^ 32

/-- `pa2kva`: physical to kernel virtual address. -/
def pa2kva (pa : Nat) : Nat := u32 (u32 pa + kernBase)

/-- `kva2pa`: kernel virtual to physical address. -/
def kva2pa (kva : Nat) : Nat := u32 (u32 kva + (2 ^ 32 - kernBase))

/-- `premap_addr`: always a low address. -/
def premapAddr (a : Nat) : Nat :=
  if kernBase ≤ u32 a then u32 a - kernBase else u32 a

theorem pa2kva_eq {pa : Nat} (h : pa < kernBase) : pa2kva pa = pa + kernBase := by
  unfold pa2kva u32 kernBase at *
  omega

theorem kva2pa_pa2kva {pa : Nat} (h : pa < kernBase) : kva2pa (pa2kva pa) = pa := by
  rw [pa2kva_eq h]
  unfold kva2pa u32 kernBase at *
  omega

theorem premapAddr_eq {pa : Nat} (h : pa < kernBase) : premapAddr pa = pa := by
  unfold premapAddr u32 kernBase at *
  rw [if_neg (by omega)]
  omega

theorem premapAddr_lt (a : Nat) : premapAddr a < kernBase := by
  unfold premapAddr u32 kernBase
  split
  · omega
  · omega

/-- `PTR_ALIGN_BELOW(p, PAGE_SIZE)`. -/
def ptrAlignBelow (p : Nat) : Nat := p / pageSize * pageSize

/-- `GFP_UNSAFE`: do not fill in junk before freeing. -/
def gfpUnsafe : Nat := 0x1

/-- `GFP_ZERO`: zero out the buffer after allocation. -/
def gfpZero : Nat := 0x2

/-- `struct pages`: a block of physical pages, or a request for one. -/
structure Pages where
  paddr : Nat
  size : Nat
  flags : Nat
  deriving Repr, DecidableEq

end AimKernel
