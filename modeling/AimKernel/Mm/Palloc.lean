import AimKernel.Lib.Links
import AimKernel.Mm.Types

/-!
# AimKernel.Mm.Palloc

The page allocator of `kern/mm/pmm/palloc.c`: a first-fit free list of
`struct mem_block`s, kept in address order and coalesced on every `free`.

The list nodes are `kmalloc`ed, so both `alloc` and `free` call into the simple
allocator in the middle of their own update. Each of the two functions is
therefore given as the pieces between these calls:

* `alloc` is `allocEnter`, then — if a block was used up — `kfree(a)`, then
  `allocLeave`;
* `free` is `freeEnter`, `kmalloc`, `freeLink`, then — if the new block was merged
  into its predecessor — `kfree(a)`, then `freeMerge`, then — if the successor was
  swallowed — `kfree(i)`, then `freeLeave`.

`AimKernel.Mm.PallocOwnership` strings the pieces together over a `kmalloc` that
does not call back; `AimKernel.Mm.Machine` does so over the real one.
-/

namespace AimKernel

/-- `struct mem_block`. The `flags` of the embedded `struct pages` are never
read. -/
structure MemBlock where
  prev : Link Nat
  next : Link Nat
  paddr : Nat
  size : Nat
  deriving Repr, DecidableEq

/-- The static state of `palloc.c`: the blocks, including the sentinels `h` and `t`
that `head` and `tail` point to, and `free_size`. -/
structure Palloc where
  mem : Link Nat → MemBlock
  freeSize : Nat

namespace Palloc

/-! ### Field writes -/

/-- `p->prev = v`. -/
def setPrev (s : Palloc) (p v : Link Nat) : Palloc :=
  { s with mem := Function.update s.mem p { s.mem p with prev := v } }

/-- `p->next = v`. -/
def setNext (s : Palloc) (p v : Link Nat) : Palloc :=
  { s with mem := Function.update s.mem p { s.mem p with next := v } }

/-- `p->paddr = v`. -/
def setPaddr (s : Palloc) (p : Link Nat) (v : Nat) : Palloc :=
  { s with mem := Function.update s.mem p { s.mem p with paddr := v } }

/-- `p->size = v`. -/
def setSize (s : Palloc) (p : Link Nat) (v : Nat) : Palloc :=
  { s with mem := Function.update s.mem p { s.mem p with size := v } }

/-! ### `alloc` -/

/-- What the first part of `alloc` ends in. -/
inductive AllocStep
  /-- `return -1`. -/
  | reject
  /-- A block was cut short; nothing is left but the accounting. -/
  | carved (pages : Pages) (s : Palloc)
  /-- The block `a` was used up and unlinked; `kfree(a)` comes next. -/
  | emptied (a : Link Nat) (pages : Pages) (s : Palloc)

/-- `alloc` up to its call of `kfree`: the two size checks, the first-fit search,
and taking the pages off the front of the block found. -/
def allocEnter (fuel : Nat) (pages : Pages) (s : Palloc) : Option AllocStep :=
  if pages.size % pageSize ≠ 0 then some .reject
  else if pages.size > s.freeSize then some .reject
  else
    match scan (fun a => (s.mem a).next) (fun a => (s.mem a).size ≥ pages.size) fuel
        (s.mem .head).next with
    | none => none
    | some .tail => some .reject
    | some a =>
      let pages' : Pages := { pages with paddr := (s.mem a).paddr }
      let s := s.setPaddr a (add64 (s.mem a).paddr pages.size)
      let s := s.setSize a (sub64 (s.mem a).size pages.size)
      if (s.mem a).size = 0 then
        let s := s.setNext (s.mem a).prev (s.mem a).next
        let s := s.setPrev (s.mem a).next (s.mem a).prev
        some (.emptied a pages' s)
      else some (.carved pages' s)

/-- `alloc` after its call of `kfree`: `free_size -= pages->size`. -/
def allocLeave (pages : Pages) (s : Palloc) : Palloc :=
  { s with freeSize := sub64 s.freeSize pages.size }

/-! ### `free` -/

/-- What linking the freed block ends in. -/
inductive LinkStep
  /-- The block stays on the list as `a`. -/
  | kept (s : Palloc)
  /-- The block was merged into its predecessor `i` and unlinked; `kfree(a)` comes
  next. -/
  | merged (i : Link Nat) (s : Palloc)

/-- Does `free` go on to ask for a list node? It gives up, twice over, on a size
that is no multiple of the page size. -/
def freeEnter (pages : Pages) : Bool :=
  if pages.size % pageSize ≠ 0 then false
  else if pages.size % pageSize ≠ 0 then false
  else true

/-- `free` from the fresh node `a` to its first call of `kfree`: fill the node,
search its place, splice it in, and merge it into its predecessor if the two
touch. -/
def freeLink (fuel : Nat) (a : Link Nat) (pages : Pages) (s : Palloc) : Option LinkStep :=
  let s := s.setPaddr a pages.paddr
  let s := s.setSize a pages.size
  match scan (fun i => (s.mem i).next) (fun i => (s.mem i).paddr ≥ (s.mem a).paddr) fuel
      (s.mem .head).next with
  | none => none
  | some i =>
    let s := s.setPrev a (s.mem i).prev
    let s := s.setNext a i
    let s := s.setNext (s.mem i).prev a
    let s := s.setPrev i a
    let p := (s.mem a).prev
    if p ≠ .head ∧ add64 (s.mem p).paddr (s.mem p).size = (s.mem a).paddr then
      let s := s.setSize p (add64 (s.mem p).size (s.mem a).size)
      let s := s.setNext p (s.mem a).next
      let s := s.setPrev (s.mem a).next (s.mem a).prev
      some (.merged (s.mem a).prev s)
    else some (.kept s)

/-- What the second merge of `free` ends in. -/
inductive MergeStep
  /-- Nothing to merge. -/
  | kept
  /-- The successor `i` was swallowed and unlinked; `kfree(i)` comes next. -/
  | merged (i : Link Nat) (s : Palloc)

/-- The second merge of `free`: the block `a` takes over its successor if the two
touch. -/
def freeMerge (a : Link Nat) (s : Palloc) : MergeStep :=
  let n := (s.mem a).next
  if n ≠ .tail ∧ add64 (s.mem a).paddr (s.mem a).size = (s.mem n).paddr then
    let s := s.setSize a (add64 (s.mem a).size (s.mem n).size)
    let s := s.setPrev (s.mem n).next a
    let i := (s.mem a).next
    let s := s.setNext a (s.mem i).next
    .merged i s
  else .kept

/-- The end of `free`: `free_size += pages->size`. -/
def freeLeave (pages : Pages) (s : Palloc) : Palloc :=
  { s with freeSize := add64 s.freeSize pages.size }

/-- `get_free`. -/
def getFree (s : Palloc) : Nat := s.freeSize

/-- `page_allocator_init`: an empty list between the two static sentinels. -/
def pageAllocatorInit (s : Palloc) : Palloc :=
  let s := { s with freeSize := 0 }
  let s := s.setPrev .head .null
  let s := s.setNext .tail .null
  let s := s.setNext .head .tail
  s.setPrev .tail .head

/-- The body of `page_allocator_move` after its `kmalloc`: the node `new` takes the
place of `now`. -/
def moveNode (now new : Link Nat) (s : Palloc) : Palloc :=
  let s := s.setPaddr new (s.mem now).paddr
  let s := s.setSize new (s.mem now).size
  let s := s.setPrev new (s.mem now).prev
  let s := s.setNext new (s.mem now).next
  let s := s.setNext (s.mem now).prev new
  s.setPrev (s.mem now).next new

end Palloc

end AimKernel
