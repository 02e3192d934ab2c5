import AimKernel.Lib.Links
import AimKernel.Mm.Types

/-!
# AimKernel.Mm.Slab

The simple allocator of `kern/mm/vmm/simple.c`: objects of nine size classes,
carved out of single pages. Each page is described by a `struct alloced_page`
with a bitmap of its 16-byte cells; the descriptors form a list that only ever
grows, a descriptor whose page has been given back is kept with size `PG_EMPTY`
for reuse.

Pages come from `pgalloc` and go back through `pgfree`, so `alloc` and `free` call
into the page allocator in the middle of their own update. As in
`AimKernel.Mm.Palloc` each function is given as the pieces between these calls:

* `alloc` is `allocEnter`, then either `take` alone, or `pgalloc` and `allocPage`,
  which for a new descriptor goes on with the outcome of `get_plain_object`
  (`plainEnter` and, if the plain page is full, `pgalloc` and `plainLeave`);
* `free` is `freeEnter`, then — if the page became empty — `pgfree`.

`Slab.alloc` puts the first together for a caller that knows what the calls answer.

Descriptors are never freed. They are stored one after the other in a plain page
that serves no other purpose.
-/

namespace AimKernel

/-- `BIT_SIZE`: the bytes covered by one status bit. -/
def bitSize : Nat := 0x10

/-- `PG_EMPTY`: the size of a descriptor that describes no page. -/
def pgEmpty : Nat := 0x7ffff

/-- `fri_size`: the object sizes. -/
def friSize : List Nat := [0x1000, 0x800, 0x400, 0x200, 0x100, 0x80, 0x40, 0x20, 0x10]

/-- `sizeof(struct alloced_page)`. -/
def allocedPageSize : Nat := 52

/-- `struct alloced_page`. Bit `i` of `status` is bit `i & 7` of `status[i >> 3]`. -/
structure AllocedPage where
  prev : Link Nat
  next : Link Nat
  paddr : Nat
  size : Nat
  num : Int
  status : BitVec 256
  deriving Repr, DecidableEq

/-- The static state of `simple.c`: the descriptors, including the sentinels `h`
and `t` that `head` and `tail` point to, and the plain page. -/
structure Slab where
  mem : Link Nat → AllocedPage
  nowPlainPage : Nat
  offset : Nat

/-! ### The status bits -/

/-- `bit(x, a)`. -/
def bit (status : BitVec 256) (a : Nat) : Bool := status.getLsbD a

/-- `setbit(x, a)`, which toggles. -/
def setbit (status : BitVec 256) (a : Nat) : BitVec 256 := status ^^^ BitVec.twoPow 256 a

/-- The loop of `get_space` from `i` on. It makes at most one iteration for every
status bit, since the stride is positive for each of the nine sizes. -/
def getSpaceLoop (status : BitVec 256) (leap : Nat) : Nat → Nat → Nat
  | 0, i => i
  | fuel + 1, i =>
    if i * bitSize < pageSize then
      if bit status i then getSpaceLoop status leap fuel (i + leap) else i
    else i

/-- `get_space`: the byte offset of the first free object, and the status with its
bit set. -/
def getSpace (status : BitVec 256) (sz : Nat) : Nat × BitVec 256 :=
  let leap := sz / bitSize
  let i := getSpaceLoop status leap (pageSize / bitSize) 0
  (bitSize * i, if i * bitSize < pageSize then setbit status i else status)

/-- `free_space`. -/
def freeSpace (status : BitVec 256) (pos : Nat) : BitVec 256 :=
  if bit status pos then setbit status pos else status

/-- The size class of a request: the last entry of `fri_size` that is large
enough. Requests over the page size have been refused before, so that the search
never runs off the table. -/
def sizeClass (size : Nat) : Nat := (friSize.reverse.find? fun c => c ≥ size).getD 0

namespace Slab

/-- A write to the fields of the descriptor `p`. -/
def write (s : Slab) (p : Link Nat) (f : AllocedPage → AllocedPage) : Slab :=
  { s with mem := Function.update s.mem p (f (s.mem p)) }

/-! ### `get_plain_object` -/

/-- What the first part of `get_plain_object` ends in. -/
inductive PlainStep
  /-- `panic`. -/
  | panic (msg : String)
  /-- The object fits in the plain page. -/
  | obj (a : Nat) (s : Slab)
  /-- A new plain page is needed; `pgalloc` comes next. -/
  | needPage

/-- `get_plain_object` up to the `pgalloc` of `new_plain_page`. -/
def plainEnter (size : Nat) (s : Slab) : PlainStep :=
  if size > pageSize then .panic "Plain OBJECT too large.\n"
  else if s.offset + size ≤ pageSize then
    .obj (u32 (s.nowPlainPage + s.offset)) { s with offset := s.offset + size }
  else .needPage

/-- `new_plain_page` from the answer of its `pgalloc` on. -/
def newPlainPage (paddr : Nat) (s : Slab) : Nat × Slab :=
  let s := { s with offset := 0 }
  if paddr = addrError then (0, s) else (pa2kva paddr, s)

/-- `get_plain_object` from the answer of that `pgalloc` on. The object is the start
of the page; `offset` stays zero. -/
def plainLeave (paddr : Nat) (s : Slab) : PlainStep :=
  let (page, s) := newPlainPage paddr s
  let s := { s with nowPlainPage := page }
  if s.nowPlainPage = 0 then .panic "Page Allocator Full or An error occurred.\n"
  else .obj s.nowPlainPage s

/-- `get_plain_object(sizeof(struct alloced_page))`, with `pg` the answer of the `pgalloc` of
`new_plain_page`. -/
def getPlainObject (pg : Nat) (s : Slab) : PlainStep :=
  match s.plainEnter allocedPageSize with
  | .needPage => s.plainLeave pg
  | step => step

/-! ### `alloc` -/

/-- What the first part of `alloc` ends in. -/
inductive AllocStep
  /-- `return NULL`. -/
  | null
  /-- The descriptor `a` has a free object of the size class. -/
  | slot (size : Nat) (a : Link Nat)
  /-- A page is needed, to be described by `a` or, if `a` is the tail, by a new
  descriptor; `pgalloc` comes next. -/
  | needPage (size : Nat) (a : Link Nat)
  deriving Repr, DecidableEq

/-- Does the first search of `alloc` stop at `a`? -/
def hasRoom (size : Nat) (s : Slab) (a : Link Nat) : Bool :=
  size = (s.mem a).size &&
    u32 (((s.mem a).num % 2 ^ 32).toNat * (s.mem a).size) < pageSize

/-- `alloc` up to its `pgalloc`: the size class, the search for a page with room,
and the search for an unused descriptor. -/
def allocEnter (fuel size : Nat) (s : Slab) : Option AllocStep :=
  if size = 0 ∨ size > pageSize then some .null
  else
    let size := sizeClass size
    match scan (fun a => (s.mem a).next) (hasRoom size s) fuel (s.mem .head).next with
    | none => none
    | some .tail =>
      match scan (fun a => (s.mem a).next) (fun a => (s.mem a).size = pgEmpty) fuel
          (s.mem .head).next with
      | none => none
      | some a => some (.needPage size a)
    | some a =>
      if (s.mem a).size = pgEmpty then some (.needPage size a) else some (.slot size a)

/-- Putting a new descriptor at the front of the list. -/
def link (a : Link Nat) (s : Slab) : Slab :=
  let s := s.write a fun d => { d with prev := .head }
  let s := s.write a fun d => { d with next := (s.mem .head).next }
  let s := s.write (s.mem .head).next fun d => { d with prev := a }
  s.write .head fun d => { d with next := a }

/-- Giving the descriptor `a` a fresh page. -/
def install (a : Link Nat) (newPage size : Nat) (s : Slab) : Slab :=
  s.write a fun d => { d with paddr := newPage, size := size, num := 0, status := 0 }

/-- The end of `alloc`: mark the first free object of `a` and return it. -/
def take (a : Link Nat) (size : Nat) (s : Slab) : Nat × Slab :=
  let space := getSpace (s.mem a).status size
  let s := s.write a fun d => { d with status := space.2 }
  let s := s.write a fun d => { d with num := d.num + 1 }
  (u32 ((s.mem a).paddr + space.1), s)

/-- The rest of `alloc` once the descriptor `a` is to hold the page `newPage`. -/
def installTake (a : Link Nat) (newPage size : Nat) (s : Slab) : Nat × Slab :=
  (s.install a newPage size).take a size

/-- What `alloc` ends in once it has a page. -/
inductive PageStep
  /-- `panic`. -/
  | panic (msg : String)
  /-- The object is returned. -/
  | took (result : Nat × Slab)
  /-- A new plain page is needed for the descriptor. -/
  | needPlain

/-- `alloc` from the outcome of `get_plain_object` on. -/
def allocPlain (plain : PlainStep) (newPage size : Nat) : PageStep :=
  match plain with
  | .panic msg => .panic msg
  | .obj d s => .took ((s.link (.node d)).installTake (.node d) newPage size)
  | .needPage => .needPlain

/-- `alloc` with the page `newPage`, to be described by `a`; `plain` is the outcome of
`get_plain_object`. -/
def allocPage (plain : PlainStep) (newPage size : Nat) (a : Link Nat) (s : Slab) : PageStep :=
  if a = .tail then allocPlain plain newPage size
  else .took (s.installTake a newPage size)

/-- `alloc`, where `pg` is the answer of its `pgalloc` and `plain` the outcome of its
`get_plain_object`. `none` says that the descriptor list does not end within `fuel`
nodes. -/
def alloc (fuel pg : Nat) (plain : PlainStep) (size : Nat) (s : Slab) :
    Option (Except String (Nat × Slab)) :=
  match s.allocEnter fuel size with
  | none => none
  | some .null => some (.ok (0, s))
  | some (.slot size a) => some (.ok (s.take a size))
  | some (.needPage size a) =>
    if pa2kva pg = 0 then some (.ok (0, s))
    else
      match s.allocPage plain (pa2kva pg) size a with
      | .panic msg => some (.error msg)
      | .took result => some (.ok result)
      | .needPlain => none

/-! ### `free` and `size` -/

/-- Do the searches of `free` and `size` stop at `a`? -/
def covers (obj : Nat) (s : Slab) (a : Link Nat) : Bool :=
  obj ≥ (s.mem a).paddr && obj < u32 ((s.mem a).paddr + pageSize)

/-- What the first part of `free` ends in. -/
inductive FreeStep
  /-- `panic`. -/
  | panic (msg : String)
  /-- Nothing is left to do. -/
  | kept (s : Slab)
  /-- The page at the physical address `pa` became empty; `pgfree(pa)` comes
  next. -/
  | emptied (pa : Nat) (s : Slab)

/-- `free` up to its `pgfree`. -/
def freeEnter (fuel obj : Nat) (s : Slab) : Option FreeStep :=
  if obj = 0 then some (.kept s)
  else
    match scan (fun a => (s.mem a).next) (covers obj s) fuel (s.mem .head).next with
    | none => none
    | some .tail => some (.panic "Free: Can't find object\n")
    | some a =>
      let pos := (obj - (s.mem a).paddr) / bitSize
      let s := s.write a fun d => { d with status := freeSpace d.status pos }
      let s := s.write a fun d => { d with num := d.num - 1 }
      if (s.mem a).num = 0 then
        let s := s.write a fun d => { d with size := pgEmpty }
        some (.emptied (kva2pa (s.mem a).paddr) s)
      else some (.kept s)

/-- `size`. -/
def size (fuel obj : Nat) (s : Slab) : Option Nat :=
  match scan (fun a => (s.mem a).next) (covers obj s) fuel (s.mem .head).next with
  | none => none
  | some .tail => some 0
  | some a => some (s.mem a).size

/-- `simple_allocator_init` up to its `new_plain_page`: an empty list between the
two static sentinels. -/
def initLinks (s : Slab) : Slab :=
  let s := s.write .head fun d => { d with prev := .null }
  let s := s.write .tail fun d => { d with next := .null }
  let s := s.write .head fun d => { d with next := .tail }
  s.write .tail fun d => { d with prev := .head }

end Slab

end AimKernel
