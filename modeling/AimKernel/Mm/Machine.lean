import AimKernel.Mm.Palloc
import AimKernel.Mm.Slab
import Mathlib.Logic.Relation

/-!
# AimKernel.Mm.Machine

The two allocators calling each other.

`simple.c` gets its pages from `palloc.c`, and `palloc.c` gets its list nodes from
`simple.c`; each calls the other in the middle of its own update. The pieces of
`AimKernel.Mm.Slab` and `AimKernel.Mm.Palloc` are put together here as a machine
with an explicit call stack: a `Frame` is a function waiting for a call to return,
with the locals it still needs. `kmalloc`, `kfree` (`vmm.c`), `pgalloc` and
`pgfree` (`pmm.h`) are the entry points.

The machine also carries what its clients own — the objects and pages handed out
to them — and `live`, the objects of all completed `kmalloc`s that have not been
passed to `kfree`, list nodes included. The code reads none of the three.

Filling pages and objects (`GFP_ZERO`, the junk byte of `free_pages`) only writes
memory that nothing refers to any more, or not yet, and is left out.
-/

namespace AimKernel

/-- `sizeof(struct mem_block)`. -/
def memBlockSize : Nat := 32

/-- `sizeof(struct pages)`. -/
def pagesSize : Nat := 24

/-- The allocator registered with `set_simple_allocator`. -/
inductive Simple
  /-- The bump allocator of `simple_allocator_bootstrap`. -/
  | bootstrap
  /-- The allocator of `simple_allocator_init`. -/
  | slab
  deriving Repr, DecidableEq

/-- The calls between the allocators and from outside. -/
inductive Call
  | kmalloc (size : Nat)
  | kfree (obj : Link Nat)
  | pgalloc
  | pgfree (paddr : Nat)
  | freePages (pages : Pages)
  | simpleAllocatorInit
  | pageAllocatorMove
  deriving Repr, DecidableEq

/-- A function that waits for a call to return. -/
inductive Frame
  /-- `alloc` of `simple.c` waits for a page, to be described by `a`. -/
  | allocPage (size : Nat) (a : Link Nat)
  /-- `alloc` of `simple.c` has `newPage` and waits for a new plain page. -/
  | allocPlain (size newPage : Nat)
  /-- `alloc` of `palloc.c`, inside `pgalloc`, waits for `kfree(a)`. -/
  | pallocAlloc (pages : Pages)
  /-- `free` of `palloc.c` waits for its list node. -/
  | pallocFree (pages : Pages)
  /-- `free` of `palloc.c` waits for the `kfree(a)` of its first merge. -/
  | pallocMergePrev (pages : Pages) (i : Link Nat)
  /-- `free` of `palloc.c` waits for the `kfree(i)` of its second merge. -/
  | pallocMergeNext (pages : Pages)
  /-- `simple_allocator_init` waits for its plain page. -/
  | initPlain
  /-- `page_allocator_move` waits for the node that is to replace `now`. -/
  | move (now : Link Nat)
  /-- `allocator_init` waits, with these calls to go. -/
  | boot (rest : List Call)
  /-- A client waits for its call. -/
  | client (c : Call)
  deriving Repr, DecidableEq

/-- What the machine does next. -/
inductive Ctl
  | idle
  | call (c : Call)
  | ret (v : Nat)
  | panic (msg : String)
  deriving Repr, DecidableEq

/-- The memory of the allocators, and what is handed out. -/
structure World where
  pa : Palloc
  slab : Slab
  /-- `top`, `bottom` and `ssize` of the bootstrap allocator. -/
  top : Nat
  bottom : Nat
  ssize : Nat
  active : Simple
  /-- The objects of completed `kmalloc`s that have not been freed. -/
  live : List Nat
  /-- The objects among them that clients own. -/
  objs : List Nat
  /-- The pages that clients own. -/
  pages : List Nat

/-- The machine: memory, control and call stack. -/
structure Machine where
  world : World
  ctl : Ctl
  stack : List Frame

namespace World

/-- `simple_alloc`. -/
def simpleAlloc (size : Nat) (w : World) : Nat × World :=
  if w.top + size > w.bottom + w.ssize then (0, w)
  else (w.top, { w with top := w.top + size })

/-- The end of `alloc` of `simple.c`, when `kmalloc` completes. -/
def take (a : Link Nat) (size : Nat) (w : World) : Nat × World :=
  let t := w.slab.take a size
  (t.1, { w with slab := t.2, live := t.1 :: w.live })

/-- The end of `alloc` of `simple.c` for a page `newPage` under the descriptor
`a`. -/
def installTake (a : Link Nat) (newPage size : Nat) (w : World) : Nat × World :=
  let t := w.slab.installTake a newPage size
  (t.1, { w with slab := t.2, live := t.1 :: w.live })

end World

namespace Machine

/-- Return `v`. -/
def doRet (v : Nat) (m : Machine) : Machine := { m with ctl := .ret v }

/-- Call `c`, to come back to the frame `f`. -/
def doCall (c : Call) (f : Frame) (m : Machine) : Machine :=
  { m with ctl := .call c, stack := f :: m.stack }

/-- `panic(msg)`. -/
def doPanic (msg : String) (m : Machine) : Machine := { m with ctl := .panic msg }

/-- The message of `kmalloc` for an object that is too large. -/
def tooLarge : String := "kmalloc: size %lu too large\n"

/-- `kmalloc(size, 0)`. -/
def kmalloc (fuel size : Nat) (m : Machine) : Option Machine :=
  if size > pageSize / 2 then some (m.doPanic tooLarge)
  else
    match m.world.active with
    | .bootstrap =>
      let (obj, w) := m.world.simpleAlloc size
      some ({ m with world := w }.doRet obj)
    | .slab =>
      match m.world.slab.allocEnter fuel size with
      | none => none
      | some .null => some (m.doRet 0)
      | some (.slot size a) =>
        let t := m.world.take a size
        some ({ m with world := t.2 }.doRet t.1)
      | some (.needPage size a) => some (m.doCall .pgalloc (.allocPage size a))

/-- `alloc` of `simple.c` once it has a page: it returns, or waits for a plain page. -/
def allocRet (size newPage : Nat) (m : Machine) : Slab.PageStep → Machine
  | .panic msg => m.doPanic msg
  | .took t =>
    { m with world := { m.world with slab := t.2, live := t.1 :: m.world.live } }.doRet t.1
  | .needPlain => m.doCall .pgalloc (.allocPlain size newPage)

/-- `alloc` of `simple.c` after its `pgalloc`. -/
def allocPageRet (v size : Nat) (a : Link Nat) (m : Machine) : Machine :=
  let newPage := pa2kva v
  if newPage = 0 then m.doRet 0
  else
    m.allocRet size newPage
      (m.world.slab.allocPage (m.world.slab.plainEnter allocedPageSize) newPage size a)

/-- `alloc` of `simple.c` after the `pgalloc` of `new_plain_page`. -/
def allocPlainRet (v size newPage : Nat) (m : Machine) : Machine :=
  m.allocRet size newPage (Slab.allocPlain (m.world.slab.plainLeave v) newPage size)

/-- `kfree(obj)`. The sentinels are part of the kernel image and on no slab page. -/
def kfree (fuel : Nat) (obj : Link Nat) (m : Machine) : Option Machine :=
  match obj, m.world.active with
  | .null, _ => some (m.doRet 0)
  | _, .bootstrap => some (m.doRet 0)
  | .node o, .slab =>
    match m.world.slab.freeEnter fuel o with
    | none => none
    | some (.panic msg) => some (m.doPanic msg)
    | some (.kept slab) =>
      some ({ m with
        world := { m.world with slab := slab, live := m.world.live.erase o } }.doRet 0)
    | some (.emptied pa slab) =>
      some { m with
        world := { m.world with slab := slab, live := m.world.live.erase o }
        ctl := .call (.pgfree pa) }
  | _, .slab => some (m.doPanic "Free: Can't find object\n")

/-- The request of `pgalloc`. -/
def onePage : Pages := ⟨0, pageSize, 0⟩

/-- `pgalloc()`. -/
def pgalloc (fuel : Nat) (m : Machine) : Option Machine :=
  match m.world.pa.allocEnter fuel onePage with
  | none => none
  | some .reject => some (m.doRet addrError)
  | some (.carved pages pa) =>
    some ({ m with world := { m.world with pa := pa.allocLeave pages } }.doRet
      (premapAddr pages.paddr))
  | some (.emptied a pages pa) =>
    some ({ m with world := { m.world with pa := pa } }.doCall (.kfree a) (.pallocAlloc pages))

/-- `free` of `palloc.c` from its second merge on. -/
def mergeNext (a : Link Nat) (pages : Pages) (m : Machine) : Machine :=
  match m.world.pa.freeMerge a with
  | .kept => { m with world := { m.world with pa := m.world.pa.freeLeave pages } }.doRet 0
  | .merged i pa => { m with world := { m.world with pa := pa } }.doCall (.kfree i)
      (.pallocMergeNext pages)

/-- `free` of `palloc.c` after its `kmalloc`. -/
def pallocFreeRet (fuel v : Nat) (pages : Pages) (m : Machine) : Option Machine :=
  if v = 0 then some (m.doPanic "simple1 used up.\n")
  else
    match m.world.pa.freeLink fuel (.node v) pages with
    | none => none
    | some (.kept pa) => some ({ m with world := { m.world with pa := pa } }.mergeNext (.node v) pages)
    | some (.merged i pa) =>
      some ({ m with world := { m.world with pa := pa } }.doCall (.kfree (.node v))
        (.pallocMergePrev pages i))

/-- The loop head of `page_allocator_move`. -/
def moveLoop (now : Link Nat) (m : Machine) : Machine :=
  if now = .tail then m.doRet 0 else m.doCall (.kmalloc memBlockSize) (.move now)

/-- `page_allocator_move` after its `kmalloc`. The bootstrap allocator does not want
the old node back. -/
def moveRet (v : Nat) (now : Link Nat) (m : Machine) : Machine :=
  if v = 0 then m.doPanic "simple2 used up.\n"
  else
    let pa := m.world.pa.moveNode now (.node v)
    { m with world := { m.world with pa := pa } }.moveLoop (pa.mem (.node v)).next

/-- `simple_allocator_init` after its `new_plain_page`. -/
def initPlainRet (v : Nat) (m : Machine) : Machine :=
  let (page, slab) := Slab.newPlainPage v m.world.slab
  { m with
    world := { m.world with slab := { slab with nowPlainPage := page }, active := .slab } }.doRet 0

/-- A call starts. -/
def stepCall (fuel : Nat) (c : Call) (m : Machine) : Option Machine :=
  match c with
  | .kmalloc size => m.kmalloc fuel size
  | .kfree obj => m.kfree fuel obj
  | .pgalloc => m.pgalloc fuel
  | .pgfree paddr => some { m with ctl := .call (.freePages ⟨premapAddr paddr, pageSize, 0⟩) }
  | .freePages pages =>
    if Palloc.freeEnter pages then
      some (m.doCall (.kmalloc memBlockSize) (.pallocFree pages))
    else some (m.doRet 0)
  | .simpleAllocatorInit =>
    some ({ m with world := { m.world with slab := m.world.slab.initLinks } }.doCall .pgalloc
      .initPlain)
  | .pageAllocatorMove => some (m.moveLoop (m.world.pa.mem .head).next)

/-- What a client keeps of the result of its call. -/
def clientRet (v : Nat) (c : Call) (w : World) : World :=
  match c with
  | .kmalloc _ => if v = 0 then w else { w with objs := v :: w.objs }
  | .pgalloc => if v = addrError then w else { w with pages := v :: w.pages }
  | _ => w

/-- A call returns `v` to the frame `f`, which has been popped. -/
def stepRet (fuel v : Nat) (f : Frame) (m : Machine) : Option Machine :=
  match f with
  | .allocPage size a => some (m.allocPageRet v size a)
  | .allocPlain size newPage => some (m.allocPlainRet v size newPage)
  | .pallocAlloc pages =>
    some ({ m with world := { m.world with pa := m.world.pa.allocLeave pages } }.doRet
      (premapAddr pages.paddr))
  | .pallocFree pages => m.pallocFreeRet fuel v pages
  | .pallocMergePrev pages i => some (m.mergeNext i pages)
  | .pallocMergeNext pages =>
    some ({ m with world := { m.world with pa := m.world.pa.freeLeave pages } }.doRet 0)
  | .initPlain => some (m.initPlainRet v)
  | .move now => some (m.moveRet v now)
  | .boot [] => some { m with ctl := .idle }
  | .boot (c :: rest) => some (m.doCall c (.boot rest))
  | .client c => some { m with world := clientRet v c m.world, ctl := .idle }

/-- One step of the machine. There is none if it is idle or has panicked, and none
if a walk along a list needs more than `fuel` iterations. -/
def step (fuel : Nat) (m : Machine) : Option Machine :=
  match m.ctl with
  | .idle => none
  | .panic _ => none
  | .call c => m.stepCall fuel c
  | .ret v =>
    match m.stack with
    | [] => none
    | f :: stack => { m with stack := stack }.stepRet fuel v f

/-! ### Boot and clients -/

/-- `ALIGN_ABOVE(a, PAGE_SIZE)`. -/
def alignAbove (a : Nat) : Nat := (a + (pageSize - 1)) / pageSize * pageSize

/-- The pages that `init_free_pages` gives to the page allocator. -/
def initPages (kernEnd : Nat) : Pages :=
  ⟨alignAbove (kva2pa kernEnd), lowramTop - alignAbove (kva2pa kernEnd), gfpUnsafe⟩

/-- The start of `allocator_init`, after `simple_allocator_bootstrap` and
`page_allocator_init`, over whatever the static variables held before. -/
def allocatorInit (kernEnd simple1Start : Nat) (pa : Palloc) (slab : Slab) : Machine where
  world :=
    { pa := pa.pageAllocatorInit, slab := slab
      top := simple1Start, bottom := simple1Start, ssize := 0x8000
      active := .bootstrap, live := [], objs := [], pages := [] }
  ctl := .call (.kmalloc pagesSize)
  stack := [.boot [.freePages (initPages kernEnd), .simpleAllocatorInit, .pageAllocatorMove]]

/-- The calls a client may make: it frees only what it owns. -/
def Allowed (m : Machine) : Call → Prop
  | .kmalloc _ => True
  | .kfree (.node o) => o ∈ m.world.objs
  | .pgalloc => True
  | .pgfree paddr => paddr ∈ m.world.pages
  | _ => False

/-- A client makes a call; what it frees is no longer its own. -/
def begin (c : Call) (m : Machine) : Machine where
  world :=
    match c with
    | .kfree (.node o) => { m.world with objs := m.world.objs.erase o }
    | .pgfree paddr => { m.world with pages := m.world.pages.erase paddr }
    | _ => m.world
  ctl := .call c
  stack := [.client c]

/-- A step of the machine, or the start of a client's call. -/
inductive Step (m : Machine) : Machine → Prop
  | run {fuel : Nat} {m' : Machine} : m.step fuel = some m' → Step m m'
  | client {c : Call} : m.ctl = .idle → m.Allowed c → Step m (m.begin c)

/-- Free pages run out: `pgalloc` is about to fail. -/
def RunsOut (m : Machine) : Prop :=
  m.ctl = .call .pgalloc ∧ ∃ fuel, m.world.pa.allocEnter fuel onePage = some .reject

end Machine

end AimKernel
