import AimKernel.Lib.Regions
import AimKernel.Mm.PallocList
import Mathlib.Algebra.BigOperators.Group.List.Basic
import Mathlib.Algebra.Ring.Nat
import Mathlib.Logic.Relation

/-!
# AimKernel.Mm.PallocOwnership

The page allocator as an owner of memory, over whole runs.

Here `kmalloc` of a list node always succeeds with a node that is not in use, and
neither `kmalloc` nor `kfree` calls back into the page allocator. A `Ledger` adds
to the allocator's own state what a run has donated and what is outstanding; the
free list and the outstanding blocks always partition the donated memory
(`Ledger.Inv`).

The allocator keeps its blocks in address order with a gap between any two
(`Canon`), which is what makes first-fit and coalescing exact.
-/

namespace AimKernel

/-- The memory a block describes. -/
def Blk.region (b : Blk) : Region := ⟨b.paddr, b.size⟩

/-- The bytes on a list of blocks. -/
def freeBytes (bs : List Blk) : Set Nat := {x | Covered (bs.map Blk.region) x}

/-- A block of whole pages, below the end of the address space. -/
structure Blk.OK (b : Blk) : Prop where
  pos : 0 < b.size
  size_mul : b.size % pageSize = 0
  aligned : b.paddr % pageSize = 0
  bound : b.stop < 2 ^ 64

/-- Blocks in ascending order that neither overlap nor touch. -/
def Canon (bs : List Blk) : Prop := bs.Pairwise fun b c => b.stop < c.paddr

/-- The page allocator together with the list nodes it has `kmalloc`ed and not yet
`kfree`d. -/
structure PallocSys where
  pa : Palloc
  live : List Nat

namespace PallocSys

/-- `kmalloc(sizeof(struct mem_block), 0)` returning the node at `node`. -/
def kmalloc (node : Nat) (s : PallocSys) : PallocSys := { s with live := node :: s.live }

/-- `kfree` of a list node. -/
def kfree (a : Link Nat) (s : PallocSys) : PallocSys :=
  { s with live := s.live.filter fun n => .node n ≠ a }

/-- `alloc`. The result is the return value and the request as the function leaves
it. -/
def alloc (fuel : Nat) (pages : Pages) (s : PallocSys) : Option (Int × Pages × PallocSys) :=
  match s.pa.allocEnter fuel pages with
  | none => none
  | some .reject => some (-1, pages, s)
  | some (.carved pages' pa) => some (0, pages', { s with pa := pa.allocLeave pages' })
  | some (.emptied a pages' pa) =>
    let s := kfree a { s with pa := pa }
    some (0, pages', { s with pa := s.pa.allocLeave pages' })

/-- `free`, with `node` the answer of its `kmalloc`. -/
def free (fuel : Nat) (node : Nat) (pages : Pages) (s : PallocSys) : Option PallocSys :=
  if Palloc.freeEnter pages then
    let s := kmalloc node s
    match s.pa.freeLink fuel (.node node) pages with
    | none => none
    | some link =>
      let (a, s) : Link Nat × PallocSys :=
        match link with
        | .kept pa => (.node node, { s with pa := pa })
        | .merged i pa => (i, kfree (.node node) { s with pa := pa })
      let s :=
        match s.pa.freeMerge a with
        | .kept => s
        | .merged i pa => kfree i { s with pa := pa }
      some { s with pa := s.pa.freeLeave pages }
  else some s

end PallocSys

/-! ### Arithmetic of ordered block lists -/

variable {bs l r : List Blk} {b q : Blk}

/-- The bytes on a list in ascending order fit between the bounds of its blocks. -/
theorem sum_size_le (lo hi : Nat) (h : bs.Pairwise fun b c => b.stop ≤ c.paddr) (hlo : lo ≤ hi)
    (hall : ∀ b ∈ bs, lo ≤ b.paddr ∧ b.stop ≤ hi) :
    lo + (bs.map Blk.size).sum ≤ hi := by
  induction bs generalizing lo with
  | nil => simpa using hlo
  | cons b bs ih =>
    obtain ⟨hb, hbs⟩ := List.pairwise_cons.mp h
    have hbb := hall b (by simp)
    have hstop : b.stop = b.paddr + b.size := rfl
    have := ih b.stop hbs (by omega) (fun c hc => ⟨hb c hc, (hall c (by simp [hc])).2⟩)
    simp only [List.map_cons, List.sum_cons]
    omega

theorem canon_sum_lt (h : Canon bs) (hok : ∀ b ∈ bs, b.OK) :
    (bs.map Blk.size).sum < 2 ^ 64 := by
  have := sum_size_le 0 (2 ^ 64 - 1) (h.imp fun hlt => le_of_lt hlt) (by omega)
    (fun b hb => ⟨Nat.zero_le _, by have := (hok b hb).bound; omega⟩)
  omega

theorem Blk.stop_cut {n : Nat} (h : n ≤ b.size) :
    ({ b with paddr := b.paddr + n, size := b.size - n } : Blk).stop = b.stop := by
  unfold Blk.stop
  dsimp only
  omega

/-- A block of whole pages keeps its shape without the first ones. -/
theorem Blk.OK.cut {n : Nat} (h : b.OK) (hn : n % pageSize = 0) (hlt : n < b.size) :
    ({ b with paddr := b.paddr + n, size := b.size - n } : Blk).OK where
  pos := Nat.sub_pos_of_lt hlt
  size_mul := by
    have := h.size_mul
    dsimp only
    unfold pageSize at *
    omega
  aligned := by
    have := h.aligned
    dsimp only
    unfold pageSize at *
    omega
  bound := by
    rw [Blk.stop_cut (le_of_lt hlt)]
    exact h.bound

/-- Replacing a block by a smaller one inside it. -/
theorem canon_shrink {b' : Blk} (h : Canon (l ++ b :: r)) (hlo : b.paddr ≤ b'.paddr)
    (hhi : b'.stop ≤ b.stop) : Canon (l ++ b' :: r) := by
  obtain ⟨hrest, hl, hr⟩ := pairwise_middle.mp h
  refine pairwise_middle.mpr ⟨hrest, fun c hc => ?_, fun c hc => ?_⟩
  · exact lt_of_lt_of_le (hl c hc) hlo
  · exact lt_of_le_of_lt hhi (hr c hc)

theorem canon_drop (h : Canon (l ++ b :: r)) : Canon (l ++ r) :=
  (pairwise_middle.mp h).1

/-- On a list in ascending order, a bound below the first block is below every block. -/
theorem le_paddr_of_head {v : Nat} (h : bs.Pairwise fun b c => b.stop ≤ c.paddr)
    (hhead : ∀ c ∈ bs.head?, v ≤ c.paddr) : ∀ c ∈ bs, v ≤ c.paddr := by
  cases bs with
  | nil => simp
  | cons n bs =>
    have hn := hhead n (by simp)
    refine List.forall_mem_cons.mpr ⟨hn, fun c hc => ?_⟩
    have hnc := (List.pairwise_cons.mp h).1 c hc
    unfold Blk.stop at hnc
    omega

theorem Canon.ascending_right (h : Canon (l ++ r)) : r.Pairwise fun b c => b.stop ≤ c.paddr :=
  (List.pairwise_append.mp h).2.1.imp le_of_lt

/-- The list is in order around the block `b`, which may still touch the block
after it: the state between the two merges of `free`. -/
structure CanonAt (l : List Blk) (b : Blk) (r : List Blk) : Prop where
  rest : Canon (l ++ r)
  left : ∀ c ∈ l, c.stop < b.paddr
  right : ∀ c ∈ r, b.stop ≤ c.paddr

/-- If the next block does not touch, the list is in order. -/
theorem CanonAt.canon (h : CanonAt l b r) (hr : ∀ n ∈ r.head?, b.stop ≠ n.paddr)
    : Canon (l ++ b :: r) := by
  refine pairwise_middle.mpr ⟨h.rest, h.left, ?_⟩
  refine le_paddr_of_head h.rest.ascending_right fun n hn => ?_
  have h1 := h.right n (List.mem_of_mem_head? hn)
  have h2 := hr n hn
  omega

/-- A block that takes over the one it touches ends where that one did. -/
theorem Blk.stop_merge {n : Blk} (htouch : b.stop = n.paddr) :
    ({ b with size := b.size + n.size } : Blk).stop = n.stop := by
  unfold Blk.stop at *
  dsimp only
  omega

theorem Blk.OK.merge {n : Blk} (hb : b.OK) (hn : n.OK) (htouch : b.stop = n.paddr) :
    ({ b with size := b.size + n.size } : Blk).OK where
  pos := Nat.add_pos_left hb.pos n.size
  size_mul := by
    have h1 := hb.size_mul
    have h2 := hn.size_mul
    dsimp only
    unfold pageSize at *
    omega
  aligned := hb.aligned
  bound := by
    rw [Blk.stop_merge htouch]
    exact hn.bound

/-- If the next block touches, swallowing it leaves the list in order. -/
theorem CanonAt.canon_merge {n : Blk} (h : CanonAt l b (n :: r)) (htouch : b.stop = n.paddr)
    : Canon (l ++ { b with size := b.size + n.size } :: r) := by
  obtain ⟨hrest, -, hn⟩ := pairwise_middle.mp h.rest
  refine pairwise_middle.mpr ⟨hrest, h.left, fun c hc => ?_⟩
  rw [Blk.stop_merge htouch]
  exact hn c hc

/-- A block that overlaps nothing and starts at or below the first block ends below all. -/
theorem le_paddr_of_disjoint (h : bs.Pairwise fun b c => b.stop ≤ c.paddr)
    (hdisj : ∀ c ∈ bs, q.stop ≤ c.paddr ∨ c.stop ≤ q.paddr)
    (hhead : ∀ c ∈ bs.head?, q.paddr ≤ c.paddr) (hok : ∀ c ∈ bs, 0 < c.size) :
    ∀ c ∈ bs, q.stop ≤ c.paddr := by
  refine le_paddr_of_head h fun n hn => ?_
  have hmem := List.mem_of_mem_head? hn
  have h1 := hdisj n hmem
  have h2 := hhead n hn
  have h3 := hok n hmem
  unfold Blk.stop at *
  omega

/-- Putting a block that overlaps nothing at the place its address asks for, in
front of which no block touches it. -/
theorem canonAt_insert (h : Canon (l ++ r))
    (hdisj : ∀ c ∈ l ++ r, q.stop ≤ c.paddr ∨ c.stop ≤ q.paddr) (hl : ∀ c ∈ l, c.paddr < q.paddr)
    (hr : ∀ c ∈ r.head?, q.paddr ≤ c.paddr) (hq : 0 < q.size) (hok : ∀ c ∈ l ++ r, 0 < c.size)
    (hlast : ∀ p ∈ l.getLast?, p.stop ≠ q.paddr) : CanonAt l q r := by
  have hqs : q.stop = q.paddr + q.size := rfl
  refine ⟨h, ?_, le_paddr_of_disjoint h.ascending_right (fun c hc => hdisj c (by simp [hc])) hr
    fun c hc => hok c (by simp [hc])⟩
  rcases List.eq_nil_or_concat l with rfl | ⟨l', p, rfl⟩
  · simp
  · rw [List.concat_eq_append] at *
    have hp : p.stop < q.paddr := by
      have h1 := hdisj p (by simp)
      have h2 := hl p (by simp)
      have h3 := hlast p (by simp)
      omega
    intro c hc
    rcases List.mem_append.mp hc with hc | hc
    · have h1 := (List.pairwise_append.mp (List.pairwise_append.mp h).1).2.2 c hc p (by simp)
      have hps : p.stop = p.paddr + p.size := rfl
      omega
    · obtain rfl := List.mem_singleton.mp hc
      exact hp

/-- The predecessor takes over a block that starts where it ends. -/
theorem canonAt_extend {p : Blk} (h : Canon (l ++ p :: r))
    (hdisj : ∀ c ∈ l ++ p :: r, q.stop ≤ c.paddr ∨ c.stop ≤ q.paddr)
    (hr : ∀ c ∈ r.head?, q.paddr ≤ c.paddr) (hok : ∀ c ∈ l ++ p :: r, 0 < c.size)
    (htouch : p.stop = q.paddr) :
    CanonAt l { p with size := p.size + q.size } r := by
  obtain ⟨hrest, hlp, -⟩ := pairwise_middle.mp h
  refine ⟨hrest, hlp, ?_⟩
  rw [Blk.stop_merge htouch]
  exact le_paddr_of_disjoint (canon_drop h).ascending_right (fun c hc => hdisj c (by simp [hc])) hr
    fun c hc => hok c (by simp [hc])

/-! ### `alloc` and `free` as a whole -/

/-- The allocator's own invariant: its list holds `bs`, in order, and its
accounting is exact. -/
structure PallocSys.Inv (s : PallocSys) (bs : List Blk) : Prop where
  rep : s.pa.Rep bs
  ok : ∀ b ∈ bs, b.OK
  canon : Canon bs
  live : ∀ n, n ∈ s.live ↔ n ∈ bs.map Blk.node
  free : s.pa.freeSize = (bs.map Blk.size).sum

namespace PallocSys

variable {s s' : PallocSys} {bs l r : List Blk} {m n node : Nat} {b : Blk} {pages : Pages}
  {pa : Palloc}

theorem Inv.bounds (h : s.Inv bs) :
    ∀ b ∈ bs, b.paddr + b.size < 2 ^ 64 :=
  fun b hb => (h.ok b hb).bound

/-- Removing the node of an unlinked block from the live nodes. -/
theorem mem_kfree {a : Nat} :
    n ∈ (kfree (.node a) s).live ↔ n ∈ s.live ∧ n ≠ a := by
  simp [kfree]

theorem nodes_middle (n : Nat) :
    n ∈ (l ++ b :: r).map Blk.node ↔ n = b.node ∨ n ∈ (l ++ r).map Blk.node := by
  rw [List.map_append, List.map_cons, mem_middle, List.map_append]

/-- The nodes that are left when a block leaves the list. -/
theorem nodes_drop (hnd : ((l ++ b :: r).map Blk.node).Nodup) (n : Nat) :
    n ∈ (l ++ r).map Blk.node ↔ n ∈ (l ++ b :: r).map Blk.node ∧ n ≠ b.node := by
  rw [List.map_append, List.map_cons, List.nodup_middle, List.nodup_cons, ← List.map_append] at hnd
  rw [nodes_middle]
  constructor
  · intro hn
    refine ⟨.inr hn, ?_⟩
    rintro rfl
    exact hnd.1 hn
  · rintro ⟨hn, hne⟩
    exact hn.resolve_left hne

/-- The total size and the regions, with the block in the middle brought to the front. -/
theorem sum_middle : ((l ++ b :: r).map Blk.size).sum = b.size + ((l ++ r).map Blk.size).sum := by
  simp only [List.map_append, List.map_cons, List.sum_append, List.sum_cons]
  omega

theorem regions_middle (rs : List Region) : ((l ++ b :: r).map Blk.region ++ rs).Perm
    (b.region :: ((l ++ r).map Blk.region ++ rs)) := by
  simp only [List.map_append, List.map_cons, List.append_assoc, List.cons_append]
  exact List.perm_middle

/-- What `alloc` does: it rejects the request and changes nothing, or it hands out
the first pages of the first block that is large enough. -/
inductive AllocSpec (s : PallocSys) (bs : List Blk) (pages : Pages) :
    Int × Pages × PallocSys → Prop
  | reject : AllocSpec s bs pages (-1, pages, s)
  | accept {l r : List Blk} {b : Blk} {s' : PallocSys} {bs' : List Blk} :
      bs = l ++ b :: r → pages.size % pageSize = 0 → (∀ c ∈ l, c.size < pages.size) →
      pages.size ≤ b.size → s'.Inv bs' →
      (∀ rs S, Partition (bs.map Blk.region ++ rs) S →
        Partition (bs'.map Blk.region ++ ⟨b.paddr, pages.size⟩ :: rs) S) →
      AllocSpec s bs pages (0, { pages with paddr := b.paddr }, s')

theorem alloc_spec (h : s.Inv bs) (fuel : Nat) (hpos : 0 < pages.size) (hf : bs.length < fuel) :
    ∃ res, s.alloc fuel pages = some res ∧ AllocSpec s bs pages res := by
  obtain ⟨step, hstep, hres⟩ := Palloc.allocEnter_spec pages h.rep hf h.bounds
  unfold alloc
  rw [hstep]
  have hlt64 : s.pa.freeSize < 2 ^ 64 := by
    rw [h.free]
    exact canon_sum_lt h.canon h.ok
  have hfree' := h.free
  cases hres with
  | reject _ => exact ⟨_, rfl, .reject⟩
  | @carved l r b pa hbs hmul hfree hl hlt hrep hfs =>
    subst hbs
    have hinv : ({ s with pa := pa.allocLeave { pages with paddr := b.paddr } } : PallocSys).Inv
        (l ++ { b with paddr := b.paddr + pages.size, size := b.size - pages.size } :: r) := by
      refine ⟨hrep.freeSize _, forall_mem_replace h.ok ((h.ok b (by simp)).cut hmul hlt), ?_, ?_, ?_⟩
      · exact canon_shrink h.canon (Nat.le_add_right _ _) (le_of_eq (Blk.stop_cut (le_of_lt hlt)))
      · intro n
        rw [h.live n, nodes_middle, nodes_middle]
      · show sub64 pa.freeSize pages.size = _
        rw [hfs, sub64_eq hfree hlt64, hfree', sum_middle, sum_middle]
        dsimp only
        omega
    refine ⟨_, rfl, .accept rfl hmul hl (le_of_lt hlt) hinv ?_⟩
    intro rs S hp
    refine ((hp.perm (regions_middle rs)).cut (n := pages.size) hpos hlt).perm ?_
    refine (List.Perm.swap _ _ _).trans ?_
    exact (List.perm_middle.symm.cons _).trans (.symm (regions_middle _))
  | @emptied l r b pa hbs hmul hfree hl heq hrep hfs =>
    subst hbs
    have hinv : ({ kfree (.node b.node) { s with pa := pa } with
        pa := pa.allocLeave { pages with paddr := b.paddr } } : PallocSys).Inv (l ++ r) := by
      refine ⟨hrep.freeSize _, fun c hc => h.ok c (mem_of_mem_rest hc), canon_drop h.canon, ?_, ?_⟩
      · intro n
        show n ∈ (kfree (.node b.node) { s with pa := pa }).live ↔ _
        rw [mem_kfree, nodes_drop h.rep.nodup, h.live n]
      · show sub64 pa.freeSize pages.size = _
        rw [hfs, sub64_eq hfree hlt64, hfree', heq, sum_middle]
        omega
    refine ⟨_, rfl, .accept rfl hmul hl (le_of_eq heq) hinv ?_⟩
    intro rs S hp
    rw [heq]
    exact hp.perm ((regions_middle rs).trans List.perm_middle.symm)

/-- The state of `free` between its two merges: the freed pages are part of the
block `b`, and `free_size` does not count them yet. -/
structure Mid (s : PallocSys) (l : List Blk) (b : Blk) (r : List Blk) (pages : Pages) : Prop where
  rep : s.pa.Rep (l ++ b :: r)
  ok : ∀ c ∈ l ++ b :: r, c.OK
  canon : CanonAt l b r
  live : ∀ n, n ∈ s.live ↔ n ∈ (l ++ b :: r).map Blk.node
  free : s.pa.freeSize + pages.size = ((l ++ b :: r).map Blk.size).sum

/-- The second merge and the accounting restore the invariant. -/
theorem Mid.finish (h : Mid s l b r pages) (hs' : s' = match s.pa.freeMerge (.node b.node) with
      | .kept => s
      | .merged i pa => kfree i { s with pa := pa }) :
    ∃ bs', ({ s' with pa := s'.pa.freeLeave pages } : PallocSys).Inv bs' ∧
      ∀ rs S, Partition ((l ++ b :: r).map Blk.region ++ rs) S →
        Partition (bs'.map Blk.region ++ rs) S := by
  have hspec := Palloc.freeMerge_spec h.rep (fun c hc => (h.ok c hc).bound)
  generalize hm : s.pa.freeMerge (.node b.node) = step at hspec hs'
  cases hspec with
  | kept hr =>
    subst hs'
    have hcanon := h.canon.canon hr
    refine ⟨l ++ b :: r, ⟨h.rep.freeSize _, h.ok, hcanon, h.live, ?_⟩, fun _ _ hp => hp⟩
    show add64 s'.pa.freeSize pages.size = _
    rw [add64_eq (by rw [h.free]; exact canon_sum_lt hcanon h.ok), h.free]
  | @merged n r' pa hr htouch hrep hfs =>
    subst hr hs'
    have hcanon := h.canon.canon_merge htouch
    have hok : ∀ c ∈ l ++ { b with size := b.size + n.size } :: r', c.OK :=
      forall_mem_insert (fun c hc => h.ok c (mem_of_mem_rest (mem_of_mem_rest hc)))
        ((h.ok b (by simp)).merge (h.ok n (by simp)) htouch)
    have hsum : ((l ++ { b with size := b.size + n.size } :: r').map Blk.size).sum =
        ((l ++ b :: n :: r').map Blk.size).sum := by
      rw [sum_middle, sum_middle, sum_middle, Nat.add_assoc]
    refine ⟨l ++ { b with size := b.size + n.size } :: r', ⟨hrep.freeSize _, hok, hcanon, ?_, ?_⟩, ?_⟩
    · intro m
      have hnd := h.rep.nodup
      rw [show l ++ b :: n :: r' = (l ++ [b]) ++ n :: r' by simp] at hnd
      have hdrop := nodes_drop hnd m
      rw [mem_kfree, h.live m]
      rw [show l ++ b :: n :: r' = (l ++ [b]) ++ n :: r' by simp, ← hdrop]
      simp
    · show add64 pa.freeSize pages.size = _
      rw [hfs, add64_eq (by rw [h.free, ← hsum]; exact canon_sum_lt hcanon hok), h.free, hsum]
    · intro rs S hp
      have hp' := hp.perm ((regions_middle rs).trans ((regions_middle rs).cons _))
      exact (hp'.join htouch).perm (.symm (regions_middle rs))

/-- The freed block is linked as a block of its own. -/
theorem Inv.mid_kept (h : s.Inv (l ++ r)) (hblk : Blk.OK ⟨node, pages.paddr, pages.size⟩)
    (hdisj : ∀ c ∈ l ++ r, pages.paddr + pages.size ≤ c.paddr ∨ c.stop ≤ pages.paddr)
    (hl : ∀ c ∈ l, c.paddr < pages.paddr) (hr : ∀ c ∈ r.head?, pages.paddr ≤ c.paddr)
    (hlast : ∀ p ∈ l.getLast?, p.stop ≠ pages.paddr)
    (hrep : pa.Rep (l ++ ⟨node, pages.paddr, pages.size⟩ :: r))
    (hfs : pa.freeSize = s.pa.freeSize) :
    Mid { pa := pa, live := node :: s.live } l ⟨node, pages.paddr, pages.size⟩ r pages := by
  refine ⟨hrep, forall_mem_insert h.ok hblk, ?_, ?_, ?_⟩
  · exact canonAt_insert h.canon hdisj hl hr hblk.pos (fun c hc => (h.ok c hc).pos) hlast
  · intro n
    rw [List.mem_cons, h.live n, nodes_middle]
  · have := h.free
    rw [sum_middle]
    dsimp only
    omega

/-- The block before the freed one takes it over, and its node goes back. -/
theorem Inv.mid_merged {p : Blk} (h : s.Inv (l ++ p :: r))
    (hblk : Blk.OK ⟨node, pages.paddr, pages.size⟩)
    (hdisj : ∀ c ∈ l ++ p :: r, pages.paddr + pages.size ≤ c.paddr ∨ c.stop ≤ pages.paddr)
    (hfresh : node ∉ s.live) (hr : ∀ c ∈ r.head?, pages.paddr ≤ c.paddr)
    (htouch : p.stop = pages.paddr)
    (hrep : pa.Rep (l ++ { p with size := p.size + pages.size } :: r))
    (hfs : pa.freeSize = s.pa.freeSize) :
    Mid (kfree (.node node) { pa := pa, live := node :: s.live }) l
      { p with size := p.size + pages.size } r pages := by
  refine ⟨hrep, forall_mem_replace h.ok ((h.ok p (by simp)).merge hblk htouch), ?_, ?_, ?_⟩
  · exact canonAt_extend (q := ⟨node, pages.paddr, pages.size⟩) h.canon hdisj hr
      (fun c hc => (h.ok c hc).pos) htouch
  · intro n
    rw [mem_kfree, nodes_middle]
    dsimp only
    rw [← nodes_middle, ← h.live n, List.mem_cons]
    constructor
    · rintro ⟨rfl | hn, hne⟩
      · exact absurd rfl hne
      · exact hn
    · intro hn
      refine ⟨Or.inr hn, ?_⟩
      rintro rfl
      exact hfresh hn
  · have := h.free
    rw [sum_middle] at this ⊢
    show pa.freeSize + pages.size = _
    dsimp only
    omega

/-- **`free` as a whole.** A block of whole pages that overlaps nothing on the list
is put on the list; the free memory grows by exactly this block. -/
theorem free_spec (h : s.Inv bs) (fuel : Nat) (hpos : 0 < pages.size)
    (hmul : pages.size % pageSize = 0) (halign : pages.paddr % pageSize = 0)
    (hbound : pages.paddr + pages.size < 2 ^ 64)
    (hdisj : ∀ c ∈ bs, pages.paddr + pages.size ≤ c.paddr ∨ c.stop ≤ pages.paddr)
    (hfresh : node ∉ s.live) (hf : bs.length < fuel) :
    ∃ s' bs', s.free fuel node pages = some s' ∧ s'.Inv bs' ∧
      ∀ rs S, Partition (⟨pages.paddr, pages.size⟩ :: (bs.map Blk.region ++ rs)) S →
        Partition (bs'.map Blk.region ++ rs) S := by
  have hnew : ∀ c ∈ bs, c.node ≠ node := by
    rintro c hc rfl
    exact hfresh ((h.live _).mpr (List.mem_map.mpr ⟨c, hc, rfl⟩))
  have hblk : Blk.OK ⟨node, pages.paddr, pages.size⟩ := ⟨hpos, hmul, halign, hbound⟩
  obtain ⟨step, hstep, hres⟩ := Palloc.freeLink_spec h.rep hf hnew hbound h.bounds
  have henter : Palloc.freeEnter pages = true := by simp [Palloc.freeEnter, hmul]
  unfold free
  rw [if_pos henter]
  simp only [kmalloc, hstep]
  cases hres with
  | @kept l r pa hbs hl hr hlast hrep hfs =>
    subst hbs
    have hmid := h.mid_kept hblk hdisj hl hr hlast hrep hfs
    obtain ⟨bs', hinv, hpart⟩ := hmid.finish rfl
    refine ⟨_, bs', rfl, hinv, ?_⟩
    intro rs S hp
    exact hpart rs S (hp.perm (.symm (regions_middle rs)))
  | @merged l r p pa hbs hl hr htouch hrep hfs =>
    subst hbs
    have hmid := h.mid_merged hblk hdisj hfresh hr htouch hrep hfs
    obtain ⟨bs', hinv, hpart⟩ := hmid.finish rfl
    refine ⟨_, bs', rfl, hinv, ?_⟩
    intro rs S hq
    have hq' := hq.perm (((regions_middle rs).cons _).trans (List.Perm.swap _ _ _))
    exact hpart rs S ((hq'.join htouch).perm (.symm (regions_middle rs)))

theorem alloc_mono {res : Int × Pages × PallocSys} (h : s.alloc n pages = some res) (hnm : n ≤ m)
    : s.alloc m pages = some res := by
  unfold alloc at h ⊢
  cases hstep : s.pa.allocEnter n pages with
  | none => rw [hstep] at h; exact absurd h (by simp)
  | some step =>
    rw [hstep] at h
    rw [Palloc.allocEnter_mono hstep hnm]
    exact h

theorem free_mono (h : s.free n node pages = some s') (hnm : n ≤ m)
    : s.free m node pages = some s' := by
  unfold free at h ⊢
  by_cases henter : Palloc.freeEnter pages = true
  · rw [if_pos henter] at h ⊢
    dsimp only at h ⊢
    cases hstep : (kmalloc node s).pa.freeLink n (.node node) pages with
    | none => rw [hstep] at h; exact absurd h (by simp)
    | some step =>
      rw [hstep] at h
      rw [Palloc.freeLink_mono hstep hnm]
      exact h
  · rw [if_neg henter] at h ⊢
    exact h

/-- A call that returned did what `alloc_spec` says, whatever its fuel. -/
theorem Inv.alloc_run (h : s.Inv bs) {fuel : Nat} {res : Int × Pages × PallocSys}
    (hpos : 0 < pages.size) (hrun : s.alloc fuel pages = some res) : AllocSpec s bs pages res := by
  obtain ⟨res', hres, hspec⟩ := alloc_spec h (fuel + bs.length + 1) hpos (by omega)
  obtain rfl := Option.some.inj ((alloc_mono hrun (by omega)).symm.trans hres)
  exact hspec

end PallocSys

/-! ### Runs -/

/-- A run of the page allocator: its state, the regions donated so far, and the
blocks that are handed out and not given back. -/
structure Ledger where
  sys : PallocSys
  donated : List Region
  outstanding : List Region

namespace Ledger

/-- After `page_allocator_init`, over whatever the sentinels held before. -/
def start (pa : Palloc) : Ledger :=
  { sys := { pa := pa.pageAllocatorInit, live := [] }, donated := [], outstanding := [] }

/-- The region a request describes. -/
def region (pages : Pages) : Region := ⟨pages.paddr, pages.size⟩

/-- A block `free` may be passed: page-aligned, of a positive number of whole
pages, and ending below `2 ^ 64`. -/
structure WholePages (pages : Pages) : Prop where
  pos : 0 < pages.size
  size_mul : pages.size % pageSize = 0
  aligned : pages.paddr % pageSize = 0
  bound : pages.paddr + pages.size < 2 ^ 64

/-- `free` of (part of) an outstanding block. -/
inductive GiveBack (led : Ledger) (pages : Pages) : Ledger → Prop
  | mk {fuel node : Nat} {sys' : PallocSys} {l r : List Region} {o : Region} :
      WholePages pages → led.outstanding = l ++ o :: r →
      o.base ≤ pages.paddr → pages.paddr + pages.size ≤ o.stop →
      node ∉ led.sys.live → led.sys.free fuel node pages = some sys' →
      GiveBack led pages
        { led with sys := sys', outstanding := l ++ o.minus (region pages) ++ r }

/-- One call of `alloc` or `free`. -/
inductive Step (led : Ledger) : Ledger → Prop
  /-- `alloc` of any positive size, whatever it returns. -/
  | alloc {fuel : Nat} {pages pages' : Pages} {ret : Int} {sys' : PallocSys} :
      0 < pages.size → led.sys.alloc fuel pages = some (ret, pages', sys') →
      Step led { led with
        sys := sys'
        outstanding :=
          if ret = 0 then region pages' :: led.outstanding else led.outstanding }
  /-- `free` of memory that was never donated before. -/
  | donate {fuel node : Nat} {pages : Pages} {sys' : PallocSys} :
      WholePages pages → (∀ d ∈ led.donated, Disjoint (region pages).bytes d.bytes) →
      node ∉ led.sys.live → led.sys.free fuel node pages = some sys' →
      Step led { led with sys := sys', donated := region pages :: led.donated }
  /-- `free` of (part of) an outstanding block. -/
  | giveBack {pages : Pages} {led' : Ledger} : GiveBack led pages led' → Step led led'

/-- The invariant of a run: the allocator's own, and the free blocks and the
outstanding ones partition the donated memory. -/
structure Inv (led : Ledger) (bs : List Blk) : Prop where
  sys : led.sys.Inv bs
  part : Partition (bs.map Blk.region ++ led.outstanding) {x | Covered led.donated x}

variable {led : Ledger} {bs : List Blk} {o q : Region}

/-- A call of `free` that returned did what `free_spec` says, whatever its fuel. -/
theorem WholePages.free_run {s s' : PallocSys} {fuel node : Nat} {pages : Pages}
    (hw : WholePages pages) (h : s.Inv bs)
    (hdisj : ∀ c ∈ bs, pages.paddr + pages.size ≤ c.paddr ∨ c.stop ≤ pages.paddr)
    (hfresh : node ∉ s.live) (hrun : s.free fuel node pages = some s') :
    ∃ bs', s'.Inv bs' ∧
      ∀ rs S, Partition (⟨pages.paddr, pages.size⟩ :: (bs.map Blk.region ++ rs)) S →
        Partition (bs'.map Blk.region ++ rs) S := by
  obtain ⟨s₁, bs', hs', hinv, hpart⟩ := PallocSys.free_spec h (fuel + bs.length + 1)
    hw.pos hw.size_mul hw.aligned hw.bound hdisj hfresh (by omega)
  obtain rfl := Option.some.inj ((PallocSys.free_mono hrun (by omega)).symm.trans hs')
  exact ⟨bs', hinv, hpart⟩

theorem start_inv (pa : Palloc) : (start pa).Inv [] := by
  refine ⟨⟨Palloc.pageAllocatorInit_rep pa, by simp, List.Pairwise.nil, by simp [start], rfl⟩, ?_⟩
  have hempty : {x | Covered (start pa).donated x} = ∅ := by
    ext x
    simp [start]
  rw [hempty]
  exact Partition.nil

/-- A block inside donated memory that is not on the free list overlaps no free
block. -/
theorem Inv.disjoint_free (h : led.Inv bs) (ho : o ∈ led.outstanding) (hlo : o.base ≤ q.base)
    (hhi : q.stop ≤ o.stop) :
    ∀ c ∈ bs, q.stop ≤ c.paddr ∨ c.stop ≤ q.base := by
  intro c hc
  have hpw := (List.pairwise_append.mp h.part.disjoint).2.2 c.region
    (List.mem_map.mpr ⟨c, hc, rfl⟩) o ho
  have hd := (Region.disjoint_iff (h.sys.ok c hc).pos (h.part.pos o (by simp [ho]))).mp hpw
  have h1 : c.region.stop = c.stop := rfl
  have h2 : c.region.base = c.paddr := rfl
  omega

theorem Inv.disjoint_new (h : led.Inv bs) (hq : 0 < q.len)
    (hnew : Disjoint q.bytes {x | Covered led.donated x}) :
    ∀ c ∈ bs, q.stop ≤ c.paddr ∨ c.stop ≤ q.base := by
  intro c hc
  refine (Region.disjoint_iff (b := c.region) hq (h.sys.ok c hc).pos).mp (hnew.mono_right ?_)
  intro x hx
  exact (h.part.covers x).mp ⟨c.region, by simp [List.mem_map]; exact Or.inl ⟨c, hc, rfl⟩, hx⟩

/-- Disjoint from each donated region is disjoint from the donated memory. -/
theorem disjoint_donated (h : ∀ d ∈ led.donated, Disjoint q.bytes d.bytes) :
    Disjoint q.bytes {x | Covered led.donated x} := by
  rw [Set.disjoint_left]
  rintro x hx ⟨d, hd, hxd⟩
  exact Set.disjoint_left.mp (h d hd) hx hxd

/-- Giving back part of an outstanding block: the free memory grows by exactly this
part. -/
theorem GiveBack.inv {pages : Pages} {led' : Ledger} (hstep : GiveBack led pages led')
    (h : led.Inv bs) :
    ∃ bs', led'.Inv bs' ∧ ∀ x, Covered (bs'.map Blk.region) x ↔
      x ∈ (region pages).bytes ∨ Covered (bs.map Blk.region) x := by
  cases hstep with
  | @mk fuel node sys' l r o hw hout hlo hhi hfresh hrun =>
    have hfree := h.disjoint_free (q := region pages) (o := o) (by simp [hout]) hlo hhi
    obtain ⟨bs', hinv, hpart⟩ := hw.free_run h.sys hfree hfresh hrun
    -- the outstanding block falls apart into the pages given back and the rest
    have hp : Partition (o :: (bs.map Blk.region ++ (l ++ r))) {x | Covered led.donated x} := by
      refine h.part.perm ?_
      rw [hout, ← List.append_assoc, ← List.append_assoc]
      exact List.perm_middle
    have hcarved := hp.carve (p := region pages) hw.pos hlo hhi
    refine ⟨bs', ⟨hinv, hpart _ _ (hcarved.perm (List.Perm.cons _ ?_))⟩, fun x => ?_⟩
    · rw [← List.append_assoc, List.append_assoc l, ← List.append_assoc,
        ← List.append_assoc (bs.map Blk.region)]
      have hcomm : (o.minus (region pages) ++ (bs.map Blk.region ++ l)).Perm
          (bs.map Blk.region ++ l ++ o.minus (region pages)) := List.perm_append_comm
      have := hcomm.append_right r
      simpa [List.append_assoc] using this
    · have hsub : (bs.map Blk.region).Sublist
          (o.minus (region pages) ++ (bs.map Blk.region ++ (l ++ r))) :=
        (List.sublist_append_left _ _).trans (List.sublist_append_right _ _)
      have hgrown := hpart [] _ (by
        rw [List.append_nil]
        exact hcarved.sublist (hsub.cons_cons (region pages)))
      rw [List.append_nil] at hgrown
      rw [hgrown.covers x]
      exact covered_cons

/-- **One call keeps the books.** -/
theorem Step.inv {led' : Ledger} (hstep : Step led led') (h : led.Inv bs) :
    ∃ bs', led'.Inv bs' := by
  cases hstep with
  | @alloc fuel pages pages' ret sys' hpos hrun =>
    cases h.sys.alloc_run hpos hrun with
    | reject => exact ⟨bs, h.sys, by simpa using h.part⟩
    | @accept l r b s' bs' _ _ _ _ hinv hpart =>
      refine ⟨bs', hinv, ?_⟩
      exact hpart led.outstanding _ h.part
  | @donate fuel node pages sys' hw hnew hfresh hrun =>
    have hdis := disjoint_donated hnew
    have hfree := h.disjoint_new (q := region pages) hw.pos hdis
    obtain ⟨bs', hinv, hpart⟩ := hw.free_run h.sys hfree hfresh hrun
    refine ⟨bs', hinv, ?_⟩
    have hset : {x | Covered (region pages :: led.donated) x} =
        (region pages).bytes ∪ {x | Covered led.donated x} := by
      ext x
      simp
    rw [hset]
    exact hpart led.outstanding _ (h.part.add hw.pos hdis)
  | giveBack hfree =>
    obtain ⟨bs', hinv, -⟩ := hfree.inv h
    exact ⟨bs', hinv⟩

theorem run_inv {pa : Palloc} (h : Relation.ReflTransGen Step (start pa) led) :
    ∃ bs, led.Inv bs := by
  induction h with
  | refl => exact ⟨[], start_inv pa⟩
  | tail _ hstep ih =>
    obtain ⟨bs, hbs⟩ := ih
    exact hstep.inv hbs

/-- **Ownership.** After any run of `alloc` and `free` from `page_allocator_init`,
the free list `bs` and the outstanding blocks are disjoint and together make up the
donated memory, and `free_size` counts the bytes on the list. Every call returns;
what `alloc` hands out was wholly free and is page-aligned. -/
theorem palloc_ownership {pa : Palloc} {led : Ledger}
    (hrun : Relation.ReflTransGen Step (start pa) led) :
    ∃ bs, led.sys.pa.Rep bs ∧
      (∀ x, Covered (bs.map Blk.region) x ∨ Covered led.outstanding x ↔ Covered led.donated x) ∧
      (bs.map Blk.region ++ led.outstanding).Pairwise (fun a b => Disjoint a.bytes b.bytes) ∧
      led.sys.pa.getFree = (bs.map Blk.size).sum ∧ (bs.map Blk.size).sum < 2 ^ 64 ∧
      (∀ pages, 0 < pages.size → ∃ fuel, (led.sys.alloc fuel pages).isSome) ∧
      (∀ fuel pages pages' sys', 0 < pages.size →
        led.sys.alloc fuel pages = some (0, pages', sys') →
        pages'.size = pages.size ∧ pages'.paddr % pageSize = 0 ∧
          ∀ x ∈ (region pages').bytes, Covered (bs.map Blk.region) x) ∧
      (∀ pages node, WholePages pages → node ∉ led.sys.live →
        (∀ c ∈ bs, Disjoint (region pages).bytes c.region.bytes) →
        ∃ fuel, (led.sys.free fuel node pages).isSome) := by
  obtain ⟨bs, h⟩ := run_inv hrun
  refine ⟨bs, h.sys.rep, ?_, h.part.disjoint, h.sys.free, canon_sum_lt h.sys.canon h.sys.ok,
    ?_, ?_, ?_⟩
  · intro x
    rw [← covered_append]
    exact h.part.covers x
  · intro pages hpos
    obtain ⟨res, hres, -⟩ := PallocSys.alloc_spec h.sys (bs.length + 1) hpos (by omega)
    exact ⟨_, by rw [hres]; rfl⟩
  · intro fuel pages pages' sys' hpos halloc
    cases h.sys.alloc_run hpos halloc with
    | @accept l r b _ bs' hbs _ _ hle _ _ =>
      have hb : b ∈ bs := by simp [hbs]
      refine ⟨rfl, (h.sys.ok b hb).aligned, ?_⟩
      intro x hx
      refine ⟨b.region, List.mem_map.mpr ⟨b, hb, rfl⟩, ?_⟩
      obtain ⟨h₁, h₂⟩ := Region.mem_bytes.mp hx
      have h₃ : x < b.paddr + pages.size := h₂
      exact Region.mem_bytes.mpr ⟨h₁, show x < b.paddr + b.size by omega⟩
  · intro pages node hw hfresh hdisj
    have hdisj' : ∀ c ∈ bs, pages.paddr + pages.size ≤ c.paddr ∨ c.stop ≤ pages.paddr :=
      fun c hc => (Region.disjoint_iff (a := region pages) hw.pos (h.sys.ok c hc).pos).mp
        (hdisj c hc)
    obtain ⟨s', bs', hs', -, -⟩ := PallocSys.free_spec h.sys (bs.length + 1) hw.pos
      hw.size_mul hw.aligned hw.bound hdisj' hfresh (by omega)
    exact ⟨_, by rw [hs']; rfl⟩

/-- Two pages are donated and one of them is allocated again. -/
theorem palloc_ownership_two_pages :
    ∃ led, Relation.ReflTransGen Step (start ⟨fun _ => ⟨.null, .null, 0, 0⟩, 0⟩) led ∧
      led.donated = [⟨0x1000, 0x2000⟩] ∧ led.outstanding = [⟨0x1000, 0x1000⟩] ∧
      led.sys.pa.freeSize = 0x1000 ∧
      ∃ bs, led.sys.pa.Rep bs ∧
        ∀ x, Covered (bs.map Blk.region) x ∨ Covered led.outstanding x ↔
          Covered led.donated x := by
  have hrun : ∃ led, Relation.ReflTransGen Step (start ⟨fun _ => ⟨.null, .null, 0, 0⟩, 0⟩) led ∧
      led.donated = [⟨0x1000, 0x2000⟩] ∧ led.outstanding = [⟨0x1000, 0x1000⟩] ∧
      led.sys.pa.freeSize = 0x1000 := by
    refine ⟨_, .tail (.tail .refl (@Step.donate _ 1 0x80 ⟨0x1000, 0x2000, 0⟩ _
      ⟨by decide, by decide, by decide, by decide⟩ (by simp [start]) (by simp [start]) rfl))
      (@Step.alloc _ 2 ⟨0, 0x1000, 0⟩ _ _ _ (by decide) rfl), rfl, rfl, by decide⟩
  obtain ⟨led, hled, h₁, h₂, h₃⟩ := hrun
  obtain ⟨bs, hrep, hcov, -⟩ := palloc_ownership hled
  exact ⟨led, hled, h₁, h₂, h₃, bs, hrep, hcov⟩

end Ledger

end AimKernel
