import AimKernel.Mm.AllocatorInit
import Mathlib.Algebra.Order.BigOperators.Group.List
import Mathlib.Algebra.Ring.Int.Defs

/-!
# AimKernel.Mm.AllocatorMove

`page_allocator_move`, over any free list.

The walk replaces the nodes of the free list, which lie in the heap of the bootstrap
allocator, by objects of the simple allocator. The simple allocator takes its pages from
the very list that is being walked, always from its first block. So the list falls into
the blocks `l` that have been moved, whose nodes are objects, and the blocks `r` that have
not, whose nodes are not; `Moving` is the invariant that says so.

A block that is used up is unlinked and its node passed to `kfree`, which by now is that
of the simple allocator. That goes well for a block of `l`. The one time the first block
can be one of `r` is the first round, when nothing has been moved: there the first page is
taken from the block the walk stands at, and if it was its only one, `kfree` panics on the
old node.
-/

namespace AimKernel

open Machine

/-! ### Pages of list nodes -/

/-- The simple allocator with nothing but list nodes, the objects `objs`; its plain page
is at `n`. -/
structure NodePages (n : Nat) (s : Slab) (objs : List Nat) (ds : List Desc) : Prop where
  inv : s.Inv ds
  nodes : ∀ d ∈ ds, d.size = memBlockSize
  count : (ds.map Desc.num).sum = objs.length
  nodup : objs.Nodup
  holds : ∀ a, Holds ds a memBlockSize ↔ a ∈ objs
  plain : s.nowPlainPage = n
  offset : s.offset = allocedPageSize * ds.length
  stored : ∀ d ∈ ds, d.node < n + allocedPageSize * ds.length

namespace NodePages

variable {n : Nat} {s : Slab} {objs : List Nat} {ds : List Desc}

theorem length_of_full (h : NodePages n s objs ds) (hfull : Thick 128 ds) :
    128 * ds.length ≤ objs.length := by
  have hle := List.card_nsmul_le_sum (ds.map Desc.num) 128
    (List.forall_mem_map.mpr fun d hd => hfull d hd (h.nodes d hd))
  rw [h.count, List.length_map] at hle
  change (ds.length : Int) * 128 ≤ objs.length at hle
  omega

theorem on_page (h : NodePages n s objs ds) {a : Nat} (ha : a ∈ objs) :
    ∃ p, PhysPage p ∧ UsesPage ds (pa2kva p) ∧ p + kernBase ≤ a ∧ a < p + kernBase + pageSize := by
  obtain ⟨d, hd, -, i, hi, rfl⟩ := (h.holds a).mpr ha
  obtain ⟨hphys, hkva⟩ := (h.inv.ok d hd).page.phys
  have hcell := Desc.cell_mem hi
  refine ⟨kva2pa d.paddr, hphys, ⟨d, hd, ((h.inv.ok d hd).inUse_of_mem hi).size_ne, hkva.symm⟩, ?_⟩
  rw [← pa2kva_eq hphys.lt, hkva] at *
  exact hcell

/-- A descriptor changes in its place, and with it the objects. -/
theorem replace {l r : List Desc} {d d' : Desc} {s' : Slab} {objs' : List Nat}
    (h : NodePages n s objs (l ++ d :: r)) (hinv : s'.Inv (l ++ d' :: r))
    (hsize : d'.size = memBlockSize) (hnode : d'.node = d.node)
    (hnum : d'.num + objs.length = d.num + objs'.length) (hnodup : objs'.Nodup)
    (hholds : ∀ a, Holds (l ++ d' :: r) a memBlockSize ↔ a ∈ objs')
    (hplain : s'.nowPlainPage = s.nowPlainPage) (hoffset : s'.offset = s.offset) :
    NodePages n s' objs' (l ++ d' :: r) := by
  have hlen : (l ++ d' :: r).length = (l ++ d :: r).length := by simp
  refine ⟨hinv, forall_mem_replace h.nodes hsize, ?_, hnodup, hholds, hplain.trans h.plain, ?_, ?_⟩
  · have hcount := h.count
    simp only [List.map_append, List.map_cons, List.sum_append, List.sum_cons] at hcount ⊢
    omega
  · rw [hlen, hoffset]
    exact h.offset
  · rw [hlen]
    exact forall_mem_replace h.stored (hnode ▸ h.stored d (by simp))

/-- The search of `alloc`: an object on a page with room, or all pages are full. -/
theorem allocEnter_cases (h : NodePages n s objs ds) :
    (∃ a ds', s.allocEnter (ds.length + 1) memBlockSize = some (.slot memBlockSize a) ∧
      NodePages n (s.take a memBlockSize).2 ((s.take a memBlockSize).1 :: objs) ds' ∧
      (s.take a memBlockSize).1 ≠ 0 ∧ ∀ p, UsesPage ds' p ↔ UsesPage ds p) ∨
    s.allocEnter (ds.length + 1) memBlockSize = some (.needPage memBlockSize .tail) ∧
      Thick 128 ds := by
  obtain ⟨res, hres, hspec⟩ := Slab.allocEnter_spec memBlockSize h.inv.rep (Nat.lt_succ_self _)
  cases hspec with
  | null hbad => exact absurd hbad (by decide)
  | @slot l r d _ _ hds hroom hne =>
    subst hds
    rw [sizeClass_memBlockSize] at hres hroom
    obtain ⟨hready, hsize⟩ := h.inv.ready hroom hne
    have htook := hready.took
    rw [← hsize] at htook
    refine .inl ⟨_, _, hres, h.replace htook.inv hsize.symm (Desc.taken_node _ _) ?_ ?_ ?_ rfl rfl,
      htook.ne_zero, ?_⟩
    · rw [Desc.taken_num, List.length_cons]
      omega
    · refine List.nodup_cons.mpr ⟨fun hmem => ?_, h.nodup⟩
      exact htook.fresh _ ((h.holds _).mpr hmem)
    · intro a
      rw [htook.holds, h.holds, List.mem_cons]
      simp
    · intro p
      rw [htook.pages]
      simp
  | @unused l r d _ _ hds hempty _ _ =>
    have hnode := h.nodes d (by simp [hds])
    rw [hempty] at hnode
    exact absurd hnode (by decide)
  | full _ _ hroom _ => exact .inr ⟨hres, h.inv.thick_of_full hroom⟩

theorem freeEnter_full {o : Nat} (h : NodePages n s (o :: objs) ds) (hfull : Thick 128 ds) :
    ∃ s' ds', s.freeEnter (ds.length + 1) o = some (.kept s') ∧ NodePages n s' objs ds' ∧
      ds'.length = ds.length ∧ ∀ p, UsesPage ds' p ↔ UsesPage ds p := by
  obtain ⟨d, hd, hsize, i, hi, rfl⟩ := (h.holds o).mpr (by simp)
  obtain ⟨l, r, s', rfl, -, -, hcall, hinv, hplain, hoff⟩ := h.inv.free hd hi (Nat.lt_succ_self _)
  have hnum : d.num ≠ 1 := by
    have := hfull d hd hsize
    omega
  rw [if_neg hnum] at hcall
  have hrel := h.inv.released hi
  have hsame : (d.released (d.paddr + bitSize * i)).size = d.size := if_neg hnum
  refine ⟨s', _, hcall, h.replace hinv (hsame.trans hsize) rfl ?_ (List.nodup_cons.mp h.nodup).2 ?_
    hplain hoff, by simp, ?_⟩
  · have hdec : (d.released (d.paddr + bitSize * i)).num = d.num - 1 := rfl
    rw [hdec, List.length_cons]
    omega
  · intro a
    rw [hrel.holds, h.holds, List.mem_cons]
    have hnot := (List.nodup_cons.mp h.nodup).1
    constructor
    · rintro ⟨hne, rfl | ha⟩
      · exact absurd rfl hne
      · exact ha
    · intro ha
      exact ⟨fun heq => hnot (heq ▸ ha), .inr ha⟩
  · intro p
    rw [hrel.pages]
    simp [hnum]

/-- A new page for list nodes. Its descriptor is the next one on the plain page. -/
theorem extend (h : NodePages n s objs ds) (hn : KernPage n) (hroom : ds.length < 78) {a : Nat}
    (ha : KernPage a) (hnew : ¬ UsesPage ds a) :
    ∃ d slab ds', s.plainEnter allocedPageSize = .obj d slab ∧
      (∀ t, t = (((slab.link (.node d)).install (.node d) a memBlockSize).take (.node d)
        memBlockSize) →
      NodePages n t.2 (t.1 :: objs) ds' ∧ t.1 ≠ 0 ∧ (∀ p, UsesPage ds' p ↔ p = a ∨ UsesPage ds p)) := by
  have hplainInv : Slab.Inv { s with offset := s.offset + allocedPageSize } ds :=
    ⟨h.inv.rep.plain rfl, h.inv.ok, h.inv.order⟩
  have hoff := h.offset
  unfold allocedPageSize at hoff
  have hhigh := hn.high
  have hdesc : u32 (s.nowPlainPage + s.offset) = n + allocedPageSize * ds.length := by
    rw [h.plain, h.offset]
    refine Nat.mod_eq_of_lt ?_
    unfold allocedPageSize pageSize at *
    omega
  have htook := hplainInv.extend (n := n + allocedPageSize * ds.length) ha
    (by decide : memBlockSize ∈ friSize) (fun d hd => Nat.ne_of_lt (h.stored d hd)) hnew
  refine ⟨n + allocedPageSize * ds.length, { s with offset := s.offset + allocedPageSize },
    (Desc.fresh (n + allocedPageSize * ds.length) a memBlockSize).taken memBlockSize :: ds, ?_, ?_⟩
  · unfold Slab.plainEnter
    rw [if_neg (by decide), if_pos, hdesc]
    unfold allocedPageSize pageSize
    omega
  rintro t rfl
  refine ⟨⟨htook.inv, ?_, ?_, ?_, ?_, h.plain, ?_, ?_⟩, ?_, ?_⟩
  · exact List.forall_mem_cons.mpr ⟨rfl, h.nodes⟩
  · have hcount := h.count
    rw [List.map_cons, List.sum_cons, Desc.fresh_taken_num, hcount, List.length_cons]
    omega
  · refine List.nodup_cons.mpr ⟨fun hmem => ?_, h.nodup⟩
    exact htook.fresh _ ((h.holds _).mpr hmem)
  · intro b
    rw [htook.holds, h.holds, List.mem_cons]
    simp
  · show s.offset + allocedPageSize = _
    rw [h.offset, List.length_cons, Nat.mul_add, Nat.mul_one]
  · rw [List.length_cons, Nat.mul_succ, ← Nat.add_assoc]
    refine List.forall_mem_cons.mpr ⟨?_, fun e he => Nat.lt_add_right _ (h.stored e he)⟩
    rw [Desc.taken_node, Desc.fresh_node]
    exact Nat.lt_add_of_pos_right (by decide : 0 < allocedPageSize)
  · exact htook.ne_zero
  · intro p
    rw [htook.pages]
    simp [eq_comm]

end NodePages

/-! ### The free list -/

/-- A free list in ascending order whose blocks have kernel addresses and at least `gap`
bytes between them: none at all, or one if neighbours that touch have been merged. -/
structure FreeList (gap : Nat) (pa : Palloc) (bs : List Blk) : Prop where
  rep : pa.Rep bs
  ok : ∀ b ∈ bs, b.OK
  mapped : ∀ b ∈ bs, b.stop < kernBase
  spread : bs.Pairwise fun b c => b.stop + gap ≤ c.paddr
  total : pa.freeSize = (bs.map Blk.size).sum

namespace FreeList

variable {gap : Nat} {pa pa' : Palloc} {b : Blk} {bs l r : List Blk}

theorem ascending (h : FreeList gap pa bs) : Ascending bs :=
  h.spread.imp fun hle => by omega

theorem freeSize_lt (h : FreeList gap pa bs) : pa.freeSize < 2 ^ 64 := by
  have hsum := sum_size_le 0 kernBase h.ascending (Nat.zero_le _)
    fun b hb => ⟨Nat.zero_le _, le_of_lt (h.mapped b hb)⟩
  rw [h.total]
  unfold kernBase at hsum
  omega

theorem page (h : FreeList gap pa bs) (hb : b ∈ bs) : PhysPage b.paddr := by
  have hle := (h.ok b hb).le_size
  have hlt := h.mapped b hb
  unfold Blk.stop at hlt
  exact ⟨(h.ok b hb).aligned, by omega⟩

/-- The first page has left the list. -/
theorem trim (h : FreeList gap pa (b :: bs)) (hrep : pa'.Rep (AimKernel.trim (b :: bs)))
    (hfs : pa'.freeSize = pa.freeSize) :
    FreeList gap (pa'.allocLeave ⟨b.paddr, pageSize, 0⟩) (AimKernel.trim (b :: bs)) := by
  have hok := h.ok b (by simp)
  refine ⟨hrep.freeSize _, forall_mem_trim hok.carve fun c hc => h.ok c (by simp [hc]),
    forall_mem_trim (fun _ => ?_) fun c hc => h.mapped c (by simp [hc]),
    trim_pairwise h.ok (fun stop start => stop + gap ≤ start) h.spread, ?_⟩
  · rw [hok.carve_stop]
    exact h.mapped b (by simp)
  · have hsum : ((AimKernel.trim (b :: bs)).map Blk.size).sum =
        b.size - pageSize + (bs.map Blk.size).sum := by
      by_cases hsize : b.size = pageSize
      · rw [trim_one hsize, hsize, Nat.sub_self, Nat.zero_add]
      · rw [trim_more hsize, List.map_cons, List.sum_cons]
        rfl
    have htotal := h.total
    have hlt := h.freeSize_lt
    have hle := hok.le_size
    rw [List.map_cons, List.sum_cons] at htotal
    show sub64 pa'.freeSize pageSize = _
    rw [hfs, sub64_eq (by omega) hlt, hsum]
    omega

/-- `alloc` of one page takes the first page of the list. -/
theorem allocEnter_first (h : FreeList gap pa (b :: bs)) :
    ∃ pa', pa.allocEnter ((b :: bs).length + 1) onePage =
        some (if b.size = pageSize then .emptied (.node b.node) ⟨b.paddr, pageSize, 0⟩ pa'
          else .carved ⟨b.paddr, pageSize, 0⟩ pa') ∧
      FreeList gap (pa'.allocLeave ⟨b.paddr, pageSize, 0⟩) (AimKernel.trim (b :: bs)) := by
  obtain ⟨res, hres, ⟨-, hlt | hnil⟩ | ⟨c, rest, pa', heq, hrep, hfs, rfl⟩⟩ :=
    Palloc.allocEnter_onePage h.rep h.ok
  · have hle := (h.ok b (by simp)).le_size
    have htotal := h.total
    rw [List.map_cons, List.sum_cons] at htotal
    omega
  · cases hnil
  · cases heq
    exact ⟨pa', hres, h.trim hrep hfs⟩

theorem renode (h : FreeList gap pa (l ++ b :: r)) {o : Nat}
    (hrep : pa'.Rep (l ++ { b with node := o } :: r)) (hfs : pa'.freeSize = pa.freeSize) :
    FreeList gap pa' (l ++ { b with node := o } :: r) := by
  have hok := h.ok b (by simp)
  refine ⟨hrep, forall_mem_replace h.ok ⟨hok.pos, hok.size_mul, hok.aligned, hok.bound⟩,
    forall_mem_replace h.mapped (h.mapped b (by simp)), ?_, ?_⟩
  · have hspread := pairwise_middle.mp h.spread
    exact pairwise_middle.mpr hspread
  · rw [hfs, h.total]
    simp

/-- The bytes of the first page, and the others. -/
theorem mem_freeBytes (h : FreeList gap pa (b :: bs)) (x : Nat) :
    x ∈ freeBytes (b :: bs) ↔
      (b.paddr ≤ x ∧ x < b.paddr + pageSize) ∨ x ∈ freeBytes (AimKernel.trim (b :: bs)) := by
  have hle := (h.ok b (by simp)).le_size
  have hcons : ∀ c cs, x ∈ freeBytes (c :: cs) ↔ (c.paddr ≤ x ∧ x < c.stop) ∨ x ∈ freeBytes cs := by
    intro c cs
    unfold freeBytes
    rw [Set.mem_ofPred_eq, List.map_cons, covered_cons]
    rfl
  by_cases hsize : b.size = pageSize
  · rw [trim_one hsize, hcons, Blk.stop, hsize]
  · have hcut : (b.paddr ≤ x ∧ x < b.stop) ↔
        (b.paddr ≤ x ∧ x < b.paddr + pageSize) ∨ (b.carve.paddr ≤ x ∧ x < b.stop) := by
      unfold Blk.carve Blk.stop
      dsimp only
      omega
    rw [trim_more hsize, hcons, hcons, (h.ok b (by simp)).carve_stop, hcut, or_assoc]

end FreeList

/-! ### The walk -/

/-- The page `p` was taken off the list: it is in use, or one of `pages`, which are on
their way. -/
def Taken (pages : List Nat) (ds : List Desc) (p : Nat) : Prop :=
  PhysPage p ∧ (p ∈ pages ∨ UsesPage ds (pa2kva p))

/-- The walk over the list `bs`, with the plain page at `n`: the blocks `l` have been
moved, the blocks `r` have not. The objects `flight` and the pages `pages` are on their
way. -/
structure Moving (gap n : Nat) (bs : List Blk) (flight pages : List Nat) (l r : List Blk)
    (ds : List Desc) (w : World) : Prop where
  active : w.active = .slab
  free : FreeList gap w.pa (l ++ r)
  nodes : NodePages n w.slab (flight ++ l.map Blk.node) ds
  live : w.live.Perm (flight ++ l.map Blk.node)
  bytes : ∀ x, x ∈ freeBytes bs ↔
    x ∈ freeBytes (l ++ r) ∨ ∃ p, Taken pages ds p ∧ p ≤ x ∧ x < p + pageSize
  apart : ∀ p, Taken pages ds p → Apart (l ++ r) p
  coming : ∀ p ∈ pages, PhysPage p ∧ ¬ UsesPage ds (pa2kva p)
  old : ∀ b ∈ r, ∀ x ∈ freeBytes bs, b.node ≠ x + kernBase
  few : l.length + r.length ≤ 1024

namespace Moving

variable {gap n o p : Nat} {bs l r : List Blk} {b : Blk} {flight pages : List Nat}
  {ds ds' : List Desc} {w : World} {K : List Frame}

/-- What has been taken depends on the pages in use only. -/
theorem taken_congr (h : ∀ a, UsesPage ds' a ↔ UsesPage ds a) (p : Nat) :
    Taken pages ds' p ↔ Taken pages ds p := by
  unfold Taken
  rw [h]

/-- The page that `pgalloc` takes off the front. -/
theorem bytes_take (h : Moving gap n bs flight [] l r ds w) {c : Blk} {cs : List Blk}
    (hlist : l ++ r = c :: cs) :
    (∀ x, x ∈ freeBytes bs ↔
      x ∈ freeBytes (trim (c :: cs)) ∨ ∃ p, Taken [c.paddr] ds p ∧ p ≤ x ∧ x < p + pageSize) ∧
    (∀ p, Taken [c.paddr] ds p → Apart (trim (c :: cs)) p) ∧
    (∀ p ∈ [c.paddr], PhysPage p ∧ ¬ UsesPage ds (pa2kva p)) := by
  have hfree := h.free
  have hapart := h.apart
  have hbytes := h.bytes
  rw [hlist] at hfree hapart hbytes
  have hpage := hfree.page (b := c) (by simp)
  have hle := (hfree.ok c (by simp)).le_size
  have hstop : c.stop = c.paddr + c.size := rfl
  have hnew : ∀ q, Taken [c.paddr] ds q ↔ q = c.paddr ∨ Taken [] ds q := by
    intro q
    unfold Taken
    simp only [List.mem_singleton, List.not_mem_nil, false_or]
    constructor
    · rintro ⟨hq, rfl | hu⟩
      · exact .inl rfl
      · exact .inr ⟨hq, hu⟩
    · rintro (rfl | ⟨hq, hu⟩)
      · exact ⟨hpage, .inl rfl⟩
      · exact ⟨hq, .inr hu⟩
  refine ⟨?_, ?_, ?_⟩
  · intro x
    rw [hbytes, hfree.mem_freeBytes]
    simp only [hnew, or_and_right, exists_or, exists_eq_left]
    rw [or_assoc, or_left_comm]
  · intro q hq
    rcases (hnew q).mp hq with rfl | hq
    · exact fun e he => .inl (trim_above hfree.ok hfree.ascending e he)
    · exact (hapart q hq).trim hfree.ok
  · intro q hq
    obtain rfl := List.mem_singleton.mp hq
    refine ⟨hpage, fun hu => ?_⟩
    have := hapart c.paddr ⟨hpage, .inr hu⟩ c (by simp)
    unfold pageSize at *
    omega

/-- `pgalloc` during the walk. A block that is used up is one that has been moved. -/
theorem runs_pgalloc (h : Moving gap n bs [] [] l (b :: r) ds w) (hfull : Thick 128 ds)
    (hfirst : l = [] → b.size ≠ pageSize) :
    ∃ p l' b' ds' w', Relation.ReflTransGen Runs ⟨w, .call .pgalloc, K⟩ ⟨w', .ret p, K⟩ ∧
      Moving gap n bs [] [p] l' (b' :: r) ds' w' ∧ b'.node = b.node ∧ ds'.length = ds.length := by
  have hfree := h.free
  cases l with
  | nil =>
    -- nothing has been moved: the page comes from the block the walk stands at
    have hne := hfirst rfl
    have hpage := hfree.page (by simp : b ∈ b :: r)
    obtain ⟨hbytes, hapart, hcoming⟩ := h.bytes_take (List.nil_append (b :: r))
    obtain ⟨pa, hcall, hlist⟩ := hfree.allocEnter_first
    rw [trim_more hne] at hbytes hapart hlist
    rw [if_neg hne] at hcall
    exact ⟨b.paddr, [], b.carve, ds, _, .single (Coupled.runs_pgalloc_carved hpage.lt hcall),
      ⟨h.active, hlist, h.nodes, h.live, hbytes, hapart, hcoming,
        List.forall_mem_cons.mpr (List.forall_mem_cons.mp h.old), h.few⟩, rfl, rfl⟩
  | cons c l =>
    rw [List.cons_append] at hfree
    have hpage := hfree.page (b := c) (by simp)
    obtain ⟨hbytes, hapart, hcoming⟩ := h.bytes_take (List.cons_append ..)
    obtain ⟨pa, hcall, hlist⟩ := hfree.allocEnter_first
    by_cases heq : c.size = pageSize
    · rw [trim_one heq] at hbytes hapart hlist
      rw [if_pos heq] at hcall
      obtain ⟨slab, ds', hkfree, hnodes, hlen, huses⟩ := h.nodes.freeEnter_full hfull
      have hlive : (w.live.erase c.node).Perm (l.map Blk.node) := by
        have := h.live.erase c.node
        rwa [List.nil_append, List.map_cons, List.erase_cons_head] at this
      have hruns : Runs ⟨{ w with pa := pa }, .call (.kfree (.node c.node)),
          .pallocAlloc ⟨c.paddr, pageSize, 0⟩ :: K⟩
          ⟨{ w with pa := pa, slab := slab, live := w.live.erase c.node }, .ret 0,
            .pallocAlloc ⟨c.paddr, pageSize, 0⟩ :: K⟩ := by
        refine ⟨ds.length + 1, ?_⟩
        simp only [step, stepCall, Machine.kfree, h.active, hkfree, doRet]
      refine ⟨c.paddr, l, b, ds', _, .head (Coupled.runs_pgalloc_emptied hcall)
        (.head hruns (.single (Coupled.runs_pallocAlloc_leave hpage.lt))),
        ⟨h.active, hlist, hnodes, hlive, ?_, ?_, ?_, h.old, ?_⟩, rfl, hlen⟩
      · simp only [taken_congr huses]
        exact hbytes
      · simp only [taken_congr huses]
        exact hapart
      · simp only [huses]
        exact hcoming
      · have := h.few
        simp only [List.length_cons] at this ⊢
        omega
    · rw [trim_more heq] at hbytes hapart hlist
      rw [if_neg heq] at hcall
      exact ⟨c.paddr, c.carve :: l, b, ds, _,
        .single (Coupled.runs_pgalloc_carved hpage.lt hcall),
        ⟨h.active, hlist, h.nodes, h.live, hbytes, hapart, hcoming, h.old, h.few⟩, rfl, rfl⟩

/-- The end of `alloc` of `simple.c` with a new page. -/
theorem runs_allocPage (h : Moving gap n bs [] [p] l r ds w) (hn : KernPage n)
    (hroom : ds.length < 78) :
    ∃ o ds' w', Runs ⟨w, .ret p, .allocPage memBlockSize .tail :: K⟩ ⟨w', .ret o, K⟩ ∧ o ≠ 0 ∧
      Moving gap n bs [o] [] l r ds' w' := by
  obtain ⟨hphys, hnew⟩ := h.coming p (by simp)
  obtain ⟨d, slab, ds', hplain, hextend⟩ := h.nodes.extend hn hroom hphys.kern hnew
  obtain ⟨hnodes, hne, huses⟩ := hextend _ rfl
  have htaken : ∀ q, Taken [] ds' q ↔ Taken [p] ds q := by
    intro q
    unfold Taken
    rw [huses]
    simp only [List.not_mem_nil, false_or, List.mem_singleton]
    refine and_congr_right fun hq => or_congr_left ?_
    exact ⟨fun heq => hq.kva_inj hphys heq, fun heq => by rw [heq]⟩
  generalize htake : ((slab.link (.node d)).install (.node d) (pa2kva p) memBlockSize).take
    (.node d) memBlockSize = t at hnodes hne
  refine ⟨t.1, ds', { w with slab := t.2, live := t.1 :: w.live }, ⟨0, ?_⟩, hne,
    ⟨h.active, h.free, hnodes, h.live.cons _, ?_, ?_, by simp, h.old, h.few⟩⟩
  · simp only [step, stepRet, allocPageRet, if_neg hphys.kern.ne_zero, Slab.allocPage, if_true,
      hplain, Slab.allocPlain, Slab.installTake, allocRet, doRet, htake]
  · simp only [htaken]
    exact h.bytes
  · simp only [htaken]
    exact h.apart

/-- `kmalloc` of a list node during the walk. -/
theorem runs_kmalloc (h : Moving gap n bs [] [] l (b :: r) ds w) (hn : KernPage n)
    (hfirst : l = [] → b.size ≠ pageSize) :
    ∃ o l' b' ds' w',
      Relation.ReflTransGen Runs ⟨w, .call (.kmalloc memBlockSize), K⟩ ⟨w', .ret o, K⟩ ∧ o ≠ 0 ∧
      Moving gap n bs [o] [] l' (b' :: r) ds' w' ∧ b'.node = b.node := by
  have hsmall : ¬ memBlockSize > pageSize / 2 := by decide
  rcases h.nodes.allocEnter_cases with ⟨a, ds', hcall, hnodes, hne, huses⟩ | ⟨hcall, hfull⟩
  · refine ⟨_, l, b, ds', { w with
      slab := (w.slab.take a memBlockSize).2, live := (w.slab.take a memBlockSize).1 :: w.live },
      .single ⟨ds.length + 1, ?_⟩, hne,
      ⟨h.active, h.free, hnodes, h.live.cons _, ?_, ?_, by simp, h.old, h.few⟩, rfl⟩
    · simp only [step, stepCall, kmalloc, if_neg hsmall, h.active, hcall, World.take, doRet]
    · simp only [taken_congr huses]
      exact h.bytes
    · simp only [taken_congr huses]
      exact h.apart
  · -- all pages are full, and there are few of them
    have hlen := h.nodes.length_of_full hfull
    have hfew := h.few
    rw [List.nil_append, List.length_map] at hlen
    obtain ⟨p, l', b', ds1, w1, hruns1, h1, hnode, hlen1⟩ :=
      h.runs_pgalloc (K := .allocPage memBlockSize .tail :: K) hfull hfirst
    obtain ⟨o, ds2, w2, hruns2, hne, h2⟩ := h1.runs_allocPage (K := K) hn (by omega)
    refine ⟨o, l', b', ds2, w2, .head ⟨ds.length + 1, ?_⟩ (hruns1.tail hruns2), hne, h2, hnode⟩
    simp only [step, stepCall, kmalloc, if_neg hsmall, h.active, hcall, doCall]

/-- The rest of a round: the object takes the place of the old node. -/
theorem runs_move (h : Moving gap n bs [o] [] l (b :: r) ds w) (ho : o ≠ 0) :
    ∃ w', Runs ⟨w, .ret o, .move (.node b.node) :: K⟩
        (Machine.moveLoop (firstLink (r.map Blk.node)) ⟨w', .ret o, K⟩) ∧
      Moving gap n bs [] [] (l ++ [{ b with node := o }]) r ds w' := by
  -- the object is on a page that was taken off the list, and old nodes are not
  obtain ⟨q, hphys, huse, hlo, hhi⟩ := h.nodes.on_page (a := o) (by simp)
  have hin : o - kernBase ∈ freeBytes bs :=
    (h.bytes _).mpr (.inr ⟨q, ⟨hphys, .inr huse⟩, by omega, by omega⟩)
  have hne : ∀ c ∈ l ++ b :: r, c.node ≠ o := by
    intro c hc heq
    rcases List.mem_append.mp hc with hc | hc
    · have hnodup := h.nodes.nodup
      rw [List.singleton_append, List.nodup_cons] at hnodup
      exact hnodup.1 (List.mem_map.mpr ⟨c, hc, heq⟩)
    · exact h.old c hc _ hin (by omega)
  obtain ⟨hrep, hnext⟩ := Palloc.moveNode_rep h.free.rep hne
  have hlist : (l ++ [{ b with node := o }]) ++ r = l ++ { b with node := o } :: r := by simp
  have hfree := h.free.renode hrep rfl
  refine ⟨{ w with pa := w.pa.moveNode (.node b.node) (.node o) }, ⟨0, ?_⟩,
    ⟨h.active, ?_, ?_, ?_, ?_, ?_, by simp, fun c hc => h.old c (by simp [hc]), ?_⟩⟩
  · simp only [step, stepRet, moveRet, if_neg ho, hnext]
  · rw [hlist]
    exact hfree
  · have hnodes := h.nodes
    refine ⟨hnodes.inv, hnodes.nodes, ?_, ?_, ?_, hnodes.plain, hnodes.offset, hnodes.stored⟩
    · rw [hnodes.count]
      simp
    · refine (List.Perm.nodup_iff ?_).mp hnodes.nodup
      simpa using (List.perm_append_singleton o (l.map Blk.node)).symm
    · intro a
      rw [hnodes.holds]
      simp [or_comm]
  · refine h.live.trans ?_
    simpa using (List.perm_append_singleton o (l.map Blk.node)).symm
  · intro x
    rw [h.bytes, hlist]
    simp [freeBytes, Blk.region]
  · intro q hq c hc
    rw [hlist] at hc
    refine forall_mem_replace (h.apart q hq) ?_ c hc
    exact h.apart q hq b (by simp)
  · have := h.few
    simp only [List.length_cons, List.length_append, List.length_nil] at this ⊢
    omega

/-- **The walk.** It returns once the whole list has been moved. -/
theorem runs_moveLoop (h : Moving gap n bs [] [] l r ds w) (hn : KernPage n)
    (hfirst : l = [] → ∀ b ∈ r.head?, b.size ≠ pageSize) (ctl : Ctl) :
    ∃ bs' ds' w', Relation.ReflTransGen Runs
        (Machine.moveLoop (firstLink (r.map Blk.node)) ⟨w, ctl, K⟩) ⟨w', .ret 0, K⟩ ∧
      Moving gap n bs [] [] bs' [] ds' w' := by
  -- by induction on the blocks to come; after the first round some block has been moved
  induction r generalizing l ds w ctl with
  | nil => exact ⟨l, ds, w, .refl, h⟩
  | cons b r ih =>
    obtain ⟨o, l1, b1, ds1, w1, hruns1, ho, h1, hnode⟩ :=
      h.runs_kmalloc (K := .move (.node b.node) :: K) hn fun hl => hfirst hl b (by simp)
    obtain ⟨w2, hruns2, h2⟩ := h1.runs_move (K := K) ho
    rw [hnode] at hruns2
    obtain ⟨bs', ds', w', hruns3, h3⟩ := ih h2 (fun hl => absurd hl (by simp)) (.ret o)
    have hloop : Machine.moveLoop (firstLink ((b :: r).map Blk.node)) ⟨w, ctl, K⟩ =
        ⟨w, .call (.kmalloc memBlockSize), .move (.node b.node) :: K⟩ := by
      simp [moveLoop, firstLink, doCall]
    refine ⟨bs', ds', w', ?_, h3⟩
    exact hruns1.trans (.head hruns2 hruns3)

end Moving

/-! ### `page_allocator_move` -/

/-- The free list that `page_allocator_move` starts on, with the plain page at `n`: its
nodes do not overlap, and lie in the heap of the bootstrap allocator, which is part of the
kernel image and no free memory. -/
structure Bootstrapped (gap n : Nat) (bs : List Blk) (w : World) : Prop where
  opened : AllocatorInit.Opened w n
  plain : KernPage n
  free : FreeList gap w.pa bs
  heap : w.ssize = 0x8000
  kern : kernBase ≤ w.bottom
  nodes : ∀ b ∈ bs, w.bottom ≤ b.node ∧ b.node + memBlockSize ≤ w.bottom + w.ssize
  distinct : bs.Pairwise fun b c =>
    b.node + memBlockSize ≤ c.node ∨ c.node + memBlockSize ≤ b.node
  image : ∀ x ∈ freeBytes bs, x + kernBase < w.bottom ∨ w.bottom + w.ssize ≤ x + kernBase

/-- `page_allocator_move`, called by `allocator_init`, returns, and the list is that of
before with nodes of the simple allocator, without the pages that it has taken. -/
def HandsOver (gap : Nat) (bs : List Blk) (w : World) : Prop :=
  ∃ bs' ds w', Relation.ReflTransGen Runs ⟨w, .call .pageAllocatorMove, [.boot []]⟩ ⟨w', .idle, []⟩ ∧
    FreeList gap w'.pa bs' ∧ w'.active = .slab ∧ w'.slab.Inv ds ∧
    (∀ b ∈ bs', Holds ds b.node memBlockSize) ∧ w'.live.Perm (bs'.map Blk.node) ∧
    (∀ p, PhysPage p → UsesPage ds (pa2kva p) → Set.Ico p (p + pageSize) ⊆ freeBytes bs) ∧
    freeBytes bs' =
      freeBytes bs \ {x | ∃ p, PhysPage p ∧ UsesPage ds (pa2kva p) ∧ x ∈ Set.Ico p (p + pageSize)}

variable {gap n : Nat} {bs : List Blk} {w : World}

/-- The bootstrap heap has room for 1024 nodes. -/
theorem Bootstrapped.few (h : Bootstrapped gap n bs w) : bs.length ≤ 1024 := by
  have hcells : (bs.map fun b => (b.node - w.bottom) / memBlockSize).Nodup := by
    rw [List.Nodup, List.pairwise_map]
    refine h.distinct.imp_of_mem fun {b c} hb hc hapart => ?_
    have h1 := (h.nodes b hb).1
    have h2 := (h.nodes c hc).1
    unfold memBlockSize at *
    omega
  have hlt : ∀ i ∈ bs.map fun b => (b.node - w.bottom) / memBlockSize, i ∈ List.range 1024 := by
    intro i hi
    obtain ⟨b, hb, rfl⟩ := List.mem_map.mp hi
    have hin := h.nodes b hb
    rw [h.heap] at hin
    rw [List.mem_range]
    unfold memBlockSize at *
    omega
  have hle := (List.subperm_of_subset hcells hlt).length_le
  rwa [List.length_map, List.length_range] at hle

theorem Bootstrapped.moving (h : Bootstrapped gap n bs w) : Moving gap n bs [] [] [] bs [] w := by
  have hopen := h.opened
  have hnone : ∀ p, ¬ Taken [] [] p := by
    rintro p ⟨-, hp | ⟨d, hd, -⟩⟩
    · exact absurd hp List.not_mem_nil
    · exact absurd hd List.not_mem_nil
  refine ⟨hopen.active, h.free, ⟨hopen.slab, by simp, by simp, List.nodup_nil, ?_, hopen.plain,
    by rw [hopen.offset]; rfl, by simp⟩, ?_, ?_, fun p hp => absurd hp (hnone p), by simp, ?_, ?_⟩
  · simp [Holds]
  · rw [hopen.live]
    exact .refl _
  · intro x
    refine ⟨.inl, ?_⟩
    rintro (hx | ⟨p, hp, -⟩)
    · exact hx
    · exact absurd hp (hnone p)
  · intro b hb x hx heq
    have hin := h.nodes b hb
    have hout := h.image x hx
    unfold memBlockSize at hin
    omega
  · rw [List.length_nil, Nat.zero_add]
    exact h.few

/-- A run of the machine arrives at one state only in which it stops. -/
theorem Machine.runs_unique {m m1 m2 : Machine} (h1 : Relation.ReflTransGen Runs m m1)
    (h2 : Relation.ReflTransGen Runs m m2) (hs1 : ∀ m', ¬ Runs m1 m') (hs2 : ∀ m', ¬ Runs m2 m') :
    m1 = m2 := by
  have hdet : Relator.RightUnique Runs := fun _ _ _ h h' => Runs.det h h'
  rcases h1.total_of_right_unique hdet h2 with h | h
  · rcases h.cases_head with heq | ⟨m', hstep, -⟩
    · exact heq
    · exact absurd hstep (hs1 m')
  · rcases h.cases_head with heq | ⟨m', hstep, -⟩
    · exact heq.symm
    · exact absurd hstep (hs2 m')

/-- A first block of one page: `kfree` is called on its node. -/
theorem Bootstrapped.panics {b : Blk} (h : Bootstrapped gap n (b :: bs) w) (heq : b.size = pageSize)
    (K : List Frame) :
    ∃ w' K', Relation.ReflTransGen Runs ⟨w, .call .pageAllocatorMove, K⟩
      ⟨w', .panic "Free: Can't find object\n", K'⟩ := by
  have hopen := h.opened
  obtain ⟨pa, hcall, -⟩ := h.free.allocEnter_first
  rw [if_pos heq] at hcall
  have hscan : w.slab.freeEnter 1 b.node = some (.panic "Free: Can't find object\n") := by
    obtain ⟨res, hres, hspec⟩ := Slab.freeEnter_spec b.node hopen.slab.rep (Nat.lt_succ_self _)
    cases hspec with
    | null hzero =>
      have hlow := h.kern
      have hin := (h.nodes b (by simp)).1
      unfold kernBase at hlow
      omega
    | panic _ _ => exact hres
    | kept _ hds => exact absurd hds (by simp)
    | emptied _ hds => exact absurd hds (by simp)
  refine ⟨{ w with pa := pa }, .pallocAlloc ⟨b.paddr, pageSize, 0⟩ ::
    .allocPage memBlockSize .tail :: .move (.node b.node) :: K, .head (AllocatorInit.runs_pageAllocatorMove h.free.rep)
    (.head (AllocatorInit.runs_kmalloc_first hopen.active hopen.slab)
      (.head (Coupled.runs_pgalloc_emptied hcall) (.single ⟨1, ?_⟩)))⟩
  simp only [step, stepCall, Machine.kfree, hopen.active, hscan, doPanic]

theorem Bootstrapped.not_handsOver {b : Blk} (h : Bootstrapped gap n (b :: bs) w)
    (heq : b.size = pageSize) : ¬ HandsOver gap (b :: bs) w := by
  rintro ⟨bs', ds, w', hruns, -⟩
  obtain ⟨w1, K, hpanic⟩ := h.panics heq [.boot []]
  have hsame := Machine.runs_unique hruns hpanic (by rintro m ⟨fuel, hstep⟩; cases hstep)
    (by rintro m ⟨fuel, hstep⟩; cases hstep)
  exact absurd (congrArg Machine.ctl hsame) (by simp)

/-- **The hand-over of the list nodes.** `page_allocator_move` returns with the list on
nodes of the simple allocator exactly if the first block has more than one page. -/
theorem pageAllocatorMove_hands_over_iff {b : Blk} (h : Bootstrapped gap n (b :: bs) w) :
    HandsOver gap (b :: bs) w ↔ b.size ≠ pageSize := by
  constructor
  · exact fun hover heq => h.not_handsOver heq hover
  · intro hne
    obtain ⟨bs', ds, w', hruns, hdone⟩ := h.moving.runs_moveLoop (K := [.boot []]) h.plain
      (fun _ c hc => by simp_all) (.call .pageAllocatorMove)
    have hnodes := hdone.nodes
    have hfree := hdone.free
    have hbytes := hdone.bytes
    have hapart := hdone.apart
    rw [List.append_nil] at hfree hbytes hapart
    refine ⟨bs', ds, w', .head (AllocatorInit.runs_pageAllocatorMove h.free.rep)
      (hruns.tail ⟨0, rfl⟩), hfree, hdone.active, hnodes.inv, ?_,
      hdone.live, ?_, ?_⟩
    · intro c hc
      exact (hnodes.holds _).mpr (List.mem_map.mpr ⟨c, hc, rfl⟩)
    · intro p hp huse x hx
      exact (hbytes x).mpr (.inr ⟨p, ⟨hp, .inr huse⟩, hx.1, hx.2⟩)
    · ext x
      rw [Set.mem_sdiff, hbytes]
      constructor
      · intro hx
        refine ⟨.inl hx, ?_⟩
        rintro ⟨p, hp, huse, hlo, hhi⟩
        obtain ⟨q, hq, hqx⟩ := hx
        obtain ⟨c, hc, rfl⟩ := List.mem_map.mp hq
        have hcp := hapart p ⟨hp, .inr huse⟩ c hc
        have hlo' : c.paddr ≤ x := hqx.1
        have hhi' : x < c.stop := hqx.2
        omega
      · rintro ⟨hx | ⟨p, ⟨hp, hcoming | huse⟩, hlo, hhi⟩, hnot⟩
        · exact hx
        · exact absurd hcoming List.not_mem_nil
        · exact absurd ⟨p, hp, huse, hlo, hhi⟩ hnot

/-- A free list of one block at `0x200000`, with its node in the bootstrap heap, and the
simple allocator as `simple_allocator_init` leaves it. -/
def oneBlockWorld (size : Nat) : World where
  pa :=
    { mem := fun
        | .head => ⟨.null, .node 0x80100018, 0, 0⟩
        | .tail => ⟨.node 0x80100018, .null, 0, 0⟩
        | _ => ⟨.head, .tail, 0x200000, size⟩
      freeSize := size }
  slab := { Slab.initLinks ⟨fun _ => ⟨.null, .null, 0, 0, 0, 0⟩, 0, 0⟩ with nowPlainPage := 0x801ff000 }
  top := 0x80100038
  bottom := 0x80100000
  ssize := 0x8000
  active := .slab
  live := []
  objs := []
  pages := []

theorem oneBlockWorld_bootstrapped {k : Nat} (hpos : 0 < k) (hlt : k < 0x1000) :
    Bootstrapped 1 0x801ff000 [⟨0x80100018, 0x200000, k * pageSize⟩] (oneBlockWorld (k * pageSize)) := by
  have hstop : (⟨0x80100018, 0x200000, k * pageSize⟩ : Blk).stop = 0x200000 + k * pageSize := rfl
  have hslab : (oneBlockWorld (k * pageSize)).slab.Inv [] :=
    ⟨(Slab.initLinks_rep _).plain rfl, by simp, List.Pairwise.nil⟩
  refine ⟨⟨⟨rfl, rfl, rfl⟩, rfl, hslab, rfl, rfl⟩, ⟨⟨by decide, by decide⟩, by decide⟩,
    ⟨⟨?_, by simp, ?_⟩, ?_, ?_, List.pairwise_singleton _ _, ?_⟩, rfl, ?_, ?_,
    List.pairwise_singleton _ _, ?_⟩
  · intro l r heq
    cases l with
    | nil => subst heq; exact ⟨rfl, rfl⟩
    | cons x l =>
      obtain ⟨rfl, hrest⟩ := List.cons.inj heq
      obtain ⟨rfl, rfl⟩ := List.append_eq_nil_iff.mp hrest.symm
      exact ⟨rfl, rfl⟩
  · exact List.forall_mem_singleton.mpr ⟨rfl, rfl⟩
  · refine List.forall_mem_singleton.mpr ⟨Nat.mul_pos hpos (by decide), Nat.mul_mod_left _ _,
      (by decide : 0x200000 % pageSize = 0), ?_⟩
    rw [hstop]
    unfold pageSize
    omega
  · rw [List.forall_mem_singleton, hstop]
    unfold pageSize kernBase
    omega
  · simp [oneBlockWorld]
  · exact (by decide : kernBase ≤ 0x80100000)
  · exact List.forall_mem_singleton.mpr (by decide : (0x80100000 : Nat) ≤ 0x80100018 ∧
      0x80100018 + memBlockSize ≤ 0x80100000 + 0x8000)
  · rintro x ⟨q, hq, hlo, -⟩
    obtain rfl := List.mem_singleton.mp hq
    have hlo' : 0x200000 ≤ x := hlo
    exact .inr (show 0x80100000 + 0x8000 ≤ x + kernBase by unfold kernBase; omega)

/-- A block of two pages is handed over. -/
theorem pageAllocatorMove_hands_over_two_pages :
    HandsOver 1 [⟨0x80100018, 0x200000, 2 * pageSize⟩] (oneBlockWorld (2 * pageSize)) :=
  (pageAllocatorMove_hands_over_iff (oneBlockWorld_bootstrapped (k := 2) (by decide)
    (by decide))).mpr (by decide)

/-- A block of one page is not. -/
theorem pageAllocatorMove_panics_one_page :
    Bootstrapped 1 0x801ff000 [⟨0x80100018, 0x200000, 1 * pageSize⟩]
        (oneBlockWorld (1 * pageSize)) ∧
      ¬ HandsOver 1 [⟨0x80100018, 0x200000, 1 * pageSize⟩] (oneBlockWorld (1 * pageSize)) :=
  have hboot := oneBlockWorld_bootstrapped (k := 1) (by decide) (by decide)
  ⟨hboot, hboot.not_handsOver rfl⟩

end AimKernel
