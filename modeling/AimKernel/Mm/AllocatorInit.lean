import AimKernel.Mm.Unwind

/-!
# AimKernel.Mm.AllocatorInit

`allocator_init` ends in a state of the joint invariant.

The page allocator starts on nodes of the bootstrap allocator. The simple allocator
is opened over it, and `page_allocator_move` replaces the one node there is by an
object of the simple allocator; only then does the joint invariant hold.
-/

namespace AimKernel

open Machine

variable {w : World} {K : List Frame}

/-- Between the calls of its clients. -/
structure Ready (m : Machine) : Prop where
  ctl : m.ctl = .idle
  stack : m.stack = []
  coupled : ∃ plain ds bs, Coupled ⟨[], [], plain, []⟩ ds bs m.world ∧ Canon bs

/-- What the boot relies on: the bootstrap heap is part of the kernel image, and at
least three pages of low memory follow it. -/
structure Bootable (kernEnd simple1Start : Nat) : Prop where
  image : kernBase ≤ kernEnd ∧ kernEnd < 2 ^ 32
  heap : simple1Start + 0x8000 ≤ kernEnd
  room : alignAbove (kva2pa kernEnd) + 3 * pageSize ≤ lowramTop

namespace AllocatorInit

/-- Nothing has been handed out yet. -/
structure Blank (w : World) : Prop where
  live : w.live = []
  objs : w.objs = []
  pages : w.pages = []

variable {ctl : Ctl} {f : Frame} {n p : Nat} {pages : Pages} {b : Blk}

/-- A state with an uncritical frame on top is sound if its objects are. -/
theorem sound_of_registered (hlive : ∀ o ∈ w.live, Registered w.slab o)
    (hf : Coupled.Relies ⟨[], [], [], []⟩ [] f) : Sound ⟨w, ctl, f :: K⟩ := by
  refine ⟨hlive, ?_, ?_⟩
  · intro v size n stack _ hstack
    obtain ⟨rfl, -⟩ := List.cons.inj hstack
    obtain ⟨p, hp⟩ := hf
    exact absurd hp List.not_mem_nil
  · intro v pages i stack _ hstack
    obtain ⟨rfl, -⟩ := List.cons.inj hstack
    obtain ⟨b, hb, -⟩ := hf
    exact absurd hb List.not_mem_nil

theorem Blank.sound (h : Blank w) (hf : Coupled.Relies ⟨[], [], [], []⟩ [] f)
    : Sound ⟨w, ctl, f :: K⟩ := by
  refine sound_of_registered ?_ hf
  rw [h.live]
  exact fun o ho => absurd ho List.not_mem_nil

theorem runs_kmalloc_bootstrap {size : Nat} (hact : w.active = .bootstrap)
    (hsize : ¬ size > pageSize / 2) (hfit : ¬ w.top + size > w.bottom + w.ssize) :
    Runs ⟨w, .call (.kmalloc size), K⟩ ⟨{ w with top := w.top + size }, .ret w.top, K⟩ := by
  refine ⟨0, ?_⟩
  simp only [step, stepCall, kmalloc, if_neg hsize, hact, World.simpleAlloc, if_neg hfit, doRet]

theorem Blank.runs_pallocFree_first (h : Blank w) (hrep : w.pa.Rep []) (hn : n ≠ 0)
    (hbound : pages.paddr + pages.size < 2 ^ 64) :
    ∃ w', Runs ⟨w, .ret n, .pallocFree pages :: K⟩ ⟨w', .ret 0, K⟩ ∧ Blank w' ∧
      w'.pa.Rep [⟨n, pages.paddr, pages.size⟩] := by
  obtain ⟨res, hres, hspec⟩ :=
    Palloc.freeLink_spec (a := n) hrep (Nat.lt_succ_self _) (by simp) hbound (by simp)
  cases hspec with
  | merged hbs _ _ _ _ _ => exact absurd hbs (by simp)
  | @kept l r pa hbs _ _ _ hrep' _ =>
    obtain ⟨rfl, rfl⟩ := List.append_eq_nil_iff.mp hbs.symm
    have hmerge := Palloc.freeMerge_spec (l := []) (r := []) hrep' (by simpa using hbound)
    have hkept : pa.freeMerge (.node n) = .kept := by
      generalize pa.freeMerge (.node n) = res' at hmerge
      cases hmerge with
      | kept _ => rfl
      | merged hr _ _ _ => exact absurd hr (by simp)
    refine ⟨{ w with pa := pa.freeLeave pages }, ⟨1, ?_⟩, ⟨h.live, h.objs, h.pages⟩,
      hrep'.freeSize _⟩
    have hres' : w.pa.freeLink 1 (.node n) pages = some (.kept pa) := hres
    simp only [step, stepRet, pallocFreeRet, if_neg hn, hres', Machine.mergeNext, hkept, doRet]

theorem Blank.runs_pgalloc_carve (h : Blank w) (hg : Regular ⟨w, .call .pgalloc, K⟩)
    (hrep : w.pa.Rep [b]) (hlow : b.Low) (hsize : b.size ≠ pageSize) :
    ∃ w', Runs ⟨w, .call .pgalloc, K⟩ ⟨w', .ret b.paddr, K⟩ ∧ Blank w' ∧ w'.pa.Rep [b.carve] ∧
      w'.slab = w.slab ∧ w'.active = w.active := by
  obtain ⟨res, hres, ⟨rfl, -⟩ | ⟨c, rest, pa, heq, hrep', -, rfl⟩⟩ :=
    Palloc.allocEnter_onePage hrep (by simpa using hlow.toOK)
  · exact absurd ⟨rfl, _, hres⟩ hg.pages
  · cases heq
    rw [if_neg hsize] at hres
    rw [trim_more hsize] at hrep'
    exact ⟨_, Coupled.runs_pgalloc_carved hlow.page.lt_kernBase hres, ⟨h.live, h.objs, h.pages⟩,
      hrep'.freeSize _, rfl, rfl⟩

/-- The first object of the simple allocator needs a page. -/
theorem runs_kmalloc_first (hact : w.active = .slab) (hinv : w.slab.Inv []) :
    Runs ⟨w, .call (.kmalloc memBlockSize), K⟩
      ⟨w, .call .pgalloc, .allocPage memBlockSize .tail :: K⟩ := by
  obtain ⟨res, hres, hspec⟩ := Slab.allocEnter_spec memBlockSize hinv.rep (Nat.lt_succ_self _)
  have hsmall : ¬ memBlockSize > pageSize / 2 := by decide
  refine ⟨1, ?_⟩
  have hfull : w.slab.allocEnter 1 memBlockSize = some (.needPage memBlockSize .tail) := by
    cases hspec with
    | null h => exact absurd h (by decide)
    | slot _ _ hds _ _ => exact absurd hds (by simp)
    | unused _ _ hds _ _ _ => exact absurd hds (by simp)
    | full _ _ _ _ =>
      exact hres
  simp only [step, stepCall, kmalloc, if_neg hsmall, hact, hfull, doCall]

/-- The simple allocator is open, with the plain page at `n`. -/
structure Opened (w : World) (n : Nat) : Prop extends Blank w where
  active : w.active = .slab
  slab : w.slab.Inv []
  plain : w.slab.nowPlainPage = n
  offset : w.slab.offset = 0

/-- The first descriptor is stored at the start of the plain page. -/
theorem Opened.runs_allocPage_first {a : Nat} (h : Opened w n) (ha : a = pa2kva p)
    (hpage : KernPage a) (hplain : KernPage n) :
    ∃ o w' ds, Runs ⟨w, .ret p, .allocPage memBlockSize .tail :: K⟩ ⟨w', .ret o, K⟩ ∧
      Took w'.slab o memBlockSize (some a) [] ds ∧ a ≤ o ∧ w'.slab.nowPlainPage = n ∧
      (∀ d ∈ ds, d.node = n) ∧ w'.live = [o] ∧ w'.objs = [] ∧ w'.pages = [] ∧ w'.pa = w.pa ∧
      w'.active = .slab := by
  have hinv : Slab.Inv { w.slab with offset := 0 + allocedPageSize } [] :=
    ⟨h.slab.rep.plain rfl, h.slab.ok, h.slab.order⟩
  have htook := hinv.extend (n := n) hpage (by decide : memBlockSize ∈ friSize) (by simp)
    (by rintro ⟨d, hd, -⟩; exact absurd hd List.not_mem_nil)
  obtain ⟨i, hi, ho⟩ := htook.marks fun e he => List.mem_cons.mp he
  generalize htake : (Slab.take (.node n) memBlockSize (Slab.install (.node n) a memBlockSize
    (Slab.link (.node n) { w.slab with offset := 0 + allocedPageSize }))) = t at htook ho
  refine ⟨t.1, { w with slab := t.2, live := t.1 :: w.live }, _, ⟨0, ?_⟩, htook, ?_, ?_, ?_, ?_,
    h.objs, h.pages, rfl, h.active⟩
  · have hsmall : ¬ allocedPageSize > pageSize := by decide
    have hroom : 0 + allocedPageSize ≤ pageSize := by decide
    have hval : u32 (n + 0) = n := by
      have := hplain.high
      unfold u32
      exact Nat.mod_eq_of_lt (by omega)
    simp only [step, stepRet, allocPageRet, ← ha, if_neg hpage.ne_zero, Slab.allocPage, if_true,
      Slab.plainEnter, if_neg hsmall, h.offset, if_pos hroom, h.plain, hval, Slab.allocPlain,
      Slab.installTake, allocRet, doRet, ← htake]
  · rw [ho, Desc.taken_paddr, Desc.fresh_paddr]
    exact Nat.le_add_right _ _
  · show t.2.nowPlainPage = n
    rw [← htake, Slab.take_nowPlainPage, Slab.install_nowPlainPage, Slab.link_nowPlainPage]
    exact h.plain
  · intro d hd
    obtain rfl := List.mem_singleton.mp hd
    simp
  · show t.1 :: w.live = [t.1]
    rw [h.live]

/-- The books after the boot: the block `b` has given its first page to the
descriptors and its second one to the first object, its own node. -/
theorem coupled_first (hlow : b.Low) (hsize : 3 * pageSize ≤ b.size) {ds : List Desc}
    (hact : w.active = .slab) (hrep : w.pa.Rep [b.carve.carve])
    (htook : Took w.slab b.node memBlockSize (some (pa2kva b.carve.paddr)) [] ds)
    (hnow : w.slab.nowPlainPage = pa2kva b.paddr) (hstored : ∀ d ∈ ds, d.node = pa2kva b.paddr)
    (hlive : w.live = [b.node]) (hobjs : w.objs = []) (hpages : w.pages = []) :
    Coupled ⟨[], [], [b.paddr], []⟩ ds [b.carve.carve] w := by
  have hne1 : b.size ≠ pageSize := by
    unfold pageSize at *
    omega
  have hne2 : b.carve.size ≠ pageSize := by
    show b.size - pageSize ≠ pageSize
    unfold pageSize at *
    omega
  have hnone : ∀ a n, ¬ Holds [] a n := by
    rintro a n ⟨d, hd, -⟩
    exact absurd hd List.not_mem_nil
  have hunused : ∀ a, ¬ UsesPage [] a := by
    rintro a ⟨d, hd, -⟩
    exact absurd hd List.not_mem_nil
  have hbook0 : PageBook (UsesPage []) [b] [] :=
    ⟨by simpa using hlow, List.pairwise_singleton _ _, fun p _ hu => absurd hu (hunused _),
      by simp, List.nodup_nil⟩
  have hbook1 := hbook0.alloc
  rw [trim_more hne1] at hbook1
  have hbook2 := hbook1.alloc
  rw [trim_more hne2] at hbook2
  have hobj0 : ObjBook (Holds []) [] [] [] := by
    refine ⟨?_, List.nodup_nil, by simp, by simp, List.nodup_nil⟩
    intro a
    simp [hnone a]
  have hobj1 : ObjBook (Holds ds) [b.node] [] [b.node] :=
    (hobj0.add htook.fresh htook.holds).enlist ((htook.holds _ _).mpr (Or.inl ⟨rfl, rfl⟩))
  refine ⟨hact, htook.inv, hrep, ?_, ?_, ⟨?_, ?_, by simp, by simp, by simp⟩, by simp, by simp⟩
  · rw [hlive, hobjs]
    exact hobj1
  · rw [hpages]
    exact hbook2.give htook.pages
  · intro d hd
    refine ⟨b.paddr, by simp, ?_⟩
    rw [hstored d hd]
    exact ⟨le_refl _, Nat.lt_add_of_pos_right (by decide)⟩
  · exact ⟨b.paddr, by simp, hnow⟩

/-- The memory that the boot gives to the page allocator. -/
theorem initPages_low {kernEnd simple1Start : Nat} (h : Bootable kernEnd simple1Start) (n : Nat) :
    (⟨n, (initPages kernEnd).paddr, (initPages kernEnd).size⟩ : Blk).Low ∧
      3 * pageSize ≤ (initPages kernEnd).size ∧
      kernEnd ≤ (initPages kernEnd).paddr + kernBase := by
  obtain ⟨h1, h2⟩ := h.image
  have h3 := h.room
  have hval : kva2pa kernEnd = kernEnd - kernBase := by
    unfold kva2pa u32 kernBase at *
    omega
  unfold initPages
  dsimp only
  rw [hval] at h3 ⊢
  -- the first page boundary behind the image
  obtain ⟨base, hbase⟩ : ∃ base, base = alignAbove (kernEnd - kernBase) := ⟨_, rfl⟩
  have haligned : base % pageSize = 0 ∧ kernEnd ≤ base + kernBase := by
    rw [hbase]
    unfold alignAbove pageSize kernBase at *
    omega
  rw [← hbase] at h3 ⊢
  obtain ⟨h4, h5⟩ := haligned
  have hstop : (⟨n, base, lowramTop - base⟩ : Blk).stop = lowramTop := by
    show base + (lowramTop - base) = lowramTop
    omega
  refine ⟨⟨⟨?_, ?_, h4, ?_⟩, Nat.le_of_eq hstop⟩, by omega, h5⟩
  · show 0 < lowramTop - base
    unfold pageSize at h3
    omega
  · show (lowramTop - base) % pageSize = 0
    unfold pageSize lowramTop at *
    omega
  · rw [hstop]
    decide

/-! ### The steps of the boot itself -/

theorem runs_boot (v : Nat) (c : Call) (rest : List Call) :
    Runs ⟨w, .ret v, .boot (c :: rest) :: K⟩ ⟨w, .call c, .boot rest :: K⟩ := ⟨0, rfl⟩

theorem runs_boot_end (v : Nat) : Runs ⟨w, .ret v, .boot [] :: K⟩ ⟨w, .idle, K⟩ := ⟨0, rfl⟩

theorem runs_simpleAllocatorInit (h : Blank w) :
    ∃ w', Runs ⟨w, .call .simpleAllocatorInit, K⟩ ⟨w', .call .pgalloc, .initPlain :: K⟩ ∧
      Blank w' ∧ w'.pa = w.pa ∧ w'.slab.Inv [] :=
  ⟨{ w with slab := w.slab.initLinks }, ⟨0, rfl⟩, ⟨h.live, h.objs, h.pages⟩, rfl,
    Slab.initLinks_inv w.slab⟩

theorem runs_initPlain (hn : n = pa2kva p) (hp : IsFrame p) (h : Blank w) (hslab : w.slab.Inv []) :
    ∃ w', Runs ⟨w, .ret p, .initPlain :: K⟩ ⟨w', .ret 0, K⟩ ∧ Opened w' n ∧ w'.pa = w.pa := by
  refine ⟨{ w with slab := { w.slab with offset := 0, nowPlainPage := n }, active := .slab },
    ⟨0, ?_⟩, ⟨⟨h.live, h.objs, h.pages⟩, rfl, ⟨hslab.rep.plain rfl, hslab.ok, hslab.order⟩, rfl, rfl⟩,
    rfl⟩
  simp only [step, stepRet, initPlainRet, Slab.newPlainPage, if_neg hp.ne_addrError, doRet, hn]

theorem runs_pageAllocatorMove {bs : List Blk} (h : w.pa.Rep (b :: bs)) :
    Runs ⟨w, .call .pageAllocatorMove, K⟩
      ⟨w, .call (.kmalloc memBlockSize), .move (.node b.node) :: K⟩ := by
  have hnext : (w.pa.mem .head).next = .node b.node := h.linked.chained.1
  refine ⟨0, ?_⟩
  simp [step, stepCall, hnext, moveLoop, doCall]

theorem runs_move (h : w.pa.Rep [b]) (hn : n ≠ 0) (hne : b.node ≠ n) :
    ∃ pa, Runs ⟨w, .ret n, .move (.node b.node) :: K⟩ ⟨{ w with pa := pa }, .ret 0, K⟩ ∧
      pa.Rep [{ b with node := n }] := by
  obtain ⟨hrep, hnext⟩ := Palloc.moveNode_rep (l := []) (r := []) h (by simpa using hne)
  refine ⟨_, ⟨0, ?_⟩, hrep⟩
  have hnext' : ((w.pa.moveNode (.node b.node) (.node n)).mem (.node n)).next = .tail := hnext
  simp only [step, stepRet, moveRet, if_neg hn, hnext', moveLoop, if_true, doRet]

theorem unwinds_simpleAllocatorInit (hlow : b.Low) (hsize : 3 * pageSize ≤ b.size)
    (hnode : b.node < b.paddr + kernBase) (hrep : w.pa.Rep [b]) (h : Blank w) :
    Unwinds Ready ⟨w, .ret 0, [.boot [.simpleAllocatorInit, .pageAllocatorMove]]⟩ := by
  have hne1 : b.size ≠ pageSize := by
    unfold pageSize at *
    omega
  have hne2 : b.carve.size ≠ pageSize := by
    show b.size - pageSize ≠ pageSize
    unfold pageSize at *
    omega
  have hlow2 := hlow.carve hne1
  refine .next (h.sound trivial) (runs_boot _ _ _) ?_
  -- `simple_allocator_init` takes the first page
  obtain ⟨w1, hruns1, h1, hpa1, hslab1⟩ := runs_simpleAllocatorInit h
  refine .next (h.sound trivial) hruns1 (Leads.guarded (h1.sound trivial) ?_)
  intro hg1
  rw [← hpa1] at hrep
  obtain ⟨w2, hruns2, h2, hrep2, hslab2, -⟩ := h1.runs_pgalloc_carve hg1 hrep hlow hne1
  rw [← hslab2] at hslab1
  obtain ⟨w3, hruns3, h3, hpa3⟩ := runs_initPlain rfl hlow.page h2 hslab1
  refine ⟨_, hruns2, .next (h2.sound trivial) hruns3 (.next (h3.sound trivial) (runs_boot _ _ _) ?_)⟩
  -- `page_allocator_move` takes the second one, for the new node
  rw [← hpa3] at hrep2
  refine .next (h3.sound trivial) (runs_pageAllocatorMove hrep2) ?_
  refine .next (h3.sound trivial) (runs_kmalloc_first h3.active h3.slab) ?_
  refine Leads.guarded (h3.sound trivial) ?_
  intro hg3
  obtain ⟨w4, hruns4, h4, hrep4, hslab4, hact4⟩ := h3.runs_pgalloc_carve hg3 hrep2 hlow2 hne2
  have hopen : Opened w4 (pa2kva b.paddr) :=
    ⟨h4, hact4.trans h3.active, by rw [hslab4]; exact h3.slab, by rw [hslab4]; exact h3.plain,
      by rw [hslab4]; exact h3.offset⟩
  obtain ⟨o, w5, ds, hruns5, htook, hle, hnow, hstored, hlive, hobjs, hpages, hpa5, hact5⟩ :=
    hopen.runs_allocPage_first rfl hlow2.page.kern hlow.page.kern
  refine ⟨_, hruns4, .next (h4.sound trivial) hruns5 ?_⟩
  rw [← hpa5] at hrep4
  have hold : b.node < o := by
    have h1 : b.carve.paddr = b.paddr + pageSize := rfl
    rw [pa2kva_eq hlow2.page.lt_kernBase] at hle
    omega
  obtain ⟨pa, hruns6, hrep6⟩ := runs_move hrep4 (n := o) (by omega) (Nat.ne_of_lt hold)
  have hc := coupled_first (b := { b with node := o }) (w := { w5 with pa := pa })
    ⟨⟨hlow.pos, hlow.size_mul, hlow.aligned, hlow.bound⟩, hlow.low⟩ hsize hact5 hrep6 htook hnow
    hstored hlive hobjs hpages
  have hreg : ∀ o ∈ w5.live, Registered w5.slab o := hc.registered
  refine .next (sound_of_registered hreg trivial) hruns6 ?_
  refine .next (sound_of_registered hc.registered trivial) (runs_boot_end _) (.done ?_)
  exact ⟨rfl, rfl, _, ds, _, hc, List.pairwise_singleton _ _⟩

end AllocatorInit

open AllocatorInit in
/-- **`allocator_init` unwinds.** -/
theorem unwinds_allocatorInit {kernEnd simple1Start : Nat} (h : Bootable kernEnd simple1Start)
    (pa : Palloc) (slab : Slab) :
    Unwinds Ready (allocatorInit kernEnd simple1Start pa slab) := by
  obtain ⟨hlow, hsize, hend⟩ := initPages_low h (simple1Start + pagesSize)
  have hheap := h.heap
  unfold allocatorInit
  generalize initPages kernEnd = P at hlow hsize hend
  -- `init_free_pages`, on the bootstrap allocator
  have hfit1 : ¬ simple1Start + pagesSize > simple1Start + 0x8000 := by
    unfold pagesSize
    omega
  have hfit2 : ¬ simple1Start + pagesSize + memBlockSize > simple1Start + 0x8000 := by
    unfold pagesSize memBlockSize
    omega
  have hblank : ∀ top, Blank
      { pa := pa.pageAllocatorInit, slab := slab, top := top, bottom := simple1Start, ssize := 0x8000
        active := .bootstrap, live := [], objs := [], pages := [] } := fun _ => ⟨rfl, rfl, rfl⟩
  refine .next ((hblank _).sound trivial) (runs_kmalloc_bootstrap rfl (by decide) hfit1) ?_
  refine .next ((hblank _).sound trivial) (runs_boot _ _ _) ?_
  refine .next ((hblank _).sound trivial) (Coupled.runs_freePages hlow.size_mul) ?_
  refine .next ((hblank _).sound trivial) (runs_kmalloc_bootstrap rfl (by decide) hfit2) ?_
  obtain ⟨w1, hruns1, hblank1, hrep1⟩ :=
    (hblank (simple1Start + pagesSize + memBlockSize)).runs_pallocFree_first
      (n := simple1Start + pagesSize) (Palloc.pageAllocatorInit_rep pa)
      (by unfold pagesSize; omega) hlow.bound
  refine .next ((hblank _).sound trivial) hruns1 ?_
  refine unwinds_simpleAllocatorInit hlow hsize ?_ hrep1 hblank1
  unfold pagesSize
  dsimp only
  omega

end AimKernel
