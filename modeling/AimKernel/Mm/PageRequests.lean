import AimKernel.Lib.Wp
import AimKernel.Mm.Frames
import AimKernel.Mm.PallocCanonical

/-!
# AimKernel.Mm.PageRequests

`alloc_pages` and `free_pages` of `kern/mm/pmm/pmm.c` over the page allocator, with the
memory they fill.

Both wrap the allocator in a call of `pmemset`, and neither asks whether the allocator
takes the request: `alloc_pages` clears `pages->paddr` even if the allocator has just
refused, and `free_pages` fills in junk before the allocator looks at the size. The loop
of `pmemset` counts an unsigned size down in steps of a page, so on a size that is no
multiple it passes zero and never ends (`pmemset_diverges`).

`Untouched` says what should hold of rejected and accepted requests; it does exactly if
the request is `Harmless`.
-/

namespace AimKernel

/-- The page allocator and memory. -/
structure PageSys where
  sys : PallocSys
  mem : Mem

namespace PageSys

/-! ### The functions -/

/-- `pmemset`. -/
def pmemset (b : UInt8) (fuel paddr size : Nat) (m : Mem) : Option Mem :=
  if size > 0 then
    match fuel with
    | 0 => none
    | fuel + 1 =>
      pmemset b fuel (add64 paddr pageSize) (sub64 size pageSize)
        (m.fill (pa2kva paddr) b pageSize)
  else some m

/-- `alloc_pages` of a request other than `NULL`: the return value and the request as the
call leaves it. -/
def allocPages (fuel : Nat) (pages : Pages) (s : PageSys) : Option (Int × Pages × PageSys) :=
  match s.sys.alloc fuel pages with
  | none => none
  | some (result, pages, sys) =>
    if pages.flags &&& gfpZero ≠ 0 then
      match pmemset 0 fuel pages.paddr pages.size s.mem with
      | none => none
      | some m => some (result, pages, ⟨sys, m⟩)
    else some (result, pages, ⟨sys, s.mem⟩)

/-- `free_pages`, with `node` the answer of the allocator's `kmalloc`. -/
def freePages (fuel node : Nat) (pages : Pages) (s : PageSys) : Option PageSys :=
  match if pages.flags &&& gfpUnsafe = 0 then
      pmemset junkbyte fuel pages.paddr pages.size s.mem else some s.mem with
  | none => none
  | some m =>
    match s.sys.free fuel node pages with
    | none => none
    | some sys => some ⟨sys, m⟩

/-! ### `pmemset` -/

/-- The pages of a block, one after the other. -/
theorem fillBlock_succ (m : Mem) (paddr : Nat) (b : UInt8) (n : Nat) :
    fillBlock m paddr b ((n + 1) * pageSize) =
      fillBlock (m.fill (pa2kva paddr) b pageSize) (paddr + pageSize) b (n * pageSize) := by
  have hpos : 0 < pageSize := by decide
  unfold fillBlock block
  rw [Nat.mul_div_cancel _ hpos, Nat.mul_div_cancel _ hpos, List.range_succ_eq_map, List.map_cons,
    List.foldl_cons, List.map_map, Nat.zero_mul, Nat.add_zero]
  congr 1
  refine List.map_congr_left fun i _ => ?_
  simp only [Function.comp_apply, Nat.succ_eq_add_one, Nat.add_mul, Nat.one_mul]
  omega

theorem fillBlock_add64 (m : Mem) (paddr : Nat) (b : UInt8) (size : Nat) :
    fillBlock m (add64 paddr pageSize) b size = fillBlock m (paddr + pageSize) b size := by
  have hwrap : ∀ i, pa2kva (add64 paddr pageSize + i * pageSize) =
      pa2kva (paddr + pageSize + i * pageSize) := by
    unfold pa2kva u32 add64
    omega
  unfold fillBlock block
  simp only [List.foldl_map, hwrap]

theorem pmemset_pages {b : UInt8} {n fuel paddr : Nat} {m : Mem} (hn : n ≤ fuel)
    (hlt : n * pageSize < 2 ^ 64) :
    pmemset b fuel paddr (n * pageSize) m = some (fillBlock m paddr b (n * pageSize)) := by
  induction n generalizing fuel paddr m with
  | zero =>
    rw [pmemset.eq_def, Nat.zero_mul, if_neg (by omega)]
    rfl
  | succ n ih =>
    obtain ⟨fuel, rfl⟩ : ∃ f, fuel = f + 1 := ⟨fuel - 1, by omega⟩
    have hpos : 0 < (n + 1) * pageSize := Nat.mul_pos (Nat.succ_pos n) (by decide)
    have hsub : sub64 ((n + 1) * pageSize) pageSize = n * pageSize := by
      rw [Nat.add_mul, Nat.one_mul] at hlt ⊢
      rw [sub64_eq (Nat.le_add_left _ _) hlt, Nat.add_sub_cancel]
    rw [pmemset, if_pos hpos, hsub, ih (by omega) (by rw [Nat.add_mul] at hlt; omega),
      fillBlock_add64, fillBlock_succ]

theorem pmemset_returns (b : UInt8) (paddr : Nat) {size : Nat} (m : Mem) (hsize : size % pageSize = 0)
    (hlt : size < 2 ^ 64) :
    Returns (fun fuel => pmemset b fuel paddr size m) (fillBlock m paddr b size) := by
  have hmul : size / pageSize * pageSize = size := Nat.div_mul_cancel (Nat.dvd_of_mod_eq_zero hsize)
  refine ⟨size / pageSize, fun fuel hf => ?_⟩
  have := @pmemset_pages b _ _ paddr m hf (by rw [hmul]; exact hlt)
  rwa [hmul] at this

/-- A size that is no multiple of the page size is never counted down to zero: `2 ^ 64`
is one. -/
theorem pmemset_diverges {b : UInt8} {fuel paddr size : Nat} {m : Mem}
    (hsize : size % pageSize ≠ 0) : pmemset b fuel paddr size m = none := by
  have hpos : 0 < size := Nat.pos_of_ne_zero (by rintro rfl; exact hsize rfl)
  induction fuel generalizing paddr size m with
  | zero => rw [pmemset.eq_def, if_pos hpos]
  | succ fuel ih =>
    have hnext : sub64 size pageSize % pageSize ≠ 0 := by
      unfold sub64 pageSize at *
      omega
    rw [pmemset, if_pos hpos]
    exact ih hnext (Nat.pos_of_ne_zero fun h => hnext (by rw [h]; rfl))

/-- Filling a block of the linear mapping sets exactly its bytes. -/
theorem fillBlock_eq_fill (m : Mem) {paddr size : Nat} (b : UInt8) (hsize : size % pageSize = 0)
    (hlow : paddr + size ≤ kernBase) :
    fillBlock m paddr b size = m.fill (pa2kva paddr) b size := by
  funext x
  rw [fillBlock_apply]
  unfold Mem.fill
  by_cases hzero : size = 0
  · subst hzero
    rw [if_neg, if_neg (by omega)]
    rintro ⟨f, hf, -⟩
    simp [block] at hf
  have hkva : ∀ i, i < size / pageSize → pa2kva (paddr + i * pageSize) = paddr + kernBase + i * pageSize := by
    intro i hi
    rw [pa2kva_eq]
    · omega
    · unfold pageSize at *
      omega
  have hbase : pa2kva paddr = paddr + kernBase := pa2kva_eq (by omega)
  refine if_congr ?_ rfl rfl
  constructor
  · rintro ⟨f, hf, hlo, hhi⟩
    obtain ⟨i, hi, rfl⟩ := List.mem_map.mp hf
    rw [List.mem_range] at hi
    rw [hkva i hi] at hlo hhi
    unfold pageSize at *
    omega
  · rintro ⟨hlo, hhi⟩
    have hi : (x - (paddr + kernBase)) / pageSize < size / pageSize := by
      unfold pageSize at *
      omega
    refine ⟨_, List.mem_map.mpr ⟨_, List.mem_range.mpr hi, rfl⟩, ?_⟩
    rw [hkva _ hi]
    unfold pageSize at *
    omega

/-! ### Rejected and accepted requests -/

/-- What should hold of a request and its block: if the allocator refuses it, the call
returns and nothing has changed; if not, the call fills exactly the bytes of the block, or
none. -/
structure Untouched (s : PageSys) (pages : Pages) : Prop where
  allocRejected : ∀ {ret pages' sys'}, ret < 0 →
    Returns (fun fuel => s.sys.alloc fuel pages) (ret, pages', sys') →
    Returns (fun fuel => s.allocPages fuel pages) (ret, pages', s)
  allocAccepted : ∀ {pages' sys'},
    Returns (fun fuel => s.sys.alloc fuel pages) (0, pages', sys') →
    Returns (fun fuel => s.allocPages fuel pages) (0, pages', ⟨sys',
      if pages.flags &&& gfpZero ≠ 0 then s.mem.fill (pa2kva pages'.paddr) 0 pages'.size
      else s.mem⟩)
  freeRejected : pages.size % pageSize ≠ 0 → ∀ node,
    Returns (fun fuel => s.freePages fuel node pages) s
  freeAccepted : pages.size % pageSize = 0 → pages.paddr + pages.size ≤ kernBase →
    ∀ {node sys'}, Returns (fun fuel => s.sys.free fuel node pages) sys' →
    Returns (fun fuel => s.freePages fuel node pages) ⟨sys',
      if pages.flags &&& gfpUnsafe = 0 then s.mem.fill (pa2kva pages.paddr) junkbyte pages.size
      else s.mem⟩

/-- The allocator has a block for the request. -/
def Fits (s : PageSys) (bs : List Blk) (pages : Pages) : Prop :=
  pages.size % pageSize = 0 ∧ pages.size ≤ s.sys.pa.freeSize ∧ ∃ b ∈ bs, pages.size ≤ b.size

/-- The pages of the block that the request names on entry hold zeroes only. -/
def Zeroed (s : PageSys) (pages : Pages) : Prop :=
  ∀ f ∈ block pages.paddr pages.size, ∀ x, pa2kva f ≤ x → x < pa2kva f + pageSize → s.mem x = 0

/-- A request that does no harm: it does not ask for zeroes, or the allocator has a block
for it, or what would be cleared is a number of whole pages and clear already; and if its
size is no multiple of the page size, it asks not to fill in junk. -/
def Harmless (s : PageSys) (bs : List Blk) (pages : Pages) : Prop :=
  (pages.flags &&& gfpZero = 0 ∨ s.Fits bs pages ∨
    pages.size % pageSize = 0 ∧ s.Zeroed pages) ∧
  (pages.size % pageSize = 0 ∨ pages.flags &&& gfpUnsafe ≠ 0)

variable {s : PageSys} {bs : List Blk} {pages : Pages}

theorem alloc_outcome (pages : Pages) (h : s.sys.pa.Rep bs) (hlow : ∀ b ∈ bs, b.stop ≤ kernBase) :
    (¬ s.Fits bs pages ∧ Returns (fun fuel => s.sys.alloc fuel pages) (-1, pages, s.sys)) ∨
      ∃ b ∈ bs, ∃ sys', s.Fits bs pages ∧ pages.size ≤ b.size ∧
        Returns (fun fuel => s.sys.alloc fuel pages) (0, { pages with paddr := b.paddr }, sys') := by
  have hbounds : ∀ b ∈ bs, b.paddr + b.size < 2 ^ 64 := by
    intro b hb
    have hstop := hlow b hb
    unfold Blk.stop kernBase at hstop
    omega
  obtain ⟨step, hstep, hres⟩ := Palloc.allocEnter_spec pages h (Nat.lt_succ_self bs.length) hbounds
  have hreturns : ∀ {out}, s.sys.alloc (bs.length + 1) pages = some out →
      Returns (fun fuel => s.sys.alloc fuel pages) out :=
    fun hout => ⟨bs.length + 1, fun fuel hle => PallocSys.alloc_mono hout hle⟩
  cases hres with
  | reject hwhy =>
    refine .inl ⟨?_, hreturns (by rw [PallocSys.alloc, hstep])⟩
    rintro ⟨hmul, hfree, b, hb, hle⟩
    rcases hwhy with hne | hlt | hsmall
    · exact hne hmul
    · omega
    · have := hsmall b hb
      omega
  | @carved l r b s' hbs hmul hfree hl hlt =>
    have hb : b ∈ bs := by simp [hbs]
    exact .inr ⟨b, hb, _, ⟨hmul, hfree, b, hb, le_of_lt hlt⟩, le_of_lt hlt,
      hreturns (by rw [PallocSys.alloc, hstep])⟩
  | @emptied l r b s' hbs hmul hfree hl heq =>
    have hb : b ∈ bs := by simp [hbs]
    exact .inr ⟨b, hb, _, ⟨hmul, hfree, b, hb, le_of_eq heq⟩, le_of_eq heq,
      hreturns (by rw [PallocSys.alloc, hstep])⟩

/-- `alloc_pages` returns what the allocator does, with the block cleared on request. -/
theorem allocPages_returns {ret : Int} {pages' : Pages} {sys' : PallocSys}
    (hrun : Returns (fun fuel => s.sys.alloc fuel pages) (ret, pages', sys'))
    (hmul : pages'.flags &&& gfpZero ≠ 0 → pages'.size % pageSize = 0 ∧ pages'.size < 2 ^ 64) :
    Returns (fun fuel => s.allocPages fuel pages) (ret, pages', ⟨sys',
      if pages'.flags &&& gfpZero ≠ 0 then fillBlock s.mem pages'.paddr 0 pages'.size
      else s.mem⟩) := by
  obtain ⟨n, hn⟩ := hrun
  by_cases hzero : pages'.flags &&& gfpZero ≠ 0
  · obtain ⟨hsize, hlt⟩ := hmul hzero
    obtain ⟨k, hk⟩ := pmemset_returns 0 pages'.paddr s.mem hsize hlt
    refine ⟨max n k, fun fuel hle => ?_⟩
    have halloc := hn fuel (le_trans (le_max_left _ _) hle)
    have hfill := hk fuel (le_trans (le_max_right _ _) hle)
    dsimp only at halloc hfill ⊢
    rw [allocPages, halloc]
    dsimp only
    rw [if_pos hzero, hfill, if_pos hzero]
  · refine ⟨n, fun fuel hle => ?_⟩
    have halloc := hn fuel hle
    dsimp only at halloc ⊢
    rw [allocPages, halloc]
    dsimp only
    rw [if_neg hzero, if_neg hzero]

/-- `free_pages` does what the allocator does, with junk filled in before. -/
theorem freePages_returns {node : Nat} {sys' : PallocSys}
    (hrun : Returns (fun fuel => s.sys.free fuel node pages) sys')
    (hmul : pages.flags &&& gfpUnsafe = 0 → pages.size % pageSize = 0 ∧ pages.size < 2 ^ 64) :
    Returns (fun fuel => s.freePages fuel node pages) ⟨sys',
      if pages.flags &&& gfpUnsafe = 0 then fillBlock s.mem pages.paddr junkbyte pages.size
      else s.mem⟩ := by
  obtain ⟨n, hn⟩ := hrun
  by_cases hunsafe : pages.flags &&& gfpUnsafe = 0
  · obtain ⟨hsize, hlt⟩ := hmul hunsafe
    obtain ⟨k, hk⟩ := pmemset_returns junkbyte pages.paddr s.mem hsize hlt
    refine ⟨max n k, fun fuel hle => ?_⟩
    have hfree := hn fuel (le_trans (le_max_left _ _) hle)
    have hfill := hk fuel (le_trans (le_max_right _ _) hle)
    dsimp only at hfree hfill ⊢
    rw [freePages, if_pos hunsafe, hfill]
    rw [hfree, if_pos hunsafe]
  · refine ⟨n, fun fuel hle => ?_⟩
    have hfree := hn fuel hle
    dsimp only at hfree ⊢
    rw [freePages, if_neg hunsafe]
    rw [hfree, if_neg hunsafe]

theorem Zeroed.fillBlock_eq (h : s.Zeroed pages) :
    fillBlock s.mem pages.paddr 0 pages.size = s.mem := by
  funext x
  rw [fillBlock_apply]
  split
  · next hx =>
    obtain ⟨f, hf, hlo, hhi⟩ := hx
    exact (h f hf x hlo hhi).symm
  · rfl

theorem zeroed_of_fillBlock (h : fillBlock s.mem pages.paddr 0 pages.size = s.mem) :
    s.Zeroed pages := by
  intro f hf x hlo hhi
  rw [← h, fillBlock_apply, if_pos ⟨f, hf, hlo, hhi⟩]

/-- `free` gives up on a size that is no multiple of the page size. -/
theorem free_rejected (s : PageSys) (hmul : pages.size % pageSize ≠ 0) (node : Nat) :
    Returns (fun fuel => s.sys.free fuel node pages) s.sys := by
  refine ⟨0, fun fuel _ => ?_⟩
  unfold PallocSys.free Palloc.freeEnter
  rw [if_pos hmul]
  rfl

/-! ### Behind the interface

The modules above the allocator know it by the answers it gives (`Phys`, with the calls of
`AimKernel.Mm.Frames`). Whatever the allocator does here is one of those answers. -/

section Interface

variable {p : Phys} {f paddr size fuel : Nat} {b : UInt8}

theorem pmemset_iff {m : Mem} (hlt : size < 2 ^ 64) :
    Returns (fun fuel => pmemset b fuel paddr size p.mem) m ↔
      AimKernel.pmemset paddr b size p = .ok ((), { p with mem := m }) := by
  by_cases hsize : size % pageSize = 0
  · have hfill := pmemset_returns b paddr p.mem hsize hlt
    have hok : AimKernel.pmemset paddr b size p =
        .ok ((), { p with mem := fillBlock p.mem paddr b size }) := by
      rw [AimKernel.pmemset, if_neg (not_not.mpr hsize)]
      rfl
    rw [hok]
    constructor
    · intro h
      rw [h.unique hfill]
    · intro h
      obtain rfl : fillBlock p.mem paddr b size = m :=
        congrArg (fun out => out.2.mem) (Except.ok.inj h)
      exact hfill
  · rw [AimKernel.pmemset, if_pos hsize]
    constructor
    · rintro ⟨n, hn⟩
      have h := hn n (le_refl n)
      dsimp only at h
      rw [pmemset_diverges hsize] at h
      cases h
    · intro h
      cases h

/-- What the interface shows of the allocator: the memory, and frames handed out of which
none is free. -/
structure Shows (s : PageSys) (bs : List Blk) (p : Phys) : Prop where
  inv : s.sys.Inv bs
  mem : p.mem = s.mem
  low : ∀ x ∈ freeBytes bs, x < lowramTop
  frames : ∀ f ∈ p.frames, IsFrame f ∧ f ∉ freeBytes bs
  nodup : p.frames.Nodup

theorem mem_block_page (halign : paddr % pageSize = 0) (hf : f ∈ block paddr size) :
    paddr ≤ f ∧ PageBelow (paddr + size) f := by
  obtain ⟨i, hi, rfl⟩ := List.mem_map.mp hf
  rw [List.mem_range] at hi
  unfold pageSize at *
  refine ⟨by omega, ?_, ?_⟩
  · unfold pageSize
    omega
  · unfold pageSize
    omega

/-- The page of an address in the block is one of the block's. -/
theorem mem_block_of_byte (halign : paddr % pageSize = 0) (hmul : size % pageSize = 0) {x : Nat}
    (hlo : paddr ≤ x) (hhi : x < paddr + size) : x / pageSize * pageSize ∈ block paddr size := by
  refine List.mem_map.mpr ⟨(x - paddr) / pageSize, ?_, ?_⟩
  · rw [List.mem_range]
    unfold pageSize at *
    omega
  · unfold pageSize at *
    omega

theorem Shows.fill (h : s.Shows bs p) (m : Mem) :
    Shows ⟨s.sys, m⟩ bs { p with mem := m } :=
  ⟨h.inv, rfl, h.low, h.frames, h.nodup⟩

theorem Shows.wp_alloc {ret : Int} {pages' : Pages} {sys' : PallocSys} (h : s.Shows bs p)
    (hpos : 0 < pages.size) (hrun : s.sys.alloc fuel pages = some (ret, pages', sys')) :
    ∃ answer bs', wp (allocatorAlloc pages)
      (fun out p' => out = (ret, pages') ∧ Shows ⟨sys', s.mem⟩ bs' p')
      { p with supply := answer :: p.supply } := by
  cases h.inv.alloc_run hpos hrun with
  | reject =>
    refine ⟨none, bs, ?_⟩
    simp only [allocatorAlloc, wp_bind, wp_get, Phys.answer, pageAnswer, wp_set, wp_pure,
      List.head?_cons, List.tail_cons, true_and]
    exact h
  | @accept l r b _ bs' hbs hmul _ hle hinv hpart =>
    have hb : b ∈ bs := by simp [hbs]
    have halign := (h.inv.ok b hb).aligned
    have hpart' := hpart [] _ (by rw [List.append_nil]; exact h.inv.separated.partition)
    have hsub : ∀ x ∈ freeBytes bs', x ∈ freeBytes bs := fun x hx =>
      (hpart'.covers x).mp (covered_append.mpr (.inl hx))
    have hblock : ∀ g ∈ block b.paddr pages.size, IsFrame g ∧ g ∈ freeBytes bs ∧ g ∉ freeBytes bs' := by
      intro g hg
      obtain ⟨hlo, hpage⟩ := mem_block_page halign hg
      have hbound := hpage.bound
      have hin : ∀ x, b.paddr ≤ x → x < b.paddr + pages.size → x ∈ freeBytes bs := fun x h1 h2 =>
        ⟨_, List.mem_map_of_mem hb, h1, lt_of_lt_of_le h2 (Nat.add_le_add_left hle _)⟩
      have hlast := h.low (g + pageSize - 1) (hin _ (by unfold pageSize; omega)
        (by unfold pageSize at *; omega))
      refine ⟨⟨hpage.aligned, by unfold pageSize at *; omega⟩, hin g hlo hpage.lt, ?_⟩
      rintro ⟨q, hq, hgq⟩
      exact Set.disjoint_left.mp ((List.pairwise_append.mp hpart'.disjoint).2.2 q hq _
        (List.mem_singleton_self _)) hgq ⟨hlo, hpage.lt⟩
    have hnew : ∀ g ∈ block b.paddr pages.size, IsFrame g ∧ g ∉ p.frames := fun g hg =>
      ⟨(hblock g hg).1, fun hmem => (h.frames g hmem).2 (hblock g hg).2.1⟩
    have hanswer : pageAnswer (some b.paddr :: p.supply) p.frames pages.size = some b.paddr :=
      if_pos ⟨hmul, hnew⟩
    refine ⟨some b.paddr, bs', ?_⟩
    simp only [allocatorAlloc, wp_bind, wp_get, Phys.answer, hanswer, wp_set, wp_pure, true_and]
    refine ⟨hinv, h.mem, fun x hx => h.low x (hsub x hx), ?_, ?_⟩
    · intro g hg
      rcases List.mem_append.mp hg with hg | hg
      · exact ⟨(hblock g hg).1, (hblock g hg).2.2⟩
      · exact ⟨(h.frames g hg).1, fun hfree => (h.frames g hg).2 (hsub g hfree)⟩
    · exact List.nodup_append.mpr ⟨block_nodup _ _, h.nodup, fun a ha c hc hac =>
        (hnew a ha).2 (hac ▸ hc)⟩

/-- The allocator's answer to `alloc_pages`, given through the interface, has the same
outcome. -/
theorem Shows.wp_allocPages {ret : Int} {pages' : Pages} {s' : PageSys} (h : s.Shows bs p)
    (hpos : 0 < pages.size) (hlt : pages.size < 2 ^ 64)
    (hrun : Returns (fun fuel => s.allocPages fuel pages) (ret, pages', s')) :
    ∃ answer bs', wp (AimKernel.allocPages pages)
      (fun out p' => out = (ret, pages') ∧ s'.Shows bs' p')
      { p with supply := answer :: p.supply } := by
  obtain ⟨⟨ret₁, pages₁, sys₁⟩, halloc, hspec⟩ :=
    PallocSys.alloc_spec h.inv (bs.length + 1) hpos (Nat.lt_succ_self _)
  have hreturns : Returns (fun fuel => s.sys.alloc fuel pages) (ret₁, pages₁, sys₁) :=
    ⟨_, fun fuel hf => PallocSys.alloc_mono halloc hf⟩
  have hsize : pages₁.size = pages.size := by
    cases hspec with
    | reject => rfl
    | accept => rfl
  have hmul : pages₁.flags &&& gfpZero ≠ 0 → pages₁.size % pageSize = 0 := by
    intro hzero
    by_contra hne
    obtain ⟨n, hn⟩ := hrun
    obtain ⟨k, hk⟩ := hreturns
    have hout := hn (max n k) (le_max_left _ _)
    have hin := hk (max n k) (le_max_right _ _)
    dsimp only at hout hin
    rw [allocPages, hin] at hout
    dsimp only at hout
    rw [if_pos hzero, pmemset_diverges hne] at hout
    cases hout
  obtain ⟨rfl, hout⟩ := Prod.mk.inj
    (hrun.unique (allocPages_returns hreturns fun hc => ⟨hmul hc, hsize ▸ hlt⟩))
  obtain ⟨rfl, rfl⟩ := Prod.mk.inj hout
  obtain ⟨answer, bs', hshows⟩ := h.wp_alloc hpos halloc
  refine ⟨answer, bs', ?_⟩
  rw [AimKernel.allocPages, wp_bind]
  refine wp_mono hshows ?_
  rintro _ p' ⟨rfl, hp'⟩
  dsimp only
  by_cases hzero : pages'.flags &&& gfpZero ≠ 0
  · have hfill := pmemset_returns 0 pages'.paddr p'.mem (hmul hzero) (hsize ▸ hlt)
    rw [if_pos hzero, wp_bind, if_pos hzero]
    refine wp_of_run ((pmemset_iff (hsize ▸ hlt)).mp hfill) (wp_pure.mpr ⟨rfl, ?_⟩)
    rw [hp'.mem]
    exact hp'.fill _
  · rw [if_neg hzero, if_neg hzero]
    exact wp_pure.mpr ⟨rfl, hp'⟩

/-- A free block shares no page with one that is handed out: the first page that it shared would
be free and handed out. -/
theorem Shows.apart (h : s.Shows bs p) (hpages : Ledger.WholePages pages)
    (hheld : ∀ f ∈ block pages.paddr pages.size, f ∈ p.frames) :
    ∀ c ∈ bs, pages.paddr + pages.size ≤ c.paddr ∨ c.stop ≤ pages.paddr := by
  intro c hc
  by_contra hnot
  obtain ⟨h1, h2⟩ := not_or.mp hnot
  obtain ⟨-, hcmul, hcalign, -⟩ := h.inv.ok c hc
  have hpage : max c.paddr pages.paddr / pageSize * pageSize = max c.paddr pages.paddr := by
    have := hpages.aligned
    unfold pageSize at *
    omega
  have hmem := mem_block_of_byte hpages.aligned hpages.size_mul (le_max_right c.paddr pages.paddr)
    (max_lt (not_le.mp h1) (Nat.lt_add_of_pos_right hpages.pos))
  rw [hpage] at hmem
  refine (h.frames _ (hheld _ hmem)).2 ⟨_, List.mem_map_of_mem hc, le_max_left _ _, ?_⟩
  show max c.paddr pages.paddr < c.stop
  have := (h.inv.ok c hc).pos
  unfold Blk.stop at *
  omega

theorem Shows.apart_bytes (h : s.Shows bs p) (hpages : Ledger.WholePages pages)
    (hheld : ∀ f ∈ block pages.paddr pages.size, f ∈ p.frames) :
    Disjoint (Ledger.region pages).bytes (freeBytes bs) := by
  rw [Set.disjoint_left]
  rintro x hx ⟨_, hr, hxr⟩
  obtain ⟨c, hc, rfl⟩ := List.mem_map.mp hr
  exact Set.disjoint_left.mp ((Region.disjoint_iff (a := Ledger.region pages) (b := c.region)
    hpages.pos (h.inv.ok c hc).pos).mpr (h.apart hpages hheld c hc)) hx hxr

/-- The frames of a block are taken off the list, when the allocator has it back and the memory
has been filled. -/
theorem Shows.wp_free {sys' : PallocSys} {bs' : List Blk} (h : s.Shows bs p)
    (hpages : Ledger.WholePages pages) (hheld : ∀ f ∈ block pages.paddr pages.size, f ∈ p.frames)
    (hinv : sys'.Inv bs')
    (hbytes : ∀ x ∈ freeBytes bs', x ∈ (Ledger.region pages).bytes ∨ x ∈ freeBytes bs) (m : Mem) :
    wp (allocatorFree pages p.mem) (fun _ p' => Shows ⟨sys', m⟩ bs' p') { p with mem := m } := by
  simp only [allocatorFree, wp_bind, wp_get, if_pos hheld, wp_set]
  refine ⟨hinv, rfl, ?_, ?_, h.nodup.diff⟩
  · intro x hx
    rcases hbytes x hx with ⟨hlo, hhi⟩ | hin
    · have hframe := (h.frames _ (hheld _
        (mem_block_of_byte hpages.aligned hpages.size_mul hlo hhi))).1.bound
      unfold pageSize at hframe
      omega
    · exact h.low x hin
  · intro f hf
    rw [h.nodup.mem_sdiff_iff] at hf
    obtain ⟨hframe, hused⟩ := h.frames f hf.1
    refine ⟨hframe, fun hfree => ?_⟩
    rcases hbytes f hfree with ⟨hlo, hhi⟩ | hin
    · have hpage := mem_block_of_byte hpages.aligned hpages.size_mul hlo hhi
      rw [Nat.div_mul_cancel (Nat.dvd_of_mod_eq_zero hframe.aligned)] at hpage
      exact hf.2 hpage
    · exact hused hin

/-- So has giving back pages that are handed out. -/
theorem Shows.wp_freePages {node : Nat} {s' : PageSys} (h : s.Shows bs p)
    (hpages : Ledger.WholePages pages) (hheld : ∀ f ∈ block pages.paddr pages.size, f ∈ p.frames)
    (hfresh : node ∉ s.sys.live)
    (hrun : Returns (fun fuel => s.freePages fuel node pages) s') :
    ∃ bs', wp (AimKernel.freePages pages) (fun _ p' => s'.Shows bs' p') p := by
  have hlt : pages.size < 2 ^ 64 := lt_of_le_of_lt (Nat.le_add_left _ _) hpages.bound
  obtain ⟨sys', bs', hfree, hinv, hpart⟩ := PallocSys.free_spec h.inv (bs.length + 1) hpages.pos
    hpages.size_mul hpages.aligned hpages.bound (h.apart hpages hheld) hfresh (Nat.lt_succ_self _)
  have hreturns : Returns (fun fuel => s.sys.free fuel node pages) sys' :=
    ⟨_, fun fuel hf => PallocSys.free_mono hfree hf⟩
  obtain rfl := hrun.unique (freePages_returns hreturns fun _ => ⟨hpages.size_mul, hlt⟩)
  have hbytes : ∀ x ∈ freeBytes bs', x ∈ (Ledger.region pages).bytes ∨ x ∈ freeBytes bs := by
    have hall := hpart [] _ (by
      rw [List.append_nil]
      exact h.inv.separated.partition.add (q := Ledger.region pages) hpages.pos
        (h.apart_bytes hpages hheld))
    intro x hx
    exact (hall.covers x).mp (by rwa [List.append_nil])
  have hgiven := h.wp_free hpages hheld hinv hbytes
  refine ⟨bs', ?_⟩
  rw [AimKernel.freePages, wp_bind, wp_get]
  by_cases hjunk : pages.flags &&& gfpUnsafe = 0
  · have hfill := pmemset_returns junkbyte pages.paddr p.mem hpages.size_mul hlt
    rw [if_pos hjunk, if_pos hjunk, wp_bind]
    refine wp_of_run ((pmemset_iff hlt).mp hfill) ?_
    rw [← h.mem]
    exact hgiven _
  · rw [if_neg hjunk, if_neg hjunk, ← h.mem]
    exact hgiven p.mem

end Interface

/-- **Rejected requests.** Over every list of blocks in the linear mapping and every
memory, `alloc_pages` and `free_pages` of a request leave memory and the allocator alone
if the allocator refuses it, and fill exactly the block if not, if and only if the request
is harmless. -/
theorem rejected_requests_touch_nothing_iff (h : s.sys.pa.Rep bs)
    (hlow : ∀ b ∈ bs, b.stop ≤ kernBase) (hsize : pages.size < 2 ^ 64) :
    s.Untouched pages ↔ s.Harmless bs pages := by
  constructor
  · intro hun
    constructor
    · by_cases hzero : pages.flags &&& gfpZero = 0
      · exact .inl hzero
      rcases alloc_outcome pages h hlow with ⟨hnot, hrun⟩ | ⟨b, hb, sys', hfits, -⟩
      · have hreturns := hun.allocRejected (by decide) hrun
        have hmul : pages.size % pageSize = 0 := by
          by_contra hne
          obtain ⟨n, hn⟩ := hreturns
          obtain ⟨k, hk⟩ := hrun
          have halloc := hk (max n k) (le_max_right _ _)
          have hpages := hn (max n k) (le_max_left _ _)
          dsimp only at halloc hpages
          rw [allocPages, halloc] at hpages
          dsimp only at hpages
          rw [if_pos hzero, pmemset_diverges hne] at hpages
          cases hpages
        have hfilled := allocPages_returns hrun fun _ => ⟨hmul, hsize⟩
        rw [if_pos hzero] at hfilled
        have hmem : s.mem = fillBlock s.mem pages.paddr 0 pages.size :=
          congrArg (fun out => out.2.2.mem) (hreturns.unique hfilled)
        exact .inr (.inr ⟨hmul, zeroed_of_fillBlock hmem.symm⟩)
      · exact .inr (.inl hfits)
    · by_contra hnot
      obtain ⟨hne, hjunk⟩ := not_or.mp hnot
      obtain ⟨n, hn⟩ := hun.freeRejected hne 0
      have hfree := hn n (le_refl n)
      dsimp only at hfree
      rw [freePages, if_pos (not_not.mp hjunk), pmemset_diverges hne] at hfree
      cases hfree
  · rintro ⟨hclear, hjunk⟩
    refine ⟨?_, ?_, ?_, ?_⟩
    · intro ret pages' sys' hret hrun
      rcases alloc_outcome pages h hlow with ⟨hnot, hrun'⟩ | ⟨b, hb, sys'', -, -, hrun'⟩
      · obtain ⟨rfl, rfl, rfl⟩ : ret = -1 ∧ pages' = pages ∧ sys' = s.sys := by
          simpa using hrun.unique hrun'
        rcases hclear with hzero | hfits | ⟨hmul, hzeroed⟩
        · have hreturns := allocPages_returns hrun fun hc => absurd hzero hc
          rwa [if_neg (not_not.mpr hzero)] at hreturns
        · exact absurd hfits hnot
        · have hreturns := allocPages_returns hrun fun _ => ⟨hmul, hsize⟩
          rwa [hzeroed.fillBlock_eq, ite_self] at hreturns
      · have hzero : ret = 0 := congrArg Prod.fst (hrun.unique hrun')
        omega
    · intro pages' sys' hrun
      rcases alloc_outcome pages h hlow with ⟨-, hrun'⟩ | ⟨b, hb, sys'', hfits, hle, hrun'⟩
      · have hneg : (0 : Int) = -1 := congrArg Prod.fst (hrun.unique hrun')
        omega
      · obtain ⟨rfl, rfl⟩ : pages' = { pages with paddr := b.paddr } ∧ sys' = sys'' := by
          simpa using hrun.unique hrun'
        have hreturns := allocPages_returns hrun fun _ => ⟨hfits.1, hsize⟩
        have hin : b.paddr + pages.size ≤ kernBase := by
          have hstop := hlow b hb
          unfold Blk.stop at hstop
          omega
        rwa [fillBlock_eq_fill s.mem 0 hfits.1 hin] at hreturns
    · intro hne node
      have hunsafe := hjunk.resolve_left hne
      have hreturns := freePages_returns (s.free_rejected hne node) fun hc => absurd hc hunsafe
      rwa [if_neg hunsafe] at hreturns
    · intro hmul hin node sys' hrun
      have hreturns := freePages_returns hrun fun _ => ⟨hmul, hsize⟩
      rwa [fillBlock_eq_fill s.mem junkbyte hmul hin] at hreturns

/-- An allocator without free memory; every byte is `JUNKBYTE`. -/
def usedUp : PageSys :=
  ⟨⟨Palloc.pageAllocatorInit ⟨fun _ => ⟨.null, .null, 0, 0⟩, 0⟩, []⟩, fun _ => junkbyte⟩

/-- A request for a page that does not ask for zeroes. -/
theorem rejected_requests_touch_nothing_plain : usedUp.Untouched ⟨0x1000, 0x1000, 0⟩ :=
  (rejected_requests_touch_nothing_iff (Palloc.pageAllocatorInit_rep _) (by simp)
    (by decide)).mpr ⟨.inl (by decide), .inl (by decide)⟩

/-- A request for a zeroed page is refused, and the page at its old `paddr` is cleared. -/
theorem rejected_request_clears_page : ¬ usedUp.Untouched ⟨0x1000, 0x1000, gfpZero⟩ := by
  intro hun
  have hrun : Returns (fun fuel => usedUp.sys.alloc fuel ⟨0x1000, 0x1000, gfpZero⟩)
      (-1, ⟨0x1000, 0x1000, gfpZero⟩, usedUp.sys) := ⟨0, fun _ _ => rfl⟩
  have hreturns := hun.allocRejected (by decide) hrun
  have hcleared := allocPages_returns hrun fun _ => ⟨by decide, by decide⟩
  have hmem := congrArg (fun out => out.2.2.mem 0x80001000) (hreturns.unique hcleared)
  exact absurd hmem (by decide)

end PageSys

end AimKernel
