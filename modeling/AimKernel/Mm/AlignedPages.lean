import AimKernel.Mm.PageRequests
import AimKernel.Mm.PallocCanonical

/-!
# AimKernel.Mm.AlignedPages

`alloc_aligned_pages`: allocate more than is asked for, round the address up, and give the
padding back on both sides.

The proof follows the set of free bytes. `alloc` takes a block out of it
(`PallocSys.Inv.alloc_takes`), `free` puts a block in (`PallocSys.Inv.free_adds`), and the
two paddings are what the block taken has over the block returned.
-/

namespace AimKernel

/-! ### Rounding up -/

/-- `ALIGN_ABOVE` on 64-bit addresses. -/
def alignAbove64 (x a : Nat) : Nat := add64 (sub64 x 1 ||| sub64 a 1) 1

theorem or_two_pow_sub_one (y k : Nat) : y ||| (2 ^ k - 1) = 2 ^ k * (y / 2 ^ k) + (2 ^ k - 1) := by
  have hlt : 2 ^ k - 1 < 2 ^ k := Nat.sub_one_lt (Nat.two_pow_pos k).ne'
  apply Nat.eq_of_testBit_eq
  intro j
  rw [Nat.testBit_or, Nat.testBit_two_pow_sub_one, Nat.testBit_two_pow_mul_add _ hlt,
    Nat.testBit_two_pow_sub_one, Nat.testBit_div_two_pow]
  by_cases hj : j < k
  · simp [hj]
  · rw [if_neg hj, decide_eq_false hj, Bool.or_false, Nat.sub_add_cancel (Nat.le_of_not_lt hj)]

/-- The rounded address is the next multiple of the alignment. -/
theorem alignAbove64_spec {x k : Nat} (h : x + 2 ^ k ≤ 2 ^ 64) :
    2 ^ k ∣ alignAbove64 x (2 ^ k) ∧ x ≤ alignAbove64 x (2 ^ k) ∧
      alignAbove64 x (2 ^ k) < x + 2 ^ k := by
  have hpos := Nat.two_pow_pos k
  have hmask : sub64 (2 ^ k) 1 = 2 ^ k - 1 := by
    unfold sub64
    omega
  unfold alignAbove64
  rw [hmask, or_two_pow_sub_one]
  by_cases hx : x = 0
  · -- `0 - 1` has all bits set, and adding `1` wraps around to `0`
    subst hx
    have hk : k ≤ 64 := (Nat.pow_le_pow_iff_right (by decide : 1 < 2)).mp (by omega)
    obtain ⟨c, hc⟩ := Nat.pow_dvd_pow 2 hk
    have hcpos : 0 < c := Nat.pos_of_ne_zero (by rintro rfl; omega)
    have hones : sub64 0 1 = 2 ^ k * (c - 1) + (2 ^ k - 1) := by
      have hsplit : 2 ^ k * c = 2 ^ k * (c - 1) + 2 ^ k := by
        rw [← Nat.mul_succ, Nat.succ_eq_add_one, Nat.sub_add_cancel hcpos]
      unfold sub64
      omega
    have hdiv : sub64 0 1 / 2 ^ k = c - 1 := by
      rw [hones, Nat.mul_add_div hpos, Nat.div_eq_of_lt (by omega), Nat.add_zero]
    have hwrap : add64 (sub64 0 1) 1 = 0 := by decide
    rw [hdiv, ← hones, hwrap, Nat.zero_add]
    exact ⟨Nat.dvd_zero _, le_refl _, hpos⟩
  · have hsub : sub64 x 1 = x - 1 := sub64_eq (by omega) (by omega)
    have hdiv := Nat.div_add_mod (x - 1) (2 ^ k)
    rw [hsub]
    rw [add64_eq (by omega)]
    refine ⟨?_, by omega, by omega⟩
    have hnext : 2 ^ k * ((x - 1) / 2 ^ k) + (2 ^ k - 1) + 1 = 2 ^ k * ((x - 1) / 2 ^ k + 1) := by
      rw [Nat.mul_add]
      omega
    rw [hnext]
    exact Nat.dvd_mul_right _ _

namespace PallocSys

variable {s s' : PallocSys} {bs : List Blk} {pages pages' : Pages}

/-- A block that `alloc` hands out leaves the free bytes. -/
theorem Inv.alloc_takes (h : s.Inv bs) {fuel : Nat} {ret : Int} (hpos : 0 < pages.size)
    (hrun : s.alloc fuel pages = some (ret, pages', s')) :
    (ret = -1 ∧ pages' = pages ∧ s' = s) ∨
      ∃ b ∈ bs, ∃ bs', ret = 0 ∧ pages' = { pages with paddr := b.paddr } ∧
        pages.size % pageSize = 0 ∧ pages.size ≤ b.size ∧ s'.Inv bs' ∧
        freeBytes bs' = freeBytes bs \ (Ledger.region pages').bytes := by
  cases h.alloc_run hpos hrun with
  | reject => exact .inl ⟨rfl, rfl, rfl⟩
  | @accept l r b _ bs' hbs hmul _ hle hinv hpart =>
    refine .inr ⟨b, by simp [hbs], bs', rfl, rfl, hmul, hle, hinv, ?_⟩
    have hnew := hpart [] {x | Covered (bs.map Blk.region) x}
      (by rw [List.append_nil]; exact h.separated.partition)
    have hapart := (List.pairwise_append.mp hnew.disjoint).2.2
    ext x
    have hcov := hnew.covers x
    rw [covered_append, covered_cons] at hcov
    have hnil := covered_nil x
    constructor
    · rintro ⟨q, hq, hx⟩
      refine ⟨hcov.mp (.inl ⟨q, hq, hx⟩), fun hxb => ?_⟩
      exact Set.disjoint_left.mp (hapart q hq _ (List.mem_singleton.mpr rfl)) hx hxb
    · rintro ⟨hx, hnot⟩
      rcases hcov.mpr hx with hx | hx | hx
      · exact hx
      · exact absurd hx hnot
      · exact absurd hx hnil

/-- A block that `free` takes joins the free bytes. -/
theorem Inv.free_adds (h : s.Inv bs) {node : Nat} (hw : Ledger.WholePages pages)
    (hdisj : Disjoint (Ledger.region pages).bytes (freeBytes bs)) (hfresh : node ∉ s.live) :
    ∃ s' bs', Returns (fun fuel => s.free fuel node pages) s' ∧ s'.Inv bs' ∧
      freeBytes bs' = freeBytes bs ∪ (Ledger.region pages).bytes := by
  have hapart : ∀ c ∈ bs, pages.paddr + pages.size ≤ c.paddr ∨ c.stop ≤ pages.paddr := by
    intro c hc
    refine (Region.disjoint_iff (a := Ledger.region pages) (b := c.region) hw.pos
      (h.ok c hc).pos).mp (hdisj.mono_right ?_)
    exact fun x hx => ⟨c.region, List.mem_map.mpr ⟨c, hc, rfl⟩, hx⟩
  obtain ⟨s', bs', hrun, hinv, hpart⟩ := free_spec h (bs.length + 1) hw.pos hw.size_mul hw.aligned
    hw.bound hapart hfresh (by omega)
  refine ⟨s', bs', ⟨bs.length + 1, fun fuel hle => free_mono hrun hle⟩, hinv, ?_⟩
  have hnew := hpart [] _ (by
    rw [List.append_nil]
    exact h.separated.partition.add hw.pos hdisj)
  rw [List.append_nil] at hnew
  ext x
  rw [Set.union_comm]
  exact hnew.covers x

end PallocSys

namespace PageSys

/-! ### `alloc_aligned_pages` -/

/-- The end of `alloc_aligned_pages`: what the block `buf` has over the `size` bytes from
`paddr` on is given back. The answers of `kmalloc` for the two list nodes depend on the
nodes that are in use. -/
def freePaddings (fuel : Nat) (kmalloc : Nat → List Nat → Nat) (buf : Pages) (paddr size : Nat)
    (s : PageSys) : Option PageSys :=
  let bufEnd := add64 buf.paddr buf.size
  let pagesEnd := add64 paddr size
  (if buf.paddr < paddr then
    s.freePages fuel (kmalloc 0 s.sys.live) ⟨buf.paddr, sub64 paddr buf.paddr, buf.flags⟩
  else some s).bind fun s =>
  if bufEnd > pagesEnd then
    s.freePages fuel (kmalloc 1 s.sys.live)
      ⟨pagesEnd, sub64 (sub64 bufEnd paddr) size, buf.flags⟩
  else some s

/-- `alloc_aligned_pages`: the return value and the request as the call leaves it. -/
def allocAlignedPages (fuel : Nat) (kmalloc : Nat → List Nat → Nat) (pages : Pages) (align : Nat)
    (s : PageSys) : Option (Int × Pages × PageSys) :=
  -- we allocate extra pages
  (s.allocPages fuel { pages with size := add64 pages.size (sub64 align pageSize) }).bind
    fun (ret, buf, s) =>
      if ret < 0 then some (ret, pages, s)
      else
        let paddr := alignAbove64 buf.paddr align
        (s.freePaddings fuel kmalloc buf paddr pages.size).bind fun s =>
          some (0, { pages with paddr := paddr }, s)

variable {s : PageSys} {bs : List Blk} {pages : Pages}

variable {node : Nat} {kmalloc : Nat → List Nat → Nat}

/-- Giving back a padding: it joins the free bytes, and no other byte is written. -/
theorem freePages_adds (h : s.sys.Inv bs) (hw : Ledger.WholePages pages)
    (hdisj : Disjoint (Ledger.region pages).bytes (freeBytes bs)) (hfresh : node ∉ s.sys.live) :
    ∃ s' bs', Returns (fun fuel => s.freePages fuel node pages) s' ∧ s'.sys.Inv bs' ∧
      freeBytes bs' = freeBytes bs ∪ (Ledger.region pages).bytes ∧
      (pages.paddr + pages.size ≤ kernBase →
        ∀ x, x < pa2kva pages.paddr ∨ pa2kva pages.paddr + pages.size ≤ x →
          s'.mem x = s.mem x) := by
  obtain ⟨sys', bs', hrun, hinv, hbytes⟩ := h.free_adds hw hdisj hfresh
  have hreturns := freePages_returns hrun fun _ =>
    ⟨hw.size_mul, Nat.lt_of_le_of_lt (Nat.le_add_left _ _) hw.bound⟩
  refine ⟨_, bs', hreturns, hinv, hbytes, fun hlow x hx => ?_⟩
  dsimp only
  split
  · rw [fillBlock_eq_fill s.mem junkbyte hw.size_mul hlow]
    exact if_neg (by omega)
  · rfl

theorem freePadding_adds (h : s.sys.Inv bs) {paddr size : Nat} (flags : Nat)
    (hsize : size % pageSize = 0) (halign : paddr % pageSize = 0) (hbound : paddr + size < 2 ^ 64)
    (hdisj : Disjoint (⟨paddr, size⟩ : Region).bytes (freeBytes bs)) (hfresh : node ∉ s.sys.live)
    {c : Prop} [Decidable c] (hc : c ↔ 0 < size) :
    ∃ s' bs', Returns (fun fuel => if c then s.freePages fuel node ⟨paddr, size, flags⟩
        else some s) s' ∧ s'.sys.Inv bs' ∧
      freeBytes bs' = freeBytes bs ∪ (⟨paddr, size⟩ : Region).bytes ∧
      (paddr + size ≤ kernBase →
        ∀ x, x < pa2kva paddr ∨ pa2kva paddr + size ≤ x → s'.mem x = s.mem x) := by
  by_cases hpos : 0 < size
  · simp only [if_pos (hc.mpr hpos)]
    exact freePages_adds h ⟨hpos, hsize, halign, hbound⟩ hdisj hfresh
  · simp only [if_neg fun h => hpos (hc.mp h)]
    refine ⟨s, bs, .pure s, h, ?_, fun _ _ _ => rfl⟩
    have hempty : (⟨paddr, size⟩ : Region).bytes = ∅ := by
      ext x
      simp only [Region.mem_bytes, Region.stop, Set.mem_empty_iff_false, iff_false]
      omega
    rw [hempty, Set.union_empty]

/-- Of the block `[p, e)` all but `[q, q + n)` goes back. -/
theorem freePaddings_add (h : s.sys.Inv bs) (hk : ∀ i live, kmalloc i live ∉ live) {p q n e : Nat}
    (flags : Nat) {F : Set Nat} (hbytes : freeBytes bs = F \ Set.Ico p e) (hsub : Set.Ico p e ⊆ F)
    (hbound : e < 2 ^ 64) (hp : p % pageSize = 0) (hq : q % pageSize = 0) (hn : n % pageSize = 0)
    (he : e % pageSize = 0) (hpq : p ≤ q) (hqe : q + n ≤ e) :
    ∃ s' bs', Returns (fun fuel => s.freePaddings fuel kmalloc ⟨p, e - p, flags⟩ q n) s' ∧
      s'.sys.Inv bs' ∧ freeBytes bs' = F \ Set.Ico q (q + n) ∧
      (e ≤ kernBase → ∀ x, q ≤ x → x < q + n → s'.mem (pa2kva x) = s.mem (pa2kva x)) := by
  have hbufEnd : add64 p (e - p) = e := by
    rw [add64_eq (by omega)]
    omega
  have hpagesEnd : add64 q n = q + n := add64_eq (by omega)
  have hheadSize : sub64 q p = q - p := sub64_eq hpq (by omega)
  have htailSize : sub64 (sub64 e q) n = e - (q + n) := by
    have hrest : sub64 e q = e - q := sub64_eq (by omega) (by omega)
    rw [hrest, sub64_eq (by omega) (by omega), Nat.sub_sub]
  have hhead : (q - p) % pageSize = 0 := by
    unfold pageSize at *
    omega
  have htail : (e - (q + n)) % pageSize = 0 := by
    unfold pageSize at *
    omega
  have hdisj : Disjoint (⟨p, q - p⟩ : Region).bytes (freeBytes bs) := by
    rw [Set.disjoint_left, hbytes]
    intro x hx hxF
    obtain ⟨hlo, hhi⟩ : p ≤ x ∧ x < p + (q - p) := hx
    exact hxF.2 ⟨hlo, by omega⟩
  obtain ⟨s1, bs1, hrun1, hinv1, hbytes1, hmem1⟩ := freePadding_adds h flags hhead hp
    (by omega) hdisj (hk 0 _) (c := p < q) (by omega)
  have hdisj1 : Disjoint (⟨q + n, e - (q + n)⟩ : Region).bytes (freeBytes bs1) := by
    rw [Set.disjoint_left, hbytes1, hbytes]
    intro x hx hxF
    obtain ⟨hlo, hhi⟩ : q + n ≤ x ∧ x < q + n + (e - (q + n)) := hx
    rcases hxF with hxF | hxF
    · exact hxF.2 ⟨by omega, by omega⟩
    · have hxq : x < p + (q - p) := hxF.2
      omega
  obtain ⟨s2, bs2, hrun2, hinv2, hbytes2, hmem2⟩ := freePadding_adds hinv1 flags htail
    (by unfold pageSize at *; omega) (by omega) hdisj1 (hk 1 _) (c := e > q + n) (by omega)
  refine ⟨s2, bs2, ?_, hinv2, ?_, ?_⟩
  · unfold freePaddings
    simp only [hbufEnd, hpagesEnd, hheadSize, htailSize]
    exact hrun1.bind hrun2
  · ext x
    have hin := @hsub x
    rw [hbytes2, hbytes1, hbytes]
    simp only [Set.mem_union, Set.mem_sdiff, Set.mem_Ico, Region.mem_bytes, Region.stop] at hin ⊢
    constructor
    · rintro ((⟨hF, hnot⟩ | hx) | hx)
      · exact ⟨hF, by omega⟩
      · exact ⟨hin (by omega), by omega⟩
      · exact ⟨hin (by omega), by omega⟩
    · rintro ⟨hF, hnot⟩
      by_cases hx : p ≤ x ∧ x < e
      · by_cases hxq : x < q
        · exact .inl (.inr (by omega))
        · exact .inr (by omega)
      · exact .inl (.inl ⟨hF, hx⟩)
  · -- the paddings lie on both sides of the block
    intro hlow x hlo hhi
    have hx : pa2kva x = x + kernBase := pa2kva_eq (by omega)
    rw [hmem2 (by omega), hmem1 (by omega)]
    · have hp' : pa2kva p = p + kernBase := pa2kva_eq (by omega)
      omega
    · by_cases hend : q + n < kernBase
      · have hq' : pa2kva (q + n) = q + n + kernBase := pa2kva_eq hend
        omega
      · -- at the end of the linear mapping there is no padding left
        omega

/-- **`alloc_aligned_pages`** over a list in order, for a request that does not overflow. -/
theorem allocAlignedPages_spec (h : s.sys.Inv bs) (hk : ∀ i live, kmalloc i live ∉ live) {k : Nat}
    (hpos : 0 < pages.size) (hmul : pages.size % pageSize = 0) (halign : pageSize ≤ 2 ^ k)
    (hover : pages.size + 2 ^ k < 2 ^ 64) :
    ∃ ret pages' s' bs',
      Returns (fun fuel => s.allocAlignedPages fuel kmalloc pages (2 ^ k)) (ret, pages', s') ∧
      s'.sys.Inv bs' ∧
      ((ret = -1 ∧ freeBytes bs' = freeBytes bs) ∨
        (ret = 0 ∧ pages'.size = pages.size ∧ pages'.flags = pages.flags ∧
          2 ^ k ∣ pages'.paddr ∧ (Ledger.region pages').bytes ⊆ freeBytes bs ∧
          freeBytes bs' = freeBytes bs \ (Ledger.region pages').bytes ∧
          (pages.flags &&& gfpZero ≠ 0 → (∀ b ∈ bs, b.stop ≤ kernBase) →
            ∀ x ∈ (Ledger.region pages').bytes, s'.mem (pa2kva x) = 0))) := by
  have hmulk : 2 ^ k % pageSize = 0 := by
    have hle : 12 ≤ k := (Nat.pow_le_pow_iff_right (by decide : 1 < 2)).mp halign
    exact Nat.mod_eq_zero_of_dvd (Nat.pow_dvd_pow 2 hle)
  -- the size of the block that is asked for
  generalize hN : pages.size + (2 ^ k - pageSize) = N
  have hNmul : N % pageSize = 0 := by
    unfold pageSize at *
    omega
  have hbuf : add64 pages.size (sub64 (2 ^ k) pageSize) = N := by
    rw [sub64_eq halign (by omega), add64_eq (by omega), hN]
  obtain ⟨⟨ret, buf, sys'⟩, hrun, -⟩ := @PallocSys.alloc_spec _ _ { pages with size := N } h
    (bs.length + 1) (show 0 < N by omega) (by omega)
  have hreturns : Returns (fun fuel => s.sys.alloc fuel { pages with size := N }) (ret, buf, sys') :=
    ⟨bs.length + 1, fun fuel hle => PallocSys.alloc_mono hrun hle⟩
  have htakes := h.alloc_takes (show 0 < N by omega) hrun
  rcases htakes with ⟨rfl, rfl, rfl⟩ | ⟨b, hb, bs', rfl, rfl, -, hle, hinv, hbytes⟩
  · have hpages := allocPages_returns hreturns fun _ => ⟨hNmul, show N < 2 ^ 64 by omega⟩
    refine ⟨-1, pages, ⟨s.sys, if pages.flags &&& gfpZero ≠ 0 then
      fillBlock s.mem pages.paddr 0 N else s.mem⟩, bs, ?_, h, .inl ⟨rfl, rfl⟩⟩
    unfold allocAlignedPages
    rw [hbuf]
    refine hpages.bind ?_
    exact .pure _
  · have hpages := allocPages_returns hreturns fun _ => ⟨hNmul, show N < 2 ^ 64 by omega⟩
    dsimp only at hle hpages
    have hbok := h.ok b hb
    have hbstop : b.stop = b.paddr + b.size := rfl
    have hbound := hbok.bound
    obtain ⟨hdvd, hge, hlt⟩ := alignAbove64_spec (x := b.paddr) (k := k) (by
      unfold pageSize at *
      omega)
    generalize hq : alignAbove64 b.paddr (2 ^ k) = q at hdvd hge hlt
    have hqmul : q % pageSize = 0 :=
      Nat.mod_eq_zero_of_dvd (Nat.dvd_trans (Nat.dvd_of_mod_eq_zero hmulk) hdvd)
    have hpmul := hbok.aligned
    -- both ends of the padding are page boundaries
    have hqe : q + pages.size ≤ b.paddr + N := by
      unfold pageSize at *
      omega
    have hsub : Set.Ico b.paddr (b.paddr + N) ⊆ freeBytes bs := by
      rintro x ⟨hlo, hhi⟩
      exact ⟨b.region, List.mem_map.mpr ⟨b, hb, rfl⟩, hlo, show x < b.paddr + b.size by omega⟩
    have hgone : freeBytes bs' = freeBytes bs \ Set.Ico b.paddr (b.paddr + N) := hbytes
    obtain ⟨s', bs'', hpad, hinv', hbytes', hmem⟩ := freePaddings_add
      (s := ⟨sys', if pages.flags &&& gfpZero ≠ 0 then fillBlock s.mem b.paddr 0 N else s.mem⟩)
      hinv hk pages.flags hgone hsub (by omega) hpmul hqmul hmul
      (by unfold pageSize at *; omega) hge hqe
    rw [Nat.add_sub_cancel_left] at hpad
    refine ⟨0, { pages with paddr := q }, s', bs'', ?_, hinv', .inr ⟨rfl, rfl, rfl, hdvd, ?_, hbytes',
      ?_⟩⟩
    · unfold allocAlignedPages
      rw [hbuf]
      refine hpages.bind ?_
      simp only [Int.lt_irrefl, if_false, hq]
      exact hpad.bind (.pure _)
    · intro x hx
      obtain ⟨hlo, hhi⟩ : q ≤ x ∧ x < q + pages.size := hx
      exact hsub ⟨by omega, by omega⟩
    · intro hzero hlow x hx
      have hblow := hlow b hb
      obtain ⟨hlo, hhi⟩ : q ≤ x ∧ x < q + pages.size := hx
      rw [hmem (by omega) x hlo hhi]
      dsimp only
      rw [if_pos hzero, fillBlock_eq_fill s.mem 0 hNmul (by omega)]
      have hx' : pa2kva x = x + kernBase := pa2kva_eq (by omega)
      have hb' : pa2kva b.paddr = b.paddr + kernBase := pa2kva_eq (by omega)
      exact if_pos (by omega)

end PageSys

namespace Ledger

/-- **Aligned allocation.** In every state of a run, with `kmalloc` answering with unused
nodes, `alloc_aligned_pages` of a positive number of whole pages returns. A return of `0`
leaves an aligned block, and exactly this block has left the free bytes, on a list that is
in order and merged; with `GFP_ZERO` it is all zero, as far as the allocator's memory lies
in the linear mapping. A negative return leaves the free bytes as they were. -/
theorem alloc_aligned_exact {pa : Palloc} {led : Ledger}
    (hrun : Relation.ReflTransGen Step (start pa) led) {kmalloc : Nat → List Nat → Nat}
    (hk : ∀ i live, kmalloc i live ∉ live) :
    ∃ bs, led.sys.pa.Rep bs ∧ ∀ (pages : Pages) (k : Nat) (m : Mem), 0 < pages.size →
      pages.size % pageSize = 0 → pageSize ≤ 2 ^ k → pages.size + 2 ^ k < 2 ^ 64 →
      ∃ ret pages' s' bs', Returns (fun fuel =>
          PageSys.allocAlignedPages fuel kmalloc pages (2 ^ k) ⟨led.sys, m⟩) (ret, pages', s') ∧
        s'.sys.pa.Rep bs' ∧ Canon bs' ∧ (ret = 0 ∨ ret < 0) ∧
        (ret = 0 → 2 ^ k ∣ pages'.paddr ∧ pages'.size = pages.size ∧
          (region pages').bytes ⊆ freeBytes bs ∧
          freeBytes bs' = freeBytes bs \ (region pages').bytes ∧
          (pages.flags &&& gfpZero ≠ 0 → (∀ d ∈ led.donated, d.stop ≤ kernBase) →
            ∀ x ∈ (region pages').bytes, s'.mem (pa2kva x) = 0)) ∧
        (ret < 0 → freeBytes bs' = freeBytes bs) := by
  obtain ⟨bs, hinv⟩ := run_inv hrun
  have hlow : (∀ d ∈ led.donated, d.stop ≤ kernBase) → ∀ b ∈ bs, b.stop ≤ kernBase := by
    intro hdonated b hb
    have hpos := (hinv.sys.ok b hb).pos
    have hstop : b.stop = b.paddr + b.size := rfl
    -- the last byte of the block was donated
    have hlast : Covered (bs.map Blk.region ++ led.outstanding) (b.stop - 1) := by
      refine ⟨b.region, by simp only [List.mem_append, List.mem_map]; exact .inl ⟨b, hb, rfl⟩, ?_⟩
      exact Region.mem_bytes.mpr ⟨show b.paddr ≤ _ by omega, show _ < b.stop by omega⟩
    obtain ⟨d, hd, hx⟩ := (hinv.part.covers _).mp hlast
    have := hdonated d hd
    rw [Region.mem_bytes] at hx
    omega
  refine ⟨bs, hinv.sys.rep, fun pages k m hpos hmul halign hover => ?_⟩
  obtain ⟨ret, pages', s', bs', hreturns, hinv', hcases⟩ :=
    PageSys.allocAlignedPages_spec (s := ⟨led.sys, m⟩) hinv.sys hk hpos hmul halign hover
  refine ⟨ret, pages', s', bs', hreturns, hinv'.rep, hinv'.canon, ?_⟩
  rcases hcases with ⟨rfl, hsame⟩ | ⟨rfl, hsize, -, hdvd, hsub, hbytes, hzero⟩
  · exact ⟨.inr (by decide), fun hc => absurd hc (by decide), fun _ => hsame⟩
  · exact ⟨.inl rfl, fun _ => ⟨hdvd, hsize, hsub, hbytes, fun hz hd => hzero hz (hlow hd)⟩,
      fun hc => absurd hc (by decide)⟩

/-- A fresh node above all that are in use. -/
def nextNode (live : List Nat) : Nat := live.foldr max 0 + 1

theorem nextNode_not_mem (live : List Nat) : nextNode live ∉ live := by
  have hle : ∀ n ∈ live, n ≤ live.foldr max 0 := by
    intro n hn
    induction live with
    | nil => cases hn
    | cons m rest ih =>
      rcases List.mem_cons.mp hn with rfl | hn
      · exact le_max_left _ _
      · exact le_trans (ih hn) (le_max_right _ _)
  intro hmem
  have := hle _ hmem
  unfold nextNode at this
  omega

/-- Two pages at a multiple of four, out of eight pages from `0x1000` on. -/
theorem alloc_aligned_exact_eight_pages :
    ∃ led bs pages' s' bs', Relation.ReflTransGen Step (start ⟨fun _ => ⟨.null, .null, 0, 0⟩, 0⟩) led ∧
      led.sys.pa.Rep bs ∧ Returns (fun fuel => PageSys.allocAlignedPages fuel (fun _ => nextNode)
        ⟨0, 0x2000, gfpZero⟩ (2 ^ 14) ⟨led.sys, fun _ => 1⟩) (0, pages', s') ∧
      s'.sys.pa.Rep bs' ∧ 2 ^ 14 ∣ pages'.paddr ∧
      freeBytes bs' = freeBytes bs \ (region pages').bytes ∧
      ∀ x ∈ (region pages').bytes, s'.mem (pa2kva x) = 0 := by
  have hrun : ∃ led, Relation.ReflTransGen Step (start ⟨fun _ => ⟨.null, .null, 0, 0⟩, 0⟩) led ∧
      led.donated = [⟨0x1000, 0x8000⟩] ∧
      ∀ n, (PageSys.allocAlignedPages (n + 6) (fun _ => nextNode) ⟨0, 0x2000, gfpZero⟩ (2 ^ 14)
        ⟨led.sys, fun _ => 1⟩).map Prod.fst = some 0 := by
    refine ⟨_, .tail .refl (@Step.donate _ 1 0x80 ⟨0x1000, 0x8000, 0⟩ _
      ⟨by decide, by decide, by decide, by decide⟩ (by simp [start]) (by simp [start]) rfl), rfl, fun n => rfl⟩
  obtain ⟨led, hled, hdonated, hzero⟩ := hrun
  obtain ⟨bs, hrep, hexact⟩ := alloc_aligned_exact hled fun _ => nextNode_not_mem
  obtain ⟨ret, pages', s', bs', hreturns, hrep', -, -, hok, -⟩ := hexact ⟨0, 0x2000, gfpZero⟩ 14
    (fun _ => 1) (by decide) (by decide) (by decide) (by decide)
  have hret : ret = 0 := by
    obtain ⟨n, hn⟩ := hreturns
    have hn' := hn (n + 6) (by omega)
    have hfst := hzero n
    dsimp only at hn'
    rw [hn'] at hfst
    exact Option.some.inj hfst
  subst hret
  obtain ⟨hdvd, -, -, hbytes, hz⟩ := hok rfl
  refine ⟨led, bs, pages', s', bs', hled, hrep, hreturns, hrep', hdvd, hbytes, ?_⟩
  refine hz (by decide) ?_
  rw [hdonated]
  simp [Region.stop, kernBase]

end Ledger

end AimKernel
