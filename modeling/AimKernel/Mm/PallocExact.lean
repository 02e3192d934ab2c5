import AimKernel.Mm.PallocCanonical
import Mathlib.Algebra.Order.BigOperators.Group.List
import Mathlib.Algebra.Order.Group.Nat
import Mathlib.Order.Bounds.Basic

/-!
# AimKernel.Mm.PallocExact

First-fit finds the lowest free range.

`alloc` looks at `free_size` and then at one block after the other. Because the blocks
are kept maximally merged, a free range of any length lies inside one of them
(`Separated.exists_of_interval`), so the search fails only if there is no such range;
because they are in address order, the first block that is large enough starts with the
lowest one.
-/

namespace AimKernel

/-- The addresses where a range of `n` free bytes starts. -/
def freeRanges (bs : List Blk) (n : Nat) : Set Nat :=
  {x | ∀ y, x ≤ y → y < x + n → Covered (bs.map Blk.region) y}

namespace PallocSys

variable {s : PallocSys} {bs : List Blk}

/-- A range is free exactly if it lies inside a block. -/
theorem Inv.mem_freeRanges (h : s.Inv bs) {n x : Nat} (hn : 0 < n) :
    x ∈ freeRanges bs n ↔ ∃ b ∈ bs, b.paddr ≤ x ∧ x + n ≤ b.stop := by
  constructor
  · intro hx
    obtain ⟨r, hr, hin⟩ := h.separated.exists_of_interval hn hx
    obtain ⟨b, hb, rfl⟩ := List.mem_map.mp hr
    exact ⟨b, hb, hin⟩
  · rintro ⟨b, hb, hlo, hhi⟩ y hxy hy
    exact ⟨b.region, List.mem_map.mpr ⟨b, hb, rfl⟩, Nat.le_trans hlo hxy, Nat.lt_of_lt_of_le hy hhi⟩

/-- The first block that is large enough starts with the lowest free range. -/
theorem Inv.isLeast_first (h : s.Inv bs) {l r : List Blk} {b : Blk} {n : Nat} (hn : 0 < n)
    (hbs : bs = l ++ b :: r) (hl : ∀ c ∈ l, c.size < n) (hb : n ≤ b.size) :
    IsLeast (freeRanges bs n) b.paddr := by
  constructor
  · refine (h.mem_freeRanges hn).mpr ⟨b, by simp [hbs], le_refl _, ?_⟩
    unfold Blk.stop
    omega
  · intro x hx
    obtain ⟨c, hc, hlo, hhi⟩ := (h.mem_freeRanges hn).mp hx
    have hcstop : c.stop = c.paddr + c.size := rfl
    have hcanon := h.canon
    rw [hbs] at hc hcanon
    rcases List.mem_append.mp hc with hc | hc
    · -- a block in front is too small for the range
      have := hl c hc
      omega
    · rcases List.mem_cons.mp hc with rfl | hc
      · exact hlo
      · have hafter := (List.pairwise_cons.mp (List.pairwise_append.mp hcanon).2.1).1 c hc
        have hbstop : b.stop = b.paddr + b.size := rfl
        omega

/-- A request that fits in a block is not rejected: neither by `free_size`, which counts
the block, nor by the search. -/
theorem Inv.alloc_fits (h : s.Inv bs) {pages pages' : Pages} {fuel : Nat} {ret : Int}
    {s' : PallocSys} (hmul : pages.size % pageSize = 0) (hf : bs.length < fuel) {b : Blk}
    (hb : b ∈ bs) (hfit : pages.size ≤ b.size)
    (hrun : s.alloc fuel pages = some (ret, pages', s')) : ret = 0 := by
  obtain ⟨step, hstep, hres⟩ := Palloc.allocEnter_spec pages h.rep hf h.bounds
  rw [alloc, hstep] at hrun
  cases hres with
  | reject hwhy =>
    have hle : b.size ≤ (bs.map Blk.size).sum := List.le_sum_of_mem (List.mem_map_of_mem hb)
    rcases hwhy with hne | hlt | hsmall
    · exact absurd hmul hne
    · rw [h.free] at hlt
      omega
    · have := hsmall b hb
      omega
  | carved => exact (Prod.mk.inj (Option.some.inj hrun)).1.symm
  | emptied => exact (Prod.mk.inj (Option.some.inj hrun)).1.symm

end PallocSys

namespace Ledger

/-- **Exactness.** In every state of a run, `alloc` of a positive number of whole pages
returns. It returns `0` exactly if some range of that length is wholly free, and then
hands out the lowest one; otherwise it returns `-1`, and neither the allocator nor the
request has changed. -/
theorem alloc_exact {pa : Palloc} {led : Ledger}
    (hrun : Relation.ReflTransGen Step (start pa) led) :
    ∃ bs, led.sys.pa.Rep bs ∧ ∀ pages : Pages, 0 < pages.size → pages.size % pageSize = 0 →
      ∃ ret pages' sys', (∀ fuel, bs.length < fuel →
          led.sys.alloc fuel pages = some (ret, pages', sys')) ∧
        (ret = 0 ↔ (freeRanges bs pages.size).Nonempty) ∧
        (ret = 0 → pages'.size = pages.size ∧ pages'.flags = pages.flags ∧
          IsLeast (freeRanges bs pages.size) pages'.paddr) ∧
        (ret ≠ 0 → ret = -1 ∧ pages' = pages ∧ sys' = led.sys) := by
  obtain ⟨bs, hinv⟩ := run_inv hrun
  have h := hinv.sys
  refine ⟨bs, h.rep, fun pages hpos hmul => ?_⟩
  obtain ⟨res, hres, hspec⟩ := PallocSys.alloc_spec h (bs.length + 1) hpos (by omega)
  have hfuel : ∀ fuel, bs.length < fuel → led.sys.alloc fuel pages = some res :=
    fun fuel hlt => PallocSys.alloc_mono hres hlt
  cases hspec with
  | reject =>
    refine ⟨-1, pages, led.sys, hfuel, ⟨fun hc => absurd hc (by decide), ?_⟩,
      fun hc => absurd hc (by decide), fun _ => ⟨rfl, rfl, rfl⟩⟩
    rintro ⟨x, hx⟩
    obtain ⟨b, hb, hlo, hhi⟩ := (h.mem_freeRanges hpos).mp hx
    have hbstop : b.stop = b.paddr + b.size := rfl
    exact h.alloc_fits hmul (by omega) hb (by omega) hres
  | @accept l r b s' bs' hbs _ hl hle _ _ =>
    have hleast := h.isLeast_first hpos hbs hl hle
    exact ⟨0, _, s', hfuel, ⟨fun _ => ⟨_, hleast.1⟩, fun _ => rfl⟩, fun _ => ⟨rfl, rfl, hleast⟩,
      fun hc => absurd rfl hc⟩

/-- Of the pages `0x1000`, `0x3000` and `0x4000`, a request for two gets `0x3000`. -/
theorem alloc_exact_three_pages :
    ∃ led bs, Relation.ReflTransGen Step (start ⟨fun _ => ⟨.null, .null, 0, 0⟩, 0⟩) led ∧
      led.sys.pa.Rep bs ∧ IsLeast (freeRanges bs 0x2000) 0x3000 := by
  have hrun : ∃ led, Relation.ReflTransGen Step (start ⟨fun _ => ⟨.null, .null, 0, 0⟩, 0⟩) led ∧
      ∃ sys', led.sys.alloc 3 ⟨0, 0x2000, 0⟩ = some (0, ⟨0x3000, 0x2000, 0⟩, sys') := by
    refine ⟨_, .tail (.tail .refl (@Step.donate _ 1 0x80 ⟨0x1000, 0x1000, 0⟩ _
      ⟨by decide, by decide, by decide, by decide⟩ (by simp [start]) (by simp [start]) rfl))
      (@Step.donate _ 2 0xa0 ⟨0x3000, 0x2000, 0⟩ _ ⟨by decide, by decide, by decide, by decide⟩
        ?_ (by decide) rfl), _, rfl⟩
    intro d hd
    obtain rfl := List.mem_singleton.mp hd
    exact (Region.disjoint_iff (by decide) (by decide)).mpr (by decide)
  obtain ⟨led, hled, sys', halloc⟩ := hrun
  obtain ⟨bs, hrep, hexact⟩ := alloc_exact hled
  obtain ⟨ret, pages', sys'', hfuel, -, hleast, -⟩ := hexact ⟨0, 0x2000, 0⟩ (by decide) (by decide)
  have hsame := (hfuel (bs.length + 3) (by omega)).symm.trans
    (PallocSys.alloc_mono halloc (by omega))
  obtain ⟨rfl, rfl, -⟩ : ret = 0 ∧ pages' = ⟨0x3000, 0x2000, 0⟩ ∧ sys'' = sys' := by
    simpa using hsame
  exact ⟨led, bs, hled, hrep, (hleast rfl).2.2⟩

end Ledger

end AimKernel
