import AimKernel.Lib.Wp
import AimKernel.Mm.SlabSafety

/-!
# AimKernel.Mm.SlabSize

`ksize` of `kern/mm/vmm/vmm.c` over whole runs of the simple allocator.

`alloc` stores the kernel address of each page in its descriptor and returns kernel
addresses; `free` and `size` search for the address as it is. `size` of a live object is
therefore its size class (`Inv.size_returns`). But `ksize` hands `size` the address
*below* `KERN_BASE` that `premap_addr` makes of the pointer, and no descriptor covers such
an address (`Inv.size_low`).
-/

namespace AimKernel

/-- `ksize`. -/
def Slab.ksize (fuel obj : Nat) (s : Slab) : Option Nat :=
  if obj ≠ 0 then s.size fuel (premapAddr obj) else some 0

namespace Slab

variable {s : Slab} {ds l r : List Desc} {d : Desc} {a fuel : Nat}

/-! ### `size` on the list -/

/-- The search of `size` stops at the first descriptor that covers the address. -/
theorem Rep.size_first (h : Rep s (l ++ d :: r)) (hd : d.Covers a) (hl : ∀ e ∈ l, ¬ e.Covers a)
    (hf : (l ++ d :: r).length < fuel) : s.size fuel a = some d.size := by
  have hmem : d ∈ l ++ d :: r := by simp
  unfold size
  rcases h.scan_cases hf (covers a s) with ⟨-, hall⟩ | ⟨l', d', r', heq, hscan, hd', hl'⟩
  · have hmiss := hall d hmem
    rw [(h.covers_iff hmem a).mpr hd] at hmiss
    cases hmiss
  · have hcov : d'.Covers a := (h.covers_iff (by rw [heq]; simp) a).mp hd'
    have hnone : ∀ e ∈ l', ¬ e.Covers a := by
      intro e he hc
      have hmiss := hl' e he
      rw [(h.covers_iff (by rw [heq]; simp [he]) a).mpr hc] at hmiss
      cases hmiss
    obtain ⟨rfl, rfl, rfl⟩ := first_hit_unique heq hd hcov hl hnone
    rw [hscan]
    exact congrArg some (h.size_eq hmem)

/-- An address that no descriptor covers has size zero. -/
theorem Rep.size_none (h : Rep s ds) (hds : ∀ d ∈ ds, ¬ d.Covers a) (hf : ds.length < fuel) :
    s.size fuel a = some 0 := by
  unfold size
  rcases h.scan_cases hf (covers a s) with ⟨hscan, -⟩ | ⟨l, d, r, rfl, -, hd, -⟩
  · rw [hscan]
  · exact absurd ((h.covers_iff (by simp) a).mp hd) (hds d (by simp))

/-- `size` of a marked object is the size of the objects on its page. -/
theorem Inv.size_returns (h : Inv s ds) {n : Nat} (ha : Holds ds a n) :
    Returns (fun fuel => s.size fuel a) n := by
  obtain ⟨d, hd, rfl, i, hi, rfl⟩ := ha
  obtain ⟨l, r, rfl⟩ := List.append_of_mem hd
  obtain ⟨hcov, hl⟩ := h.covers_first hi
  exact ⟨_, fun fuel hf => h.rep.size_first hcov hl hf⟩

/-- No page of the allocator covers an address below `KERN_BASE`. -/
theorem Inv.size_low (h : Inv s ds) (ha : a < kernBase) :
    Returns (fun fuel => s.size fuel a) 0 := by
  refine ⟨_, fun fuel hf => h.rep.size_none (fun d hd hcov => ?_) hf⟩
  have hlow := (h.ok d hd).page.low
  exact absurd (Nat.le_trans hlow hcov.1) (by omega)

end Slab

namespace SlabRun

/-- **`ksize` against `kmalloc`.** In every state reached, `size` of a live object is its
size class. `ksize` of it is the size class exactly if `premap_addr` leaves its address
alone. -/
theorem ksize_eq_class_iff {slab : Slab} {run : SlabRun}
    (h : Relation.ReflTransGen Step (start slab) run) {o : Obj} (ho : o ∈ run.live) :
    o.size ≤ sizeClass o.size ∧
      Returns (fun fuel => run.sys.slab.size fuel o.addr) (sizeClass o.size) ∧
      (Returns (fun fuel => run.sys.slab.ksize fuel o.addr) (sizeClass o.size) ↔
        premapAddr o.addr = o.addr) := by
  obtain ⟨ds, hinv⟩ := run_inv h
  obtain ⟨hpos, hle, hold⟩ := hinv.marked o ho
  have hclass := (Slab.sizeClass_mem hle).2
  have hsize := hinv.sys.slab.size_returns hold
  obtain ⟨d, hd, -, i, -, haddr⟩ := hold
  have hlow := (hinv.sys.slab.ok d hd).page.low
  have hne : o.addr ≠ 0 := by
    unfold kernBase at hlow
    omega
  have hksize : (fun fuel => run.sys.slab.ksize fuel o.addr) =
      fun fuel => run.sys.slab.size fuel (premapAddr o.addr) := by
    funext fuel
    rw [Slab.ksize, if_pos hne]
  refine ⟨hclass, hsize, ?_⟩
  rw [hksize]
  constructor
  · intro hret
    have hzero := hret.unique (hinv.sys.slab.size_low (premapAddr_lt o.addr))
    omega
  · intro heq
    rw [heq]
    exact hsize

/-- One object of 24 bytes, on a page of 32-byte objects. -/
theorem ksize_eq_class_iff_one_object :
    ∃ run, Relation.ReflTransGen Step (start ⟨fun _ => ⟨.null, .null, 0, 0, 0, 0⟩, 0, 0⟩) run ∧
      run.live = [⟨0x80003000, 24⟩] ∧
      (Returns (fun fuel => run.sys.slab.ksize fuel 0x80003000) 32 ↔
        premapAddr 0x80003000 = 0x80003000) := by
  obtain ⟨run, hreach, hlive⟩ : ∃ run, Relation.ReflTransGen Step
      (start ⟨fun _ => ⟨.null, .null, 0, 0, 0, 0⟩, 0, 0⟩) run ∧
      run.live = [⟨0x80003000, 24⟩] := by
    refine ⟨_, .tail .refl
      (@Step.alloc _ 1 0x3000 0x80002000 24 _ _ (by decide) (by decide) ⟨by decide, by decide⟩
        (by simp [start]) (by simp [start]) rfl), rfl⟩
  have hclass : sizeClass 24 = 32 := by decide
  have hiff := (ksize_eq_class_iff hreach (o := ⟨0x80003000, 24⟩) (by simp [hlive])).2.2
  exact ⟨run, hreach, hlive, hiff⟩

/-- `ksize` of that object is zero: less than the 24 bytes asked for. -/
theorem ksize_one_object_zero :
    ∃ run, Relation.ReflTransGen Step (start ⟨fun _ => ⟨.null, .null, 0, 0, 0, 0⟩, 0, 0⟩) run ∧
      run.live = [⟨0x80003000, 24⟩] ∧
      Returns (fun fuel => run.sys.slab.ksize fuel 0x80003000) 0 := by
  refine ⟨_, .tail .refl
    (@Step.alloc _ 1 0x3000 0x80002000 24 _ _ (by decide) (by decide) ⟨by decide, by decide⟩
      (by simp [start]) (by simp [start]) rfl), rfl, 2, fun fuel hf => ?_⟩
  obtain ⟨n, rfl⟩ : ∃ n, fuel = n + 2 := ⟨fuel - 2, by omega⟩
  rfl

end SlabRun

end AimKernel
