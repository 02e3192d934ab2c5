import AimKernel.Mm.EarlyMapping
import Mathlib.Data.List.Pairwise
import Mathlib.Logic.Function.Basic

/-!
# AimKernel.I386.BootIndex

The boot page index: `page_index_init` of `mmu.c` with `page_index_early_map` of the i386 port.

A directory entry maps 4 MB. Both ends of a mapping are rounded down to 4 MB, so a last part that
does not fill its slot is left out, and a mapping within one slot leaves no trace; the call succeeds
all the same. A `paddr` that is not aligned ends up in the reserved bits of the entry. A last part
is mapped only if another mapping fills the slot and happens to agree (`Fits`).
-/

namespace AimKernel.BootIndex

/-- `PGSIZE2`. -/
def pgsize2 : Nat := 0x400000

/-- The page directory, by slots. -/
abbrev Directory := Nat → Nat

/-- `PTE_P`. -/
def Present (pde : Nat) : Prop := pde % 2 = 1

instance (pde : Nat) : Decidable (Present pde) := inferInstanceAs (Decidable (_ = _))

/-- `paddr` without its low 12 bits, with `PTE_P | PTE_W | PTE_PS`. -/
def pde (paddr : Nat) : Nat := u32 (paddr / pageSize * pageSize) ||| 0x83

/-- A round of the loop of `page_index_early_map`. -/
def mapSlot (s : Directory × Nat) (slot : Nat) : Option (Directory × Nat) :=
  if Present (s.1 slot) then none
  else some (Function.update s.1 slot (pde s.2), add64 s.2 pgsize2)

/-- `page_index_early_map`, from `PGROUNDDOWN2(vaddr)` up to `PGROUNDDOWN2(vaddr + size)`. -/
def pageIndexEarlyMap (t : Directory) (m : EarlyMapping) : Option Directory :=
  ((List.range' (m.vaddr / pgsize2)
    (u32 (m.vaddr + m.size) / pgsize2 - m.vaddr / pgsize2)).foldlM mapSlot (t, m.paddr)).map Prod.fst

/-- `page_index_init`; `none` is `EOF`. -/
def pageIndexInit (queue : List EarlyMapping) : Option Directory :=
  queue.foldlM pageIndexEarlyMap fun _ => 0

/-- What the processor does with an address: bits 13 to 21 of a 4 MB entry are reserved. -/
def translate (t : Directory) (va : Nat) : Option Nat :=
  let e := t (va / pgsize2)
  if Present e ∧ e / 2 ^ 7 % 2 = 1 ∧ e / 2 ^ 13 % 2 ^ 9 = 0 then
    some (e / pgsize2 * pgsize2 + va % pgsize2)
  else none

/-- Every address of the mapping is translated as it asks for. -/
def Honours (t : Directory) (m : EarlyMapping) : Prop :=
  ∀ i < m.size, translate t (m.vaddr + i) = some (m.paddr + i)

/-- The mapping fills the slot up to its end. -/
def Sets (m : EarlyMapping) (k : Nat) : Prop :=
  m.vaddr / pgsize2 ≤ k ∧ k < (m.vaddr + m.size) / pgsize2

instance (m : EarlyMapping) (k : Nat) : Decidable (Sets m k) := inferInstanceAs (Decidable (_ ∧ _))

/-- The frame that the mapping gives to a slot. -/
def frame (m : EarlyMapping) (k : Nat) : Nat := m.paddr + (k - m.vaddr / pgsize2) * pgsize2

/-- No slot is filled by two mappings. -/
def Apart (queue : List EarlyMapping) : Prop :=
  queue.Pairwise fun m m' => ∀ k, Sets m k → ¬ Sets m' k

/-- The mapping runs up to the end of a slot, so that the loop has a round for it. -/
def Crosses (m : EarlyMapping) : Prop := m.vaddr / pgsize2 < (m.vaddr + m.size) / pgsize2

instance (m : EarlyMapping) : Decidable (Crosses m) := inferInstanceAs (Decidable (_ < _))

/-- The mapping suits 4 MB entries. It has the same offset in 4 MB on both sides, and physical
addresses of 32 bits. If it has an entry of its own, no reserved bit is set there. It ends at the
end of a slot, or another mapping with the same distance begins in that slot and fills it. -/
structure Fits (queue : List EarlyMapping) (m : EarlyMapping) : Prop where
  aligned : m.paddr % pgsize2 = m.vaddr % pgsize2
  low : m.paddr + m.size ≤ 2 ^ 32
  reserved : Crosses m → m.paddr % pgsize2 < 2 ^ 13
  tail : (m.vaddr + m.size) % pgsize2 = 0 ∨ ∃ m' ∈ queue,
    m'.vaddr / pgsize2 = (m.vaddr + m.size) / pgsize2 ∧ Crosses m' ∧
      m'.paddr + m.vaddr = m.paddr + m'.vaddr

/-- The slot of the address is filled, with an aligned frame, and by that address goes to `pa`. -/
def Serves (m : EarlyMapping) (va pa : Nat) : Prop :=
  Sets m (va / pgsize2) ∧ m.paddr % pgsize2 < 2 ^ 13 ∧
    u32 (frame m (va / pgsize2)) / pgsize2 * pgsize2 + va % pgsize2 = pa

theorem pde_eq (p : Nat) : pde p = u32 (p / pageSize * pageSize) + 0x83 := by
  have hlow : u32 (p / pageSize * pageSize) = 2 ^ 12 * (p / 2 ^ 12 % 2 ^ 20) := by
    unfold u32 pageSize
    omega
  rw [pde, hlow, ← Nat.two_pow_add_eq_or_of_lt (by decide)]

theorem pde_add64 (p x y : Nat) : pde (add64 p x + y) = pde (p + (x + y)) := by
  rw [pde_eq, pde_eq]
  unfold u32 add64 pageSize
  omega

theorem present_pde (p : Nat) : Present (pde p) := by
  rw [pde_eq]
  unfold Present u32 pageSize
  omega

variable {t t' : Directory} {m : EarlyMapping} {queue : List EarlyMapping}

theorem mapSlots_iff (k n p : Nat) :
    ((List.range' k n).foldlM mapSlot (t, p)).map Prod.fst = some t' ↔
      (∀ j, k ≤ j ∧ j < k + n → ¬ Present (t j)) ∧
        t' = fun j => if k ≤ j ∧ j < k + n then pde (p + (j - k) * pgsize2) else t j := by
  induction n generalizing k t p with
  | zero =>
    have hnone : ∀ j, ¬ (k ≤ j ∧ j < k) := by omega
    simp [hnone, eq_comm]
  | succ n ih =>
    rw [List.range'_succ, List.foldlM_cons]
    by_cases hk : Present (t k)
    · simp only [mapSlot, if_pos hk]
      simpa using fun h => absurd hk (h k (Nat.le_refl k) (by omega))
    · simp only [mapSlot, if_neg hk, Option.bind_eq_bind, Option.bind_some, ih]
      -- the first slot is not one of the others
      have hcases : ∀ j, k ≤ j ∧ j < k + (n + 1) ↔ j = k ∨ k + 1 ≤ j ∧ j < k + 1 + n := by omega
      have hne : ∀ j, k + 1 ≤ j ∧ j < k + 1 + n → j ≠ k := by omega
      refine and_congr ⟨fun h j hj => ?_, fun h j hj => ?_⟩ (Eq.congr_right (funext fun j => ?_))
      · rcases (hcases j).mp hj with rfl | hj
        · exact hk
        · simpa [hne j hj] using h j hj
      · simpa [hne j hj] using h j ((hcases j).mpr (.inr hj))
      · by_cases hj : k + 1 ≤ j ∧ j < k + 1 + n
        · have hsub : pgsize2 + (j - (k + 1)) * pgsize2 = (j - k) * pgsize2 := by
            rw [show j - k = j - (k + 1) + 1 by omega, Nat.succ_mul, Nat.add_comm]
          rw [if_pos hj, if_pos ((hcases j).mpr (.inr hj)), pde_add64, hsub]
        · rw [if_neg hj]
          by_cases hjk : j = k
          · simp [hjk]
          · rw [if_neg (by rw [hcases]; tauto), Function.update_of_ne hjk]

theorem pageIndexEarlyMap_iff (hm : m.NoWrap) :
    pageIndexEarlyMap t m = some t' ↔ (∀ k, Sets m k → ¬ Present (t k)) ∧
      t' = fun k => if Sets m k then pde (frame m k) else t k := by
  have hsets : ∀ k, m.vaddr / pgsize2 ≤ k ∧ k < m.vaddr / pgsize2 +
      (u32 (m.vaddr + m.size) / pgsize2 - m.vaddr / pgsize2) ↔ Sets m k := by
    intro k
    rw [u32, Nat.mod_eq_of_lt hm, Sets]
    omega
  simp only [pageIndexEarlyMap, mapSlots_iff, hsets]
  rfl

/-- `t'` has the entries that the mappings ask for, and those of `t` elsewhere. -/
structure Fills (t : Directory) (queue : List EarlyMapping) (t' : Directory) : Prop where
  set : ∀ m ∈ queue, ∀ k, Sets m k → t' k = pde (frame m k)
  unset : ∀ k, (∀ m ∈ queue, ¬ Sets m k) → t' k = t k

theorem fills_cons_iff (hm : ∀ m' ∈ queue, ∀ k, Sets m k → ¬ Sets m' k) :
    Fills t (m :: queue) t' ↔
      Fills (fun k => if Sets m k then pde (frame m k) else t k) queue t' := by
  constructor
  · intro h
    obtain ⟨hset, hsets⟩ := List.forall_mem_cons.mp h.set
    refine ⟨hsets, fun k hk => ?_⟩
    by_cases hmk : Sets m k
    · rw [if_pos hmk, hset k hmk]
    · rw [if_neg hmk, h.unset k (List.forall_mem_cons.mpr ⟨hmk, hk⟩)]
  · intro h
    refine ⟨List.forall_mem_cons.mpr ⟨fun k hk => ?_, h.set⟩, fun k hk => ?_⟩
    · rw [h.unset k fun m' hm' => hm m' hm' k hk, if_pos hk]
    · obtain ⟨hmk, hk⟩ := List.forall_mem_cons.mp hk
      rw [h.unset k hk, if_neg hmk]

theorem Apart.exists_fills (h : Apart queue) (t : Directory) : ∃ t', Fills t queue t' := by
  induction queue generalizing t with
  | nil => exact ⟨t, by simp, by simp⟩
  | cons m queue ih =>
    obtain ⟨hm, hrest⟩ := List.pairwise_cons.mp h
    simpa [fills_cons_iff hm] using ih hrest _

theorem earlyMaps_iff (hq : ∀ m ∈ queue, m.NoWrap) :
    queue.foldlM pageIndexEarlyMap t = some t' ↔
      (∀ m ∈ queue, ∀ k, Sets m k → ¬ Present (t k)) ∧ Apart queue ∧ Fills t queue t' := by
  induction queue generalizing t with
  | nil =>
    have hfills : Fills t [] t' ↔ t' = t :=
      ⟨fun h => funext fun k => h.unset k (by simp), fun h => ⟨by simp, by simp [h]⟩⟩
    simp [Apart, hfills, eq_comm]
  | cons m queue ih =>
    obtain ⟨hm, hq⟩ := List.forall_mem_cons.mp hq
    -- the entries of the first mapping are in the way of the others
    have hpresent : ∀ k, ¬ Present (if Sets m k then pde (frame m k) else t k) ↔
        ¬ Sets m k ∧ ¬ Present (t k) := by
      intro k
      by_cases hk : Sets m k <;> simp [hk, present_pde]
    rw [List.foldlM_cons, Option.bind_eq_bind, Option.bind_eq_some_iff]
    simp only [pageIndexEarlyMap_iff hm, and_assoc, ih hq, Apart, List.pairwise_cons,
      List.forall_mem_cons]
    constructor
    · rintro ⟨_, hfree, rfl, hothers, hrest, hfills⟩
      simp only [hpresent] at hothers
      have hapart : ∀ m' ∈ queue, ∀ k, Sets m k → ¬ Sets m' k :=
        fun m' hm' k hk hk' => (hothers m' hm' k hk').1 hk
      exact ⟨hfree, fun m' hm' k hk => (hothers m' hm' k hk).2, hapart, hrest,
        (fills_cons_iff hapart).mpr hfills⟩
    · rintro ⟨hfree, hothers, hapart, hrest, hfills⟩
      refine ⟨_, hfree, rfl, ?_, hrest, (fills_cons_iff hapart).mp hfills⟩
      simp only [hpresent]
      exact fun m' hm' k hk => ⟨fun hmk => hapart m' hm' k hmk hk, hothers m' hm' k hk⟩

/-- An address goes where a mapping that fills its slot sends it. -/
theorem translate_eq_some_iff (hfills : Fills (fun _ => 0) queue t) (va pa : Nat) :
    translate t va = some pa ↔ ∃ m ∈ queue, Serves m va pa := by
  have hentry : ∀ m, translate (fun _ => pde (frame m (va / pgsize2))) va = some pa ↔
      m.paddr % pgsize2 < 2 ^ 13 ∧
        u32 (frame m (va / pgsize2)) / pgsize2 * pgsize2 + va % pgsize2 = pa := by
    intro m
    have hframe : frame m (va / pgsize2) % 2 ^ 22 = m.paddr % 2 ^ 22 := by
      unfold frame pgsize2
      omega
    generalize frame m (va / pgsize2) = p at hframe ⊢
    simp only [translate, pde_eq]
    unfold Present u32 pageSize pgsize2
    split <;> simp <;> omega
  have hsame : ∀ m ∈ queue, Sets m (va / pgsize2) →
      translate t va = translate (fun _ => pde (frame m (va / pgsize2))) va := by
    intro m hm hset
    simp only [translate, hfills.set m hm _ hset]
  constructor
  · intro h
    by_cases hk : ∃ m ∈ queue, Sets m (va / pgsize2)
    · obtain ⟨m, hm, hset⟩ := hk
      exact ⟨m, hm, hset, (hentry m).mp ((hsame m hm hset).symm.trans h)⟩
    · have hzero := hfills.unset (va / pgsize2) fun m hm hset => hk ⟨m, hm, hset⟩
      simp [translate, hzero, Present] at h
  · rintro ⟨m, hm, hset, hpa⟩
    exact (hsame m hm hset).trans ((hentry m).mpr hpa)

/-- A mapping that fills a slot has its last byte. -/
theorem Sets.last_mem {k : Nat} (h : Sets m k) : (k + 1) * pgsize2 - 1 ∈ m.range.bytes := by
  rw [EarlyMapping.range, Region.mem_bytes, Region.stop]
  unfold Sets pgsize2 at *
  dsimp only
  omega

theorem apart_of_disjoint
    (h : queue.Pairwise fun a b => Disjoint a.range.bytes b.range.bytes) : Apart queue :=
  h.imp fun hab _ ha hb => Set.disjoint_left.mp hab ha.last_mem hb.last_mem

theorem Sets.crosses {k : Nat} (h : Sets m k) : Crosses m := Nat.lt_of_le_of_lt h.1 h.2

/-- A mapping that fills the slot of an address of `m` sends it where `m` wants it if the two have
the same distance, up to 4 MB. -/
theorem serves_iff {m' : EarlyMapping} {i : Nat} (hlow : m'.paddr + m'.size ≤ 2 ^ 32)
    (hset : Sets m' ((m.vaddr + i) / pgsize2)) :
    Serves m' (m.vaddr + i) (m.paddr + i) ↔ m'.paddr % pgsize2 < 2 ^ 13 ∧ m.paddr + i < 2 ^ 32 ∧
      m'.paddr / pgsize2 * pgsize2 + m.vaddr = m.paddr + m'.vaddr / pgsize2 * pgsize2 := by
  have hframe : u32 (frame m' ((m.vaddr + i) / pgsize2)) = frame m' ((m.vaddr + i) / pgsize2) := by
    refine Nat.mod_eq_of_lt ?_
    unfold Sets frame pgsize2 at *
    omega
  unfold Serves
  rw [hframe, and_iff_right hset, and_congr_right_iff]
  intro _
  unfold Sets frame pgsize2 at *
  omega

/-- What serves an address is below 4 GB. -/
theorem Serves.lt {va pa : Nat} (h : Serves m va pa) : pa < 2 ^ 32 := by
  obtain ⟨-, -, rfl⟩ := h
  unfold u32 pgsize2
  omega

section Condition

variable (hdisjoint : queue.Pairwise fun a b => Disjoint a.range.bytes b.range.bytes)
  {m' : EarlyMapping} (hm : m ∈ queue) (hm' : m' ∈ queue)

include hdisjoint hm hm'

theorem disjoint_of_ne (hne : m ≠ m') : Disjoint m.range.bytes m'.range.bytes :=
  have : Std.Symm fun a b : EarlyMapping => Disjoint a.range.bytes b.range.bytes :=
    ⟨fun _ _ h => h.symm⟩
  hdisjoint.forall hm hm' hne

/-- What fills the slot in which `m` ends begins in that slot. -/
theorem begins_behind (hpos : 0 < m.size) (hset : Sets m' ((m.vaddr + m.size) / pgsize2)) :
    m'.vaddr / pgsize2 = (m.vaddr + m.size) / pgsize2 := by
  have hne : m ≠ m' := by
    rintro rfl
    exact Nat.lt_irrefl _ hset.2
  have hlast := hset.last_mem
  have hnot := Set.disjoint_left.mp (disjoint_of_ne hdisjoint hm hm' hne)
    (show m.vaddr + m.size - 1 ∈ m.range.bytes by
      rw [EarlyMapping.range, Region.mem_bytes, Region.stop]
      dsimp only
      omega)
  rw [EarlyMapping.range, Region.mem_bytes, Region.stop] at hlast hnot
  unfold Sets pgsize2 at *
  dsimp only at hlast hnot
  omega

end Condition

/-- **Where every address is served**, the mappings suit 4 MB entries, and the other way round. -/
theorem served_iff (hdisjoint : queue.Pairwise fun a b => Disjoint a.range.bytes b.range.bytes) :
    (∀ m ∈ queue, ∀ i < m.size, ∃ m' ∈ queue, Serves m' (m.vaddr + i) (m.paddr + i)) ↔
      ∀ m ∈ queue, 0 < m.size → Fits queue m := by
  have hsize : ∀ {m : EarlyMapping}, Crosses m → 0 < m.size := by
    intro m hcross
    unfold Crosses pgsize2 at hcross
    omega
  constructor
  · intro h
    have hlow : ∀ m ∈ queue, 0 < m.size → m.paddr + m.size ≤ 2 ^ 32 := by
      intro m hm hpos
      obtain ⟨m', -, hserves⟩ := h m hm (m.size - 1) (by omega)
      have := hserves.lt
      omega
    -- whatever serves an address of a mapping has the same distance as it, up to 4 MB
    have hserver : ∀ m ∈ queue, ∀ i < m.size, ∃ m' ∈ queue, Sets m' ((m.vaddr + i) / pgsize2) ∧
        m'.paddr % pgsize2 < 2 ^ 13 ∧
        m'.paddr / pgsize2 * pgsize2 + m.vaddr = m.paddr + m'.vaddr / pgsize2 * pgsize2 := by
      intro m hm i hi
      obtain ⟨m', hm', hserves⟩ := h m hm i hi
      obtain ⟨hlow', -, heq⟩ :=
        (serves_iff (hlow m' hm' (hsize hserves.1.crosses)) hserves.1).mp hserves
      exact ⟨m', hm', hserves.1, hlow', heq⟩
    have haligned : ∀ m ∈ queue, 0 < m.size → m.paddr % pgsize2 = m.vaddr % pgsize2 := by
      intro m hm hpos
      obtain ⟨m', -, -, -, heq⟩ := hserver m hm 0 hpos
      unfold pgsize2 at *
      omega
    intro m hm hpos
    refine ⟨haligned m hm hpos, hlow m hm hpos, fun hcross => ?_, ?_⟩
    · -- the first slot is filled by the mapping itself
      obtain ⟨m', hm', hset, hreserved, -⟩ := hserver m hm 0 hpos
      have hown : Sets m (m.vaddr / pgsize2) := ⟨Nat.le_refl _, hcross⟩
      have hsame : m = m' := by
        by_contra hne
        exact Set.disjoint_left.mp (disjoint_of_ne hdisjoint hm hm' hne) hown.last_mem hset.last_mem
      exact hsame ▸ hreserved
    · by_cases hpart : (m.vaddr + m.size) % pgsize2 = 0
      · exact .inl hpart
      have hslot : (m.vaddr + (m.size - 1)) / pgsize2 = (m.vaddr + m.size) / pgsize2 := by
        unfold pgsize2 at *
        omega
      obtain ⟨m', hm', hset, -, heq⟩ := hserver m hm (m.size - 1) (by omega)
      have hbegins := begins_behind hdisjoint hm hm' hpos (hslot ▸ hset)
      have haligned' := haligned m' hm' (hsize hset.crosses)
      refine .inr ⟨m', hm', hbegins, hset.crosses, ?_⟩
      unfold pgsize2 at *
      omega
  · intro h m hm i hi
    obtain ⟨haligned, hlow, hreserved, htail⟩ := h m hm (by omega)
    by_cases hset : Sets m ((m.vaddr + i) / pgsize2)
    · refine ⟨m, hm, (serves_iff hlow hset).mpr ⟨hreserved hset.crosses, by omega, ?_⟩⟩
      unfold pgsize2 at *
      omega
    · -- the last part is left to another mapping
      have hslot : (m.vaddr + i) / pgsize2 = (m.vaddr + m.size) / pgsize2 ∧
          (m.vaddr + m.size) % pgsize2 ≠ 0 := by
        unfold Sets pgsize2 at *
        omega
      obtain ⟨m', hm', hbegins, hcross, hdist⟩ := htail.resolve_left hslot.2
      have hset' : Sets m' ((m.vaddr + i) / pgsize2) := by
        rw [hslot.1, ← hbegins]
        exact ⟨Nat.le_refl _, hcross⟩
      obtain ⟨haligned', hlow', hreserved', -⟩ := h m' hm' (hsize hcross)
      refine ⟨m', hm', (serves_iff hlow' hset').mpr ⟨hreserved' hcross, by omega, ?_⟩⟩
      unfold pgsize2 at *
      omega

/-- **The boot page index.** That every address of every mapping is translated once
`page_index_init` has succeeded, and that it fails where two mappings cannot both be honoured, holds
of a queue of disjoint mappings exactly if each of them suits 4 MB entries. -/
theorem boot_index_covers_iff (hq : ∀ m ∈ queue, m.NoWrap)
    (hdisjoint : queue.Pairwise fun a b => Disjoint a.range.bytes b.range.bytes) :
    ((∀ t, pageIndexInit queue = some t → ∀ m ∈ queue, Honours t m) ∧
        ∀ m ∈ queue, ∀ m' ∈ queue, (¬ ∃ t, Honours t m ∧ Honours t m') →
          pageIndexInit queue = none) ↔
      ∀ m ∈ queue, 0 < m.size → Fits queue m := by
  have hapart := apart_of_disjoint hdisjoint
  obtain ⟨t, hfills⟩ := hapart.exists_fills fun _ => 0
  have hinit : ∀ t, pageIndexInit queue = some t ↔ Apart queue ∧ Fills (fun _ => 0) queue t := by
    intro t
    simp [pageIndexInit, earlyMaps_iff hq, Present]
  have hrun : pageIndexInit queue = some t := (hinit t).mpr ⟨hapart, hfills⟩
  have hall : (∀ m ∈ queue, Honours t m) ↔ ∀ m ∈ queue, 0 < m.size → Fits queue m := by
    simp only [Honours, translate_eq_some_iff hfills]
    exact served_iff hdisjoint
  constructor
  · rintro ⟨hhonours, -⟩
    exact hall.mp (hhonours t hrun)
  · intro hfits
    refine ⟨fun t' hrun' => ?_, fun m hm m' hm' hnot => ?_⟩
    · obtain rfl := Option.some.inj (hrun.symm.trans hrun')
      exact hall.mpr hfits
    · exact absurd ⟨t, hall.mpr hfits m hm, hall.mpr hfits m' hm'⟩ hnot

/-- The user memory that `arch_early_init` maps, up to `USERTOP`. -/
def umem : EarlyMapping := ⟨0, 0, 0x7ff00000, .memory⟩

/-- The last 3 MB below `USERTOP` are not mapped: `page_index_init` succeeds without them. -/
theorem boot_index_misses_usertop :
    (EarlyKmmap.earlyMappingAdd (fun _ => true) umem .boot).1 = 0 ∧ umem.NoWrap ∧
      ∃ t, pageIndexInit [umem] = some t ∧ translate t 0x7fc00000 = none ∧ ¬ Honours t umem := by
  have hrun : (pageIndexInit [umem]).map (translate · 0x7fc00000) = some none := by decide +kernel
  obtain ⟨t, hinit, hnone⟩ := Option.map_eq_some_iff.mp hrun
  refine ⟨by decide, show 0 + 0x7ff00000 < 2 ^ 32 by decide, t, hinit, hnone, fun h => ?_⟩
  have hmapped := h 0x7fc00000 (by decide)
  rw [umem, Nat.zero_add, hnone] at hmapped
  cases hmapped

/-- A page within a slot, and a mapping from behind it to the end of the next slot. -/
def sharedSlot : List EarlyMapping :=
  [⟨0, 0, 0x1000, .memory⟩, ⟨0x1000, 0x1000, 0x7ff000, .memory⟩]

/-- The entry of the second mapping serves the first as well. -/
theorem boot_index_covers_shared_slot :
    ∃ t, pageIndexInit sharedSlot = some t ∧ ∀ m ∈ sharedSlot, Honours t m := by
  have hwrap : ∀ m ∈ sharedSlot, m.NoWrap := by
    simp [EarlyMapping.NoWrap, sharedSlot]
  have hdisjoint : sharedSlot.Pairwise fun a b => Disjoint a.range.bytes b.range.bytes := by
    simp [sharedSlot, EarlyMapping.range, Region.disjoint_iff, Region.stop]
  have hfits : ∀ m ∈ sharedSlot, 0 < m.size → Fits sharedSlot m := by
    refine List.forall_mem_cons.mpr ⟨fun _ => ⟨rfl, by decide, fun _ => by decide, .inr ?_⟩,
      List.forall_mem_cons.mpr ⟨fun _ => ⟨rfl, by decide, fun _ => by decide, .inl rfl⟩, by simp⟩⟩
    exact ⟨_, List.mem_cons_of_mem _ List.mem_cons_self, rfl, by decide, rfl⟩
  have hcovers := (boot_index_covers_iff hwrap hdisjoint).mpr hfits
  have hsome : (pageIndexInit sharedSlot).isSome := by decide +kernel
  obtain ⟨t, hinit⟩ := Option.isSome_iff_exists.mp hsome
  exact ⟨t, hinit, hcovers.1 t hinit⟩

end AimKernel.BootIndex
