import AimKernel.Mm.PgTableRange
import Mathlib.Data.List.Perm.Lattice

/-!
# AimKernel.Mm.PageIndex

A page index as a partial map from virtual page numbers to frames and flags, and what the
four functions on it do to that map.

`map_pages` inserts a range into the map, all of it or nothing. The other functions fall
short of their purpose in places:

* if `map_pages` fails at the very first page, the range to roll back is empty, and its last
  slot is computed from the page before. The rollback then looks at the slot of the first
  page, or, at address zero, at every slot, and follows directory entries that are zero
  (`Derails`);
* `unmap_pages` compares whole entries, flags included, with physical addresses and stops
  after the first page;
* `set_pages_perm` writes flags into the entry of a page that is not mapped;
* `uva2kva` takes a zero entry for the frame at physical address zero.
-/

namespace AimKernel

/-! ### The partial map -/

/-- The page index as a partial map: frame and flags of each virtual page number. -/
def translation (m : Mem) (pgindex vpn : Nat) : Option (Nat × Nat) :=
  let pte := pteAt m pgindex (vpn * pageSize)
  if pte = 0 then none else some (ptePaddr pte, pte % pageSize)

/-- Insertion of `n` pages from number `vpn` on, mapped to consecutive frames. -/
def insertPages (t : Nat → Option (Nat × Nat)) (vpn n paddr perm : Nat) :
    Nat → Option (Nat × Nat) := fun w =>
  if vpn ≤ w ∧ w < vpn + n then some (paddr + (w - vpn) * pageSize, perm) else t w

/-- Other flags for the pages of a range that are mapped. -/
def permitPages (t : Nat → Option (Nat × Nat)) (vpn n perm : Nat) : Nat → Option (Nat × Nat) :=
  fun w => (t w).map fun x => if vpn ≤ w ∧ w < vpn + n then (x.1, perm) else x

/-- A page index: the tables are frames of their own, and handed out. -/
structure PgIndex (s : Phys) (pgindex : Nat) : Prop where
  tables : Tables s.mem pgindex (kva2pa pgindex)
  dir : kva2pa pgindex ∈ s.frames
  leaf : ∀ {i f}, leafAt s.mem pgindex i = some f → f ∈ s.frames

/-- Every leaf table has an entry. -/
def Crowded (m : Mem) (pgindex : Nat) : Prop :=
  ∀ i, leafAt m pgindex i ≠ none → ∃ v, pdx v = i ∧ pteAt m pgindex v ≠ 0

/-- The map that memory shows. -/
def viewOf (m : Mem) (pgindex : Nat) : PageMap := ⟨leafAt m pgindex, pteAt m pgindex⟩

theorem Crowded.not_vacant {m : Mem} {pgindex : Nat} (h : Crowded m pgindex) (i : Nat)
    (hi : (viewOf m pgindex).leaf i ≠ none) : ¬ (viewOf m pgindex).Vacant i := by
  intro hvacant
  obtain ⟨w, hw, hmapped⟩ := h i hi
  exact hmapped (hvacant w hw)

theorem exists_pages {x : Nat} (hx : x % pageSize = 0) : ∃ n, x = n * pageSize :=
  ⟨x / pageSize, (Nat.div_mul_cancel (Nat.dvd_of_mod_eq_zero hx)).symm⟩

section View

variable {s s' : Phys} {m m' : Mem} {pgindex : Nat}

theorem translation_eq_none {vpn : Nat} :
    translation m pgindex vpn = none ↔ pteAt m pgindex (vpn * pageSize) = 0 := by
  unfold translation
  by_cases h : pteAt m pgindex (vpn * pageSize) = 0 <;> simp [h]

theorem translation_mapped {vpn : Nat} (h : pteAt m pgindex (vpn * pageSize) ≠ 0) :
    translation m pgindex vpn = some (ptePaddr (pteAt m pgindex (vpn * pageSize)),
      pteAt m pgindex (vpn * pageSize) % pageSize) := if_neg h

theorem translation_congr {vpn : Nat}
    (h : pteAt m' pgindex (vpn * pageSize) = pteAt m pgindex (vpn * pageSize)) :
    translation m' pgindex vpn = translation m pgindex vpn := by
  unfold translation
  rw [h]

theorem translation_pteFor {vpn p flags : Nat} (hp : p % pageSize = 0) (hlt : p < 2 ^ 32)
    (h : pteAt m pgindex (vpn * pageSize) = pteFor p flags) :
    translation m pgindex vpn = some (p, pgtablePerm flags) := by
  have hperm := pgtablePerm_lt flags
  have hu : u32 p = 2 ^ 12 * (p / 2 ^ 12) := by
    unfold u32 pageSize at *
    omega
  have hlow : pteFor p flags % pageSize = pgtablePerm flags := by
    rw [pteFor, hu, ← Nat.two_pow_add_eq_or_of_lt hperm]
    unfold pageSize
    omega
  unfold translation
  rw [h, if_neg (pteFor_ne_zero p flags), ptePaddr_pteFor_u32 hp, hlow]
  rw [show u32 p = p from Nat.mod_eq_of_lt hlt]

/-- The frames of a page index, apart from the others. -/
theorem PgIndex.held (h : PgIndex s pgindex) :
    ∃ rest, Held s pgindex (viewOf s.mem pgindex) rest := by
  have hnodup : (viewOf s.mem pgindex).leafFrames.Nodup := by
    apply List.Nodup.filterMap _ List.nodup_range
    intro i j f hi hj
    exact h.tables.inj hi hj
  have hmem : ∀ f ∈ (viewOf s.mem pgindex).leafFrames, f ∈ s.frames ∧ f ≠ kva2pa pgindex := by
    intro f hf
    obtain ⟨i, -, hi⟩ := List.mem_filterMap.mp hf
    exact ⟨h.leaf hi, h.tables.ne_dir hi⟩
  refine ⟨s.frames.diff (viewOf s.mem pgindex).leafFrames, ⟨h.tables, rfl, rfl⟩, ?_, ?_⟩
  · apply (List.subperm_append_diff_self_of_count_le _).symm
    intro f hf
    rw [List.count_eq_one_of_mem hnodup hf]
    exact List.one_le_count_iff.mpr (hmem f hf).1
  · exact List.mem_diff_of_mem h.dir fun hf => (hmem _ hf).2 rfl

theorem Held.pgIndex {M : PageMap} {rest : List Nat} (h : Held s pgindex M rest) :
    PgIndex s pgindex where
  tables := h.shows.tables
  dir := h.rest_mem h.dir
  leaf {i _} hl := h.leaf_mem ((h.leafAt_eq i).symm.trans hl)

end View

/-- An empty page index in the frame `0x1000`, and what the allocator is going to answer. -/
def blankIndex (supply : List (Option Nat)) : Phys := ⟨fun _ => 0, [0x1000], supply, []⟩

theorem blankIndex_empty (supply : List (Option Nat)) :
    Tables (blankIndex supply).mem 0x80001000 (kva2pa 0x80001000) ∧
      leafAt (blankIndex supply).mem 0x80001000 = (fun _ => none) ∧
      pteAt (blankIndex supply).mem 0x80001000 = fun _ => 0 := by
  have hm : (blankIndex supply).mem =
      (blankIndex supply).mem.fill (pa2kva (kva2pa 0x80001000)) 0 pageSize := by
    funext x
    exact (ite_self (0 : UInt8)).symm
  exact Tables.empty (by decide) (by decide) hm

theorem blankIndex_pgIndex (supply : List (Option Nat)) :
    PgIndex (blankIndex supply) 0x80001000 := by
  obtain ⟨htables, hleaf, -⟩ := blankIndex_empty supply
  refine ⟨htables, List.mem_singleton.mpr (by decide), ?_⟩
  intro i f hf
  rw [hleaf] at hf
  cases hf

theorem blankIndex_crowded (supply : List (Option Nat)) :
    Crowded (blankIndex supply).mem 0x80001000 := by
  intro i hi
  rw [(blankIndex_empty supply).2.1] at hi
  exact absurd rfl hi

/-! ### The slots of the rollback -/

/-- The slots that `__free_intermediate_pgtable` goes through. -/
def rollbackSlots (vaddr size : Nat) : List Nat :=
  List.range' (pdx vaddr) (pdx (u32 (vaddr + size + (2 ^ 32 - pageSize))) + 1 - pdx vaddr)

theorem freeIntermediatePgtable_eq (pgindex vaddr size : Nat) :
    freeIntermediatePgtable pgindex vaddr size =
      (rollbackSlots vaddr size).forM (freeIfEmpty pgindex) := rfl

theorem rollbackSlots_nodup (vaddr size : Nat) : (rollbackSlots vaddr size).Nodup :=
  List.nodup_range' 1

theorem pdx_eq {v : Nat} (h : v < 2 ^ 32) : pdx v = v / 2 ^ 22 := by
  unfold pdx
  omega

/-- After at least one page the slots are those of the pages. -/
theorem mem_rollbackSlots {v j : Nat} (hv : v % pageSize = 0) (hend : v + j * pageSize ≤ 2 ^ 32)
    (hj : 0 < j) {i : Nat} :
    i ∈ rollbackSlots v (j * pageSize) ↔ ∃ k < j, pdx (v + k * pageSize) = i := by
  have hlast : u32 (v + j * pageSize + (2 ^ 32 - pageSize)) = v + (j - 1) * pageSize := by
    unfold u32 pageSize at *
    omega
  have hlt : ∀ k < j, v + k * pageSize < 2 ^ 32 := by
    unfold pageSize at *
    omega
  have hfirst : pdx v = v / 2 ^ 22 := pdx_eq (by simpa using hlt 0 hj)
  unfold rollbackSlots
  rw [hlast, List.mem_range'_1, pdx_eq (hlt (j - 1) (by omega)), hfirst]
  constructor
  · intro hi
    by_cases hhead : i = v / 2 ^ 22
    · refine ⟨0, hj, ?_⟩
      rw [Nat.zero_mul, Nat.add_zero, hfirst, hhead]
    · -- the first page of the slot
      have hk : v + (i * 2 ^ 22 - v) / pageSize * pageSize = i * 2 ^ 22 ∧
          (i * 2 ^ 22 - v) / pageSize < j := by
        unfold pageSize at *
        omega
      refine ⟨(i * 2 ^ 22 - v) / pageSize, hk.2, ?_⟩
      rw [pdx_eq (hlt _ hk.2), hk.1]
      omega
  · intro hi
    obtain ⟨k, hk, hslot⟩ := hi
    rw [pdx_eq (hlt k hk)] at hslot
    unfold pageSize at *
    omega

/-- Before the first page the loop is empty at the beginning of a slot. -/
theorem rollbackSlots_start {v : Nat} (hv : v % 2 ^ 22 = 0) (hne : v ≠ 0) (hlt : v < 2 ^ 32) :
    rollbackSlots v 0 = [] := by
  have hlast : u32 (v + 0 + (2 ^ 32 - pageSize)) = v - pageSize := by
    unfold u32 pageSize
    omega
  unfold rollbackSlots
  rw [hlast, pdx_eq hlt, pdx_eq (by omega)]
  rw [show (v - pageSize) / 2 ^ 22 + 1 - v / 2 ^ 22 = 0 by unfold pageSize; omega]
  rfl

theorem rollbackSlots_inside {v : Nat} (hv : v % 2 ^ 22 ≠ 0) (hpage : IsPage v) :
    rollbackSlots v 0 = [pdx v] := by
  obtain ⟨ha, hlt⟩ := hpage
  have hlast : u32 (v + 0 + (2 ^ 32 - pageSize)) = v - pageSize := by
    unfold u32 pageSize at *
    omega
  unfold rollbackSlots
  rw [hlast, pdx_eq hlt, pdx_eq (by omega)]
  rw [show (v - pageSize) / 2 ^ 22 + 1 - v / 2 ^ 22 = 1 by unfold pageSize at *; omega,
    List.range'_one]

theorem rollbackSlots_zero : rollbackSlots 0 0 = List.range' 0 nrPtentries := by
  decide +kernel

/-! ### `map_pages` -/

section MapPages

variable {s s' : Phys} {pgindex v n p flags : Nat} {M : PageMap} {rest : List Nat}

variable {j q size w : Nat} {Q : Int → Phys → Prop} {M₁ : PageMap}

theorem wp_mapPages_aligned (hv : v % pageSize = 0) (hp : p % pageSize = 0)
    (hs : size % pageSize = 0) :
    wp (mapPages pgindex v p size flags) Q s ↔
      wp (mapScan pgindex (add64 p size) maxPages p v default) (fun r s1 =>
        if r.1 < 0 then
          wp (freeIntermediatePgtable pgindex v (u32 (r.2.1 + (2 ^ 32 - v)))) (fun _ => Q r.1) s1
        else
          wp (mapFill pgindex (add64 p size) flags maxPages p v r.2.2) (fun _ => Q 0) s1) s := by
  rw [mapPages, if_neg (by simp [hv, hp, hs]), wp_bind]
  apply wp_congr
  intro r s1
  obtain ⟨retcode, vcur, pd⟩ := r
  dsimp only
  by_cases hneg : retcode < 0
  · rw [if_pos hneg, if_pos hneg, wp_bind]
    exact wp_congr fun _ _ => wp_pure
  · rw [if_neg hneg, if_neg hneg, wp_bind]
    exact wp_congr fun _ _ => wp_pure

theorem pages_le_maxPages (hend : v + n * pageSize ≤ 2 ^ 32) : n ≤ maxPages := by
  unfold maxPages
  unfold pageSize at hend
  omega

/-- A loop that has pages before it is at an address that the word holds. -/
theorem u32_of_pages (hend : v + n * pageSize ≤ 2 ^ 32) (hn : 0 < n) : u32 v = v := by
  have hpos : 0 < pageSize := by decide
  have hmul : pageSize ≤ n * pageSize := Nat.le_mul_of_pos_left pageSize hn
  exact Nat.mod_eq_of_lt (by omega)

theorem Held.scan (h : Held s pgindex M rest) (hv : v % pageSize = 0)
    (hend : v + n * pageSize ≤ 2 ^ 32) (h64 : p + n * pageSize < 2 ^ 64) :
    wp (mapScan pgindex (add64 p (n * pageSize)) maxPages p v default)
      (ScanEnds pgindex rest s M v n) s := by
  rw [add64_eq h64]
  cases n with
  | zero =>
    rw [mapScan_done (by omega), wp_pure]
    exact ⟨rfl, 0, M, Nat.le_refl 0, .refl h, .zero M v, .inl ⟨rfl, rfl⟩⟩
  | succ n =>
    have hscan : wp (mapScan pgindex (p + (n + 1) * pageSize) maxPages p (u32 v) default)
        (ScanEnds pgindex rest s M v (n + 1)) s :=
      wp_mapScan h hv hend rfl h64 (pages_le_maxPages hend)
    rw [u32_of_pages hend (Nat.succ_pos n)] at hscan
    exact hscan

theorem Held.fill (h : Held s pgindex M rest) (hv : v % pageSize = 0)
    (hend : v + n * pageSize ≤ 2 ^ 32) (h64 : p + n * pageSize < 2 ^ 64)
    (hthere : ∀ k < n, M.leaf (pdx (v + k * pageSize)) ≠ none) (pd : Pagedesc) :
    wp (mapFill pgindex (add64 p (n * pageSize)) flags maxPages p v pd) (fun _ s' => ∃ M',
      Edits pgindex rest s M s' M' ∧
        Rewritten M M' v n fun k => pteFor (p + k * pageSize) flags) s := by
  rw [add64_eq h64]
  cases n with
  | zero =>
    rw [mapFill_done (by omega), wp_pure]
    exact ⟨M, .refl h, .zero M v _⟩
  | succ n =>
    have hfill : wp (mapFill pgindex (p + (n + 1) * pageSize) flags maxPages p (u32 v) pd) _ s :=
      wp_mapFill h hv hend rfl h64 (pages_le_maxPages hend) hthere
    rw [u32_of_pages hend (Nat.succ_pos n)] at hfill
    exact hfill

theorem stop_code_neg {r : Int} {P Q : Prop}
    (h : r = -EEXIST ∧ P ∨ r = -ENOMEM ∧ Q) : r < 0 := by
  cases h with
  | inl hexist => rw [hexist.1]; decide
  | inr hshort => rw [hshort.1]; decide

/-- Where nothing is in the way the call succeeds. -/
theorem wp_mapPages_succeeds (h : Held s pgindex M rest) (hv : v % pageSize = 0)
    (hp : p % pageSize = 0) (hend : v + n * pageSize ≤ 2 ^ 32) (h64 : p + n * pageSize < 2 ^ 64)
    (hclear : obstacle M s.supply s.frames v n = none) :
    wp (mapPages pgindex v p (n * pageSize) flags) (fun r _ => r = 0) s := by
  rw [wp_mapPages_aligned hv hp (Nat.mul_mod_left n pageSize)]
  apply wp_mono (h.scan hv hend h64)
  intro r s1 hends
  obtain ⟨hcode, j, M₁, hj, hedit, hscanned, hend'⟩ := hends
  rw [hclear, Option.getD_none] at hcode
  rw [if_neg (by omega)]
  cases hend' with
  | inl hdone =>
    have hthere := hscanned.there
    rw [hdone.1] at hthere
    exact wp_mono (hedit.held.fill hv hend h64 hthere _) fun _ _ _ => rfl
  | inr hstop =>
    have hneg : r.1 < 0 := stop_code_neg hstop.2.2
    omega

theorem run_mapPages_zero (h : Held s pgindex M rest) (hv : v % pageSize = 0)
    (hp : p % pageSize = 0) (hend : v + n * pageSize ≤ 2 ^ 32) (h64 : p + n * pageSize < 2 ^ 64)
    (hrun : mapPages pgindex v p (n * pageSize) flags s = .ok (0, s')) :
    ∃ M₁ M', Edits pgindex rest s M s' M' ∧ Scanned M M₁ v n ∧
      Rewritten M₁ M' v n fun k => pteFor (p + k * pageSize) flags := by
  have hwp : wp (mapPages pgindex v p (n * pageSize) flags) (fun r t => r = 0 ∧ t = s') s :=
    wp_of_run hrun ⟨rfl, rfl⟩
  rw [wp_mapPages_aligned hv hp (Nat.mul_mod_left n pageSize)] at hwp
  obtain ⟨r, s1, -, hends, hcont⟩ := wp_iff.mp (wp_and (h.scan hv hend h64) hwp)
  obtain ⟨-, j, M₁, hj, hedit, hscanned, hend'⟩ := hends
  cases hend' with
  | inl hdone =>
    obtain ⟨rfl, hzero⟩ := hdone
    rw [if_neg (by omega)] at hcont
    obtain ⟨_, s2, -, hfilled, -, rfl⟩ :=
      wp_iff.mp (wp_and (hedit.held.fill hv hend h64 hscanned.there _) hcont)
    obtain ⟨M', hedit', hwritten⟩ := hfilled
    exact ⟨M₁, M', hedit.trans hedit', hscanned, hwritten⟩
  | inr hstop =>
    have hneg : r.1 < 0 := stop_code_neg hstop.2.2
    rw [if_pos hneg] at hcont
    obtain ⟨_, _, -, hzero, -⟩ := wp_iff.mp hcont
    omega

theorem page_of_range (hw : q ≤ w ∧ w < q + n) :
    w * pageSize = q * pageSize + (w - q) * pageSize ∧ w - q < n := by
  refine ⟨?_, by omega⟩
  rw [← Nat.add_mul]
  congr 1
  omega

theorem page_not_in_range (hw : ¬ (q ≤ w ∧ w < q + n)) :
    ∀ k < n, w * pageSize ≠ q * pageSize + k * pageSize := by
  intro k hk heq
  rw [← Nat.add_mul] at heq
  have := Nat.eq_of_mul_eq_mul_right (by decide) heq
  omega

theorem or_offset {x o : Nat} (hx : x % pageSize = 0) (ho : o < pageSize) : x ||| o = x + o := by
  have hx' : x = 2 ^ 12 * (x / 2 ^ 12) := by
    unfold pageSize at hx
    omega
  rw [hx', ← Nat.two_pow_add_eq_or_of_lt ho]

/-- The address of a page of a range, with its offset. -/
theorem mapped_offset {v p i n : Nat} (hv : v % pageSize = 0) (hi : i < n * pageSize) :
    i / pageSize < n ∧ ptrAlignBelow (v + i) = v + i / pageSize * pageSize ∧
      (v + i) % pageSize = i % pageSize ∧ p + i / pageSize * pageSize + i % pageSize = p + i := by
  unfold ptrAlignBelow pageSize at *
  omega

/-- **`map_pages` refines insertion into a partial map.** On a page-aligned range, with
frames for the leaf tables that are missing, it returns zero exactly if no page of the range
is mapped. Then it has inserted the range, mapped to consecutive frames, and `uva2kva` finds
them. -/
theorem map_pages_refines_insert {vaddr paddr size : Nat} (h : PgIndex s pgindex)
    (hv : vaddr % pageSize = 0) (hp : paddr % pageSize = 0) (hs : size % pageSize = 0)
    (hvend : vaddr + size ≤ 2 ^ 32) (hpend : paddr + size ≤ 2 ^ 32)
    (hstock : Stocked IsFrame s.frames (tablesNeeded
      (fun i => (leafAt s.mem pgindex i).isNone) vaddr (size / pageSize)) s.supply) :
    ((∃ s', mapPages pgindex vaddr paddr size flags s = .ok (0, s')) ↔
      ∀ k < size / pageSize, translation s.mem pgindex (vaddr / pageSize + k) = none) ∧
    ∀ s', mapPages pgindex vaddr paddr size flags s = .ok (0, s') →
      PgIndex s' pgindex ∧
        translation s'.mem pgindex = insertPages (translation s.mem pgindex) (vaddr / pageSize)
          (size / pageSize) paddr (pgtablePerm flags) ∧
        ∀ i < size, uva2kva pgindex (vaddr + i) s' = .ok (pa2kva (paddr + i), s') := by
  obtain ⟨rest, hheld⟩ := h.held
  obtain ⟨n, rfl⟩ := exists_pages hs
  obtain ⟨q, rfl⟩ := exists_pages hv
  have hpos : 0 < pageSize := by decide
  have h64 : paddr + n * pageSize < 2 ^ 64 := by omega
  rw [Nat.mul_div_cancel n hpos] at hstock ⊢
  rw [Nat.mul_div_cancel q hpos]
  have hnone : ∀ k, translation s.mem pgindex (q + k) = none ↔
      (viewOf s.mem pgindex).pte (q * pageSize + k * pageSize) = 0 := by
    intro k
    rw [translation_eq_none, Nat.add_mul]
    exact Iff.rfl
  constructor
  · constructor
    · intro hrun k hk
      obtain ⟨s', hrun⟩ := hrun
      obtain ⟨M₁, M', -, hscanned, -⟩ := run_mapPages_zero hheld hv hp hvend h64 hrun
      exact (hnone k).mpr (hscanned.free k hk)
    · intro hfree
      have hclear := obstacle_eq_none (fun k hk => (hnone k).mp (hfree k hk)) hstock
      obtain ⟨_, s', hrun, rfl⟩ :=
        wp_iff.mp (wp_mapPages_succeeds hheld hv hp hvend h64 hclear)
      exact ⟨s', hrun⟩
  · intro s' hrun
    obtain ⟨M₁, M', hedit, hscanned, hwritten⟩ := run_mapPages_zero hheld hv hp hvend h64 hrun
    have hshows := hedit.held.shows
    have hentry : ∀ k < n, M'.pte (q * pageSize + k * pageSize) = pteFor (paddr + k * pageSize) flags :=
      hwritten.pte
    have haligned : ∀ k, (paddr + k * pageSize) % pageSize = 0 := by
      intro k
      rw [Nat.add_mul_mod_self_right]
      exact hp
    have hsmall : ∀ k < n, paddr + k * pageSize < 2 ^ 32 := by
      intro k hk
      have := Nat.mul_le_mul_right pageSize (Nat.succ_le_of_lt hk)
      rw [Nat.succ_mul] at this
      omega
    refine ⟨hedit.held.pgIndex, ?_, ?_⟩
    · funext w
      unfold insertPages
      by_cases hw : q ≤ w ∧ w < q + n
      · obtain ⟨hpage, hk⟩ := page_of_range hw
        rw [if_pos hw]
        apply translation_pteFor (haligned _) (hsmall _ hk)
        rw [hshows.pte, hpage]
        exact hentry _ hk
      · rw [if_neg hw]
        apply translation_congr
        rw [hshows.pte, hwritten.other _ (page_not_in_range hw), hscanned.pte]
        rfl
    · intro i hi
      obtain ⟨hk, hbelow, hoff, hsum⟩ := mapped_offset (p := paddr) hv hi
      have hleaf : M'.leaf (pdx (q * pageSize + i)) ≠ none := by
        obtain ⟨-, hslot, -⟩ := ptrAlignBelow_page (u := q * pageSize + i) (by omega)
        rw [hbelow] at hslot
        rw [← hslot, hwritten.leaf]
        exact hscanned.there _ hk
      obtain ⟨f, hf⟩ := Option.ne_none_iff_exists'.mp hleaf
      obtain ⟨kva, _, hfound, rfl, hkva⟩ :=
        wp_iff.mp (wp_uva2kva hshows (u := q * pageSize + i) (by omega))
      rw [hfound, hkva, hf]
      rw [hbelow, hentry _ hk, ptePaddr_pteFor_u32 (haligned _), hoff,
        show u32 (paddr + i / pageSize * pageSize) = _ from Nat.mod_eq_of_lt (hsmall _ hk),
        or_offset (haligned _) (Nat.mod_lt i hpos), hsum]

/-- Two pages with a leaf table each. -/
theorem map_pages_refines_insert_two_pages : ∃ s',
    mapPages 0x80001000 0x3ff000 0x5000 0x2000 VMA_WRITE
        (blankIndex [some 0x2000, some 0x3000]) = .ok (0, s') ∧
      uva2kva 0x80001000 0x400123 s' = .ok (0x80006123, s') := by
  obtain ⟨hzero, hdone⟩ := @map_pages_refines_insert (blankIndex [some 0x2000, some 0x3000])
    0x80001000 VMA_WRITE 0x3ff000 0x5000 0x2000 (blankIndex_pgIndex _) (by decide) (by decide)
    (by decide) (by decide) (by decide) (by decide +kernel)
  obtain ⟨s', hrun⟩ := hzero.mpr fun k _ => by
    rw [translation_eq_none, (blankIndex_empty _).2.2]
  exact ⟨s', hrun, (hdone s' hrun).2.2 0x1123 (by decide)⟩

/-! ### Failing without a trace -/

/-- The pages that the passes come to: none if the end of the physical range wraps. -/
def pagesReached (paddr size : Nat) : Nat :=
  if paddr + size < 2 ^ 64 then size / pageSize else 0

/-- The call is going to fail at its first page, and the rollback then meets a directory
entry that is zero. -/
def Derails (s : Phys) (pgindex vaddr : Nat) : Prop :=
  leafAt s.mem pgindex (pdx vaddr) = none ∧ s.answer pageSize = none ∧
      (vaddr % 2 ^ 22 ≠ 0 ∨ vaddr = 0) ∨
    vaddr = 0 ∧ pteAt s.mem pgindex 0 ≠ 0 ∧ ∃ i < nrPtentries, leafAt s.mem pgindex i = none

/-- The entries, the leaf tables and the frames that are handed out are the same. -/
structure Unaltered (s s' : Phys) (pgindex : Nat) : Prop where
  leaf : leafAt s'.mem pgindex = leafAt s.mem pgindex
  pte : pteAt s'.mem pgindex = pteAt s.mem pgindex
  frames : s'.frames.Perm s.frames

/-- Freeing the empty leaf tables undoes the first pass. -/
theorem Scanned.undone {M2 : PageMap} {slots : List Nat} (hheld : Held s pgindex M rest)
    (hcrowded : ∀ i, M.leaf i ≠ none → ¬ M.Vacant i) (h : Scanned M M₁ v j)
    (hpruned : Pruned M₁ M2 slots) (hcover : ∀ k < j, pdx (v + k * pageSize) ∈ slots)
    : M2.leaf = M.leaf ∧ M2.pte = M.pte := by
  refine ⟨?_, hpruned.pte.trans h.pte⟩
  have hvacant : ∀ i, M₁.Vacant i → M.Vacant i := fun i hv w hw =>
    (congrFun h.pte w).symm.trans (hv w hw)
  funext i
  cases h.leaf i with
  | inl hsame =>
    cases hi : M.leaf i with
    | none => exact hpruned.absent (hsame.trans hi)
    | some f =>
      have hcrowd := hcrowded i (by rw [hi]; exact Option.some_ne_none f)
      rw [hpruned.kept i fun _ hv => hcrowd (hvacant i hv), hsame, hi]
  | inr hnew =>
    obtain ⟨hnone, k, hk, hslot⟩ := hnew
    have hempty : M₁.Vacant i := by
      intro w hw
      rw [h.pte]
      exact hheld.pte_of_absent (hw ▸ hnone)
    rw [hpruned.gone i (hslot ▸ hcover k hk) hempty, hnone]

/-- Maps with the same leaf tables are held with the same frames. -/
theorem Held.frames_perm {M' : PageMap} (h : Held s pgindex M rest)
    (h' : Held s' pgindex M' rest) (hleaf : M'.leaf = M.leaf) : s'.frames.Perm s.frames := by
  have hframes : M'.leafFrames = M.leafFrames := by
    unfold PageMap.leafFrames
    rw [hleaf]
  have hperm := h'.frames
  rw [hframes] at hperm
  exact hperm.trans h.frames.symm

/-- The rollback, where all the slots that it looks at have leaf tables. -/
theorem wp_rollback {s1 : Phys} (hheld : Held s pgindex M rest)
    (hcrowded : ∀ i, M.leaf i ≠ none → ¬ M.Vacant i) (hedit : Edits pgindex rest s M s1 M₁)
    (hscanned : Scanned M M₁ v j) (hthere : ∀ i ∈ rollbackSlots v size, M₁.leaf i ≠ none)
    (hcover : ∀ k < j, pdx (v + k * pageSize) ∈ rollbackSlots v size) :
    wp (freeIntermediatePgtable pgindex v size) (fun _ s' => Unaltered s s' pgindex) s1 := by
  apply wp_mono (wp_freeSlots (rollbackSlots_nodup v size) hedit.held hthere)
  intro _ s2 hfreed
  obtain ⟨M2, hedit2, hpruned⟩ := hfreed
  obtain ⟨hleaf, hpte⟩ := hscanned.undone hheld hcrowded hpruned hcover
  have hshows := hedit2.held.shows
  refine ⟨?_, ?_, ?_⟩
  · rw [hshows.leaf, hleaf, hheld.shows.leaf]
  · rw [hshows.pte, hpte, hheld.shows.pte]
  · exact hheld.frames_perm hedit2.held hleaf

/-- The rollback of a call that failed at its first page, unless it derails. -/
theorem first_page_slots (hheld : Held s pgindex (viewOf s.mem pgindex) rest) (hpage : IsPage v)
    (hsafe : ¬ Derails s pgindex v)
    (hwhy : pteAt s.mem pgindex v ≠ 0 ∨
      leafAt s.mem pgindex (pdx v) = none ∧ s.answer pageSize = none) :
    ∀ i ∈ rollbackSlots v 0, leafAt s.mem pgindex i ≠ none := by
  intro i hi
  by_cases hzero : v = 0
  · rw [hzero] at hi hwhy hsafe
    rw [rollbackSlots_zero, List.mem_range'_1, Nat.zero_add] at hi
    intro hnone
    cases hwhy with
    | inl hmapped => exact hsafe (.inr ⟨rfl, hmapped, i, hi.2, hnone⟩)
    | inr hshort => exact hsafe (.inl ⟨hshort.1, hshort.2, .inr rfl⟩)
  · by_cases hstart : v % 2 ^ 22 = 0
    · rw [rollbackSlots_start hstart hzero hpage.2] at hi
      cases hi
    · rw [rollbackSlots_inside hstart hpage, List.mem_singleton] at hi
      rw [hi]
      cases hwhy with
      | inl hmapped => exact fun hnone => hmapped (hheld.pte_of_absent hnone)
      | inr hshort => exact absurd (.inl ⟨hshort.1, hshort.2, .inl hstart⟩) hsafe

theorem mapPages_derails (hheld : Held s pgindex (viewOf s.mem pgindex) rest) (hpage : IsPage v)
    (hp : p % pageSize = 0) (hlt : p < add64 p (n * pageSize)) (hderails : Derails s pgindex v)
    : ¬ wp (mapPages pgindex v p (n * pageSize) flags) Q s := by
  rw [wp_mapPages_aligned hpage.1 hp (Nat.mul_mod_left n pageSize), maxPages_eq]
  intro hwp
  -- the first pass stops at once, in a state with the same map
  have hstop : wp (mapScan pgindex (add64 p (n * pageSize)) (maxPages - 1 + 1) p v default)
      (fun r s1 => r.1 < 0 ∧ r.2.1 = v ∧ Held s1 pgindex (viewOf s.mem pgindex) rest) s := by
    apply wp_mapScan_round hheld hpage hlt
    case hexist => exact fun _ _ => ⟨(by decide : -EEXIST < 0), rfl, hheld⟩
    case hshort => exact fun _ _ _ => ⟨(by decide : -ENOMEM < 0), rfl, hheld.skip.held⟩
    case hthere =>
      intro _ hfree hthere
      cases hderails with
      | inl hshort => exact absurd hshort.1 hthere
      | inr hexist => exact absurd (hexist.1 ▸ hfree) hexist.2.1
    case hnew =>
      intro _ l _ hnone hans _
      cases hderails with
      | inl hshort => exact absurd (hans.symm.trans hshort.2.1) (Option.some_ne_none l)
      | inr hexist => exact absurd (hheld.pte_of_absent hnone) (hexist.1 ▸ hexist.2.1)
  obtain ⟨r, s1, -, ⟨hneg, hcur, hheld1⟩, hcont⟩ := wp_iff.mp (wp_and hstop hwp)
  have hsize : u32 (v + (2 ^ 32 - v)) = 0 := by
    rw [Nat.add_sub_cancel' (Nat.le_of_lt hpage.2)]
    rfl
  rw [if_pos hneg, hcur, hsize, freeIntermediatePgtable_eq] at hcont
  obtain ⟨i, hi, hlt, hnone⟩ : ∃ i ∈ rollbackSlots v 0, i < nrPtentries ∧
      leafAt s.mem pgindex i = none := by
    by_cases hzero : v = 0
    · rw [hzero, rollbackSlots_zero]
      cases hderails with
      | inl hshort =>
        rw [hzero] at hshort
        exact ⟨pdx 0, by decide, pdx_lt 0, hshort.1⟩
      | inr hexist =>
        obtain ⟨i, hi, hnone⟩ := hexist.2.2
        exact ⟨i, by rw [List.mem_range'_1]; omega, hi, hnone⟩
    · cases hderails with
      | inl hshort =>
        rw [rollbackSlots_inside (hshort.2.2.resolve_right hzero) hpage]
        exact ⟨pdx v, List.mem_singleton_self _, pdx_lt v, hshort.1⟩
      | inr hexist => exact absurd hexist.1 hzero
  have hslots : ∀ k ∈ rollbackSlots v 0, k < nrPtentries := by
    intro k hk
    have hlast := pdx_lt (u32 (v + 0 + (2 ^ 32 - pageSize)))
    unfold rollbackSlots at hk
    rw [List.mem_range'_1] at hk
    omega
  exact freeSlots_absent hheld1 hslots hi hnone hcont

/-- A call that does not derail returns, with the code of whatever stopped the first pass. -/
theorem wp_mapPages_traceless (hheld : Held s pgindex (viewOf s.mem pgindex) rest)
    (hcrowded : Crowded s.mem pgindex) (hv : v % pageSize = 0) (hp : p % pageSize = 0)
    (hend : v + n * pageSize ≤ 2 ^ 32) (h64 : p + n * pageSize < 2 ^ 64)
    (hsafe : ¬ (0 < n ∧ Derails s pgindex v)) :
    wp (mapPages pgindex v p (n * pageSize) flags) (fun r s' =>
      r = (obstacle (viewOf s.mem pgindex) s.supply s.frames v n).getD 0 ∧
        (obstacle (viewOf s.mem pgindex) s.supply s.frames v n ≠ none →
          Unaltered s s' pgindex)) s := by
  rw [wp_mapPages_aligned hv hp (Nat.mul_mod_left n pageSize)]
  apply wp_mono (hheld.scan hv hend h64)
  intro r s1 hends
  obtain ⟨hcode, j, M₁, hj, hedit, hscanned, hend'⟩ := hends
  cases hend' with
  | inl hdone =>
    obtain ⟨rfl, hzero⟩ := hdone
    rw [if_neg (by omega)]
    apply wp_mono (hedit.held.fill hv hend h64 hscanned.there _)
    intro _ s' _
    rw [← hcode, hzero]
    refine ⟨rfl, fun hstopped => ?_⟩
    obtain ⟨c, hc⟩ := Option.ne_none_iff_exists'.mp hstopped
    rw [hc, Option.getD_some, hzero] at hcode
    cases obstacle_code hc with
    | inl hexist => rw [hexist] at hcode; exact absurd hcode (by decide)
    | inr hshort => rw [hshort] at hcode; exact absurd hcode (by decide)
  | inr hstop =>
    obtain ⟨hjn, hcur, hwhy⟩ := hstop
    have hpage : v + j * pageSize + pageSize ≤ 2 ^ 32 := by
      have := Nat.mul_le_mul_right pageSize (Nat.succ_le_of_lt hjn)
      rw [Nat.succ_mul] at this
      omega
    have hpos : 0 < pageSize := by decide
    have hsize : u32 (v + j * pageSize + (2 ^ 32 - v)) = j * pageSize := by
      unfold u32
      omega
    rw [if_pos (stop_code_neg hwhy), hcur, hsize]
    have hslots : (∀ i ∈ rollbackSlots v (j * pageSize), M₁.leaf i ≠ none) ∧
        ∀ k < j, pdx (v + k * pageSize) ∈ rollbackSlots v (j * pageSize) := by
      cases j with
      | zero =>
        have hsame : ∀ i, M₁.leaf i = leafAt s.mem pgindex i := by
          intro i
          cases hscanned.leaf i with
          | inl hsame => exact hsame
          | inr hnew =>
            obtain ⟨-, k, hk, -⟩ := hnew
            exact absurd hk (Nat.not_lt_zero k)
        refine ⟨?_, fun k hk => absurd hk (Nat.not_lt_zero k)⟩
        intro i hi
        rw [hsame]
        refine first_page_slots hheld ⟨hv, by omega⟩ (fun hd => hsafe ⟨hjn, hd⟩) ?_ i hi
        cases hwhy with
        | inl hexist => exact .inl hexist.2
        | inr hshort => exact .inr ⟨hshort.2.1, hshort.2.2 rfl⟩
      | succ j =>
        have hmem := fun {i} => mem_rollbackSlots (i := i) hv
          (Nat.le_trans (Nat.le_add_right _ _) hpage) (Nat.succ_pos j)
        refine ⟨fun i hi => ?_, fun k hk => hmem.mpr ⟨k, hk, rfl⟩⟩
        obtain ⟨k, hk, hslot⟩ := hmem.mp hi
        exact hslot ▸ hscanned.there k hk
    apply wp_mono (wp_rollback hheld hcrowded.not_vacant hedit hscanned hslots.1 hslots.2)
    exact fun _ s' hsame => ⟨hcode, fun _ => hsame⟩

/-- If the end of the physical range wraps, there is nothing to do. -/
theorem wp_mapPages_wrapped (hv : v % pageSize = 0) (hp : p % pageSize = 0)
    (hs : size % pageSize = 0) (hwrap : ¬ p < add64 p size) :
    wp (mapPages pgindex v p size flags) (fun r s' => r = 0 ∧ s' = s) s := by
  rw [wp_mapPages_aligned hv hp hs, mapScan_done hwrap, wp_pure]
  dsimp only
  rw [if_neg (by decide), mapFill_done hwrap, wp_pure]
  exact ⟨rfl, rfl⟩

/-- **A failed `map_pages` leaves no trace**, unless its rollback derails: for a page index
without empty leaf tables and a page-aligned range, the call returns the code of whatever stops
the first pass, and then the entries, the leaf tables and the frames are as before. -/
theorem failed_map_leaves_no_trace {vaddr paddr size : Nat} (h : PgIndex s pgindex)
    (hcrowded : Crowded s.mem pgindex) (hv : vaddr % pageSize = 0) (hp : paddr % pageSize = 0)
    (hs : size % pageSize = 0) (hvend : vaddr + size ≤ 2 ^ 32) (hp64 : paddr < 2 ^ 64) :
    (∃ s', mapPages pgindex vaddr paddr size flags s =
        .ok ((obstacle (viewOf s.mem pgindex) s.supply s.frames vaddr
          (pagesReached paddr size)).getD 0, s') ∧
        (obstacle (viewOf s.mem pgindex) s.supply s.frames vaddr (pagesReached paddr size) ≠ none →
          Unaltered s s' pgindex)) ↔
      ¬ (0 < pagesReached paddr size ∧ Derails s pgindex vaddr) := by
  obtain ⟨rest, hheld⟩ := h.held
  obtain ⟨n, rfl⟩ := exists_pages hs
  have hpos : 0 < pageSize := by decide
  by_cases h64 : paddr + n * pageSize < 2 ^ 64
  · rw [pagesReached, if_pos h64, Nat.mul_div_cancel n hpos]
    constructor
    · intro hruns hbad
      obtain ⟨s', hrun, -⟩ := hruns
      have hmul : pageSize ≤ n * pageSize := Nat.le_mul_of_pos_left pageSize hbad.1
      exact mapPages_derails hheld ⟨hv, by omega⟩ hp (by rw [add64_eq h64]; omega) hbad.2
        (wp_of_run (Q := fun _ _ => True) hrun trivial)
    · intro hsafe
      obtain ⟨_, s', hrun, rfl, hsame⟩ :=
        wp_iff.mp (wp_mapPages_traceless hheld hcrowded hv hp hvend h64 hsafe)
      exact ⟨s', hrun, hsame⟩
  · rw [pagesReached, if_neg h64]
    have hwrap : ¬ paddr < add64 paddr (n * pageSize) := by
      unfold add64
      omega
    have hwp : wp (mapPages pgindex vaddr paddr (n * pageSize) flags) _ s :=
      wp_mapPages_wrapped hv hp hs hwrap
    obtain ⟨_, s', hrun, rfl, -⟩ := wp_iff.mp hwp
    constructor
    · exact fun _ hbad => absurd hbad.1 (Nat.lt_irrefl 0)
    · exact fun _ => ⟨s', hrun, fun hno => absurd rfl hno⟩

/-- There is a frame for the first leaf table and none for the second. -/
theorem failed_map_leaves_no_trace_two_pages : ∃ s',
    mapPages 0x80001000 0x3ff000 0x5000 0x2000 VMA_WRITE (blankIndex [some 0x2000]) =
        .ok (-ENOMEM, s') ∧ Unaltered (blankIndex [some 0x2000]) s' 0x80001000 := by
  have hcode : obstacle (viewOf (blankIndex [some 0x2000]).mem 0x80001000)
      (blankIndex [some 0x2000]).supply (blankIndex [some 0x2000]).frames
      0x3ff000 (pagesReached 0x5000 0x2000) = some (-ENOMEM) := by decide +kernel
  have htrace := @failed_map_leaves_no_trace (blankIndex [some 0x2000]) 0x80001000 VMA_WRITE
    0x3ff000 0x5000 0x2000 (blankIndex_pgIndex _) (blankIndex_crowded _) (by decide) (by decide)
    (by decide) (by decide) (by decide)
  obtain ⟨s', hrun, hsame⟩ := htrace.mpr fun hbad => by
    cases hbad.2 with
    | inl hshort => exact absurd hshort.2.1 (by decide +kernel)
    | inr hexist => exact absurd hexist.1 (by decide)
  exact ⟨s', hrun, hsame (Option.some_ne_none _)⟩

/-- Without a frame for the first leaf table the rollback follows the zero entry of its
slot. -/
theorem mapPages_follows_zero_entry :
    PgIndex (blankIndex []) 0x80001000 ∧ Crowded (blankIndex []).mem 0x80001000 ∧
      mapPages 0x80001000 0x1000 0x5000 0x1000 VMA_WRITE (blankIndex []) = .error (.wild 0) := by
  refine ⟨blankIndex_pgIndex _, blankIndex_crowded _, ?_⟩
  with_unfolding_all rfl

end MapPages

/-! ### `unmap_pages` -/

section UnmapPages

variable {s s' : Phys} {pgindex v n p flags : Nat} {M : PageMap} {rest : List Nat}

theorem rollbackSlots_one (hpage : IsPage v) : rollbackSlots v pageSize = [pdx v] := by
  have hlast : u32 (v + pageSize + (2 ^ 32 - pageSize)) = v := by
    have := hpage.2
    unfold u32 pageSize
    omega
  unfold rollbackSlots
  rw [hlast, Nat.add_sub_cancel_left, List.range'_one]

/-- A page with its flags is not the address of its frame. -/
theorem pteFor_ne_self (hp : p % pageSize = 0) (flags : Nat) : pteFor p flags ≠ p := by
  have hperm := pgtablePerm_lt flags
  have hne : pgtablePerm flags ≠ 0 := by
    cases pgtablePerm_eq flags with
    | inl h => rw [h]; decide
    | inr h => rw [h]; decide
  have hu : u32 p = 2 ^ 12 * (u32 p / 2 ^ 12) := by
    unfold u32 pageSize at *
    omega
  rw [pteFor, hu, ← Nat.two_pow_add_eq_or_of_lt hperm]
  unfold pageSize at hp
  omega

/-- `unmap_pages` stops after the first page if the entry of the second is not the next
frame's address. -/
theorem wp_unmapPages_stops {size : Nat} (h : Held s pgindex M rest) (hpage : IsPage v)
    (hend : v + size < 2 ^ 32) (hpos : 0 < size) (hs : size % pageSize = 0)
    (hthere : M.leaf (pdx v) ≠ none)
    (hnext : pageSize < size → M.leaf (pdx (v + pageSize)) ≠ none ∧
      M.pte (v + pageSize) ≠ add64 (ptePaddr (M.pte v)) pageSize) :
    wp (unmapPages pgindex v size) (fun r s' => r = (pageSize, some (ptePaddr (M.pte v))) ∧
      ∃ M', Edits pgindex rest s M s' M' ∧ Pruned (M.setPte v 0) M' [pdx v]) s := by
  have hsize : pageSize ≤ size := Nat.le_of_dvd hpos (Nat.dvd_of_mod_eq_zero hs)
  have hpagePos : 0 < pageSize := by decide
  have hvend : u32 (v + size) = v + size := Nat.mod_eq_of_lt hend
  have hv' : u32 (v + pageSize) = v + pageSize := Nat.mod_eq_of_lt (by omega)
  -- the loop clears the first entry and stops
  have hloop : wp (unmapLoop pgindex (v + size) (maxPages - 2 + 1 + 1) v 0 0 default none)
      (fun r s1 => r = (pageSize, some (ptePaddr (M.pte v))) ∧
        Edits pgindex rest s M s1 (M.setPte v 0)) s := by
    apply wp_unmapLoop_round h hpage (by omega) hthere
    case hstop => exact fun hne => absurd rfl hne
    case hnext =>
      intro pd' m' _ hedit
      rw [if_pos rfl, if_pos rfl, hv', Nat.zero_add, show u32 pageSize = pageSize by decide]
      by_cases hmore : pageSize < size
      · obtain ⟨hthere', hpte⟩ := hnext hmore
        have hne : v + pageSize ≠ v := by omega
        apply wp_unmapLoop_round hedit.held ⟨by rw [Nat.add_mod_right]; exact hpage.1, by omega⟩
          (by omega) hthere'
        case hstop => exact fun _ _ => ⟨rfl, hedit⟩
        case hnext =>
          intro _ _ hgo _
          cases hgo with
          | inl hzero => exact absurd hzero (by decide)
          | inr heq => exact absurd (PageMap.setPte_of_ne M hne 0 ▸ heq) hpte
      · rw [unmapLoop_done (by omega), wp_pure]
        exact ⟨rfl, hedit⟩
  have hfuel : maxPages = maxPages - 2 + 1 + 1 := by
    unfold maxPages
    rfl
  rw [unmapPages, wp_bind, hvend, hfuel]
  apply wp_mono hloop
  intro r s1 hr
  obtain ⟨rfl, hedit⟩ := hr
  rw [wp_bind, freeIntermediatePgtable_eq, rollbackSlots_one hpage]
  apply wp_mono (wp_freeSlots (List.nodup_singleton _) hedit.held ?_)
  · intro _ s2 hfreed
    obtain ⟨M', hedit', hpruned⟩ := hfreed
    exact wp_pure.mpr ⟨rfl, M', hedit.trans hedit', hpruned⟩
  · intro i hi
    rw [List.mem_singleton.mp hi]
    exact hthere

/-- The physical address that `unmap_pages` stores is one of 32 bits. -/
theorem run_unmapLoop_paddr {vend fuel vcur unmapped pcur : Nat} {pd : Pagedesc}
    {stored : Option Nat} {r : Nat × Option Nat} (hstored : ∀ a, stored = some a → a < 2 ^ 32)
    (hrun : unmapLoop pgindex vend fuel vcur unmapped pcur pd stored s = .ok (r, s')) :
    ∀ a, r.2 = some a → a < 2 ^ 32 := by
  induction fuel generalizing s vcur unmapped pcur pd stored with
  | zero =>
    rw [unmapLoop.eq_def] at hrun
    split at hrun
    · cases hrun
    · obtain ⟨rfl, -⟩ := run_pure.mp hrun
      exact hstored
  | succ fuel ih =>
    rw [unmapLoop] at hrun
    split at hrun
    · obtain ⟨⟨retcode, pd'⟩, s1, -, hrun⟩ := run_bind.mp hrun
      dsimp only at hrun
      split at hrun
      · cases hrun
      · obtain ⟨_, s2, hget, hrun⟩ := run_bind.mp hrun
        split at hrun
        · obtain ⟨rfl, -⟩ := run_pure.mp hrun
          exact hstored
        · by_cases hfirst : unmapped = 0
          · rw [if_pos hfirst] at hrun
            refine ih ?_ hrun
            intro a ha
            rw [← Option.some.inj ha]
            exact Nat.lt_of_le_of_lt Nat.and_le_right (by decide)
          · rw [if_neg hfirst] at hrun
            exact ih hstored hrun
    · obtain ⟨rfl, -⟩ := run_pure.mp hrun
      exact hstored

/-- **`unmap_pages` undoes `map_pages`** exactly for a single page at a 32-bit physical
address: with more pages it stops after the first one. -/
theorem unmap_undoes_map_iff {s₁ : Phys} {vaddr paddr size : Nat} (h : PgIndex s pgindex)
    (hcrowded : Crowded s.mem pgindex) (hv : vaddr % pageSize = 0) (hp : paddr % pageSize = 0)
    (hs : size % pageSize = 0) (hpos : 0 < size) (hvend : vaddr + size < 2 ^ 32)
    (hmap : mapPages pgindex vaddr paddr size flags s = .ok (0, s₁)) :
    (∃ s₂, unmapPages pgindex vaddr size s₁ = .ok ((size, some paddr), s₂) ∧
      pteAt s₂.mem pgindex = pteAt s.mem pgindex ∧ leafAt s₂.mem pgindex = leafAt s.mem pgindex) ↔
      size = pageSize ∧ paddr < 2 ^ 32 := by
  obtain ⟨rest, hheld⟩ := h.held
  obtain ⟨n, rfl⟩ := exists_pages hs
  have hpagePos : 0 < pageSize := by decide
  have hn : 0 < n := Nat.pos_of_mul_pos_right hpos
  have hpage : IsPage vaddr := ⟨hv, by omega⟩
  -- what `unmap_pages` does after `map_pages`
  have hunmap : paddr < 2 ^ 32 → ∃ M₁ M', Edits pgindex rest s (viewOf s.mem pgindex) s₁ M' ∧
      Scanned (viewOf s.mem pgindex) M₁ vaddr n ∧
      Rewritten M₁ M' vaddr n (fun k => pteFor (paddr + k * pageSize) flags) ∧
      wp (unmapPages pgindex vaddr (n * pageSize)) (fun r s' => r = (pageSize, some paddr) ∧
        ∃ M₂, Edits pgindex rest s₁ M' s' M₂ ∧ Pruned (M'.setPte vaddr 0) M₂ [pdx vaddr]) s₁ := by
    intro hp32
    obtain ⟨M₁, M', hedit, hscanned, hwritten⟩ :=
      run_mapPages_zero hheld hv hp (Nat.le_of_lt hvend) (by omega) hmap
    have hfirst : M'.pte vaddr = pteFor paddr flags := by simpa using hwritten.pte 0 hn
    have hpa : ptePaddr (M'.pte vaddr) = paddr := by
      rw [hfirst, ptePaddr_pteFor_u32 hp]
      exact Nat.mod_eq_of_lt hp32
    have hthere : M'.leaf (pdx vaddr) ≠ none := by
      rw [hwritten.leaf]
      simpa using hscanned.there 0 hn
    have hstops := wp_unmapPages_stops hedit.held hpage hvend hpos hs hthere fun hmore => by
      have hone : 1 < n := by
        apply Nat.lt_of_mul_lt_mul_right (a := pageSize)
        exact hmore
      have hsecond := hwritten.pte 1 hone
      have hslot := hscanned.there 1 hone
      rw [Nat.one_mul] at hsecond hslot
      rw [hwritten.leaf, hsecond, hpa, add64_eq (by unfold pageSize; omega)]
      exact ⟨hslot, pteFor_ne_self (by rw [Nat.add_mod_right]; exact hp) flags⟩
    rw [hpa] at hstops
    exact ⟨M₁, M', hedit, hscanned, hwritten, hstops⟩
  constructor
  · intro hundone
    obtain ⟨s₂, hrun, -, -⟩ := hundone
    have hp32 : paddr < 2 ^ 32 := by
      obtain ⟨r, s₃, hloop, hrest⟩ := run_bind.mp hrun
      obtain ⟨_, s₄, -, hret⟩ := run_bind.mp hrest
      have hr : r = (n * pageSize, some paddr) := (run_pure.mp hret).1
      exact run_unmapLoop_paddr (by intro a ha; cases ha) hloop paddr (by rw [hr])
    obtain ⟨_, _, _, _, _, hwp⟩ := hunmap hp32
    have hsize := (wp_run hwp hrun).1
    exact ⟨congrArg Prod.fst hsize, hp32⟩
  · intro hcond
    obtain ⟨hsize, hp32⟩ := hcond
    obtain ⟨M₁, M', hedit, hscanned, hwritten, hwp⟩ := hunmap hp32
    obtain ⟨_, s₂, hrun, rfl, M₂, hedit₂, hpruned⟩ := wp_iff.mp hwp
    have hone : n = 1 := by
      apply Nat.eq_of_mul_eq_mul_right hpagePos
      exact hsize
    -- clearing the entry that was written leaves the map of the first pass
    have hback : Scanned (viewOf s.mem pgindex) (M'.setPte vaddr 0) vaddr 1 := by
      rw [hone] at hscanned hwritten
      refine ⟨?_, hscanned.free, ?_, ?_⟩
      · funext w
        by_cases hw : w = vaddr
        · rw [hw, PageMap.setPte_self]
          simpa using (hscanned.free 0 Nat.one_pos).symm
        · rw [PageMap.setPte_of_ne _ hw, hwritten.other w, hscanned.pte]
          intro k hk
          rw [Nat.lt_one_iff.mp hk, Nat.zero_mul, Nat.add_zero]
          exact hw
      · intro k hk
        rw [PageMap.setPte_leaf, hwritten.leaf]
        exact hscanned.there k hk
      · intro i
        rw [PageMap.setPte_leaf, hwritten.leaf]
        exact hscanned.leaf i
    obtain ⟨hleaf, hpte⟩ := hback.undone hheld hcrowded.not_vacant hpruned (by
      intro k hk
      rw [Nat.lt_one_iff.mp hk, Nat.zero_mul, Nat.add_zero]
      exact List.mem_singleton_self _)
    have hshows := hedit₂.held.shows
    rw [hsize] at hrun ⊢
    exact ⟨s₂, hrun, hshows.pte.trans hpte, hshows.leaf.trans hleaf⟩

/-- The page index after `map_pages` of `size` bytes at `0x400000`. -/
def mappedIndex (size : Nat) : Phys :=
  after (mapPages 0x80001000 0x400000 0x5000 size VMA_WRITE) (blankIndex [some 0x2000])

theorem unmap_undoes_map_one_page : ∃ s₂,
    unmapPages 0x80001000 0x400000 pageSize (mappedIndex pageSize) =
        .ok ((pageSize, some 0x5000), s₂) ∧
      pteAt s₂.mem 0x80001000 = (fun _ => 0) ∧ leafAt s₂.mem 0x80001000 = fun _ => none := by
  have hundo := @unmap_undoes_map_iff (blankIndex [some 0x2000]) 0x80001000 VMA_WRITE
    (mappedIndex pageSize) 0x400000 0x5000 pageSize (blankIndex_pgIndex _) (blankIndex_crowded _)
    (by decide) (by decide) (by decide) (by decide) (by decide)
    (run_after_eq (by decide +kernel))
  obtain ⟨-, hleaf, hpte⟩ := blankIndex_empty [some 0x2000]
  rw [hleaf, hpte] at hundo
  exact hundo.mpr ⟨rfl, by decide⟩

/-- Of two pages that were mapped, only the first one is unmapped. -/
theorem unmapPages_stops_after_one :
    PgIndex (blankIndex [some 0x2000]) 0x80001000 ∧
      Crowded (blankIndex [some 0x2000]).mem 0x80001000 ∧
      mapPages 0x80001000 0x400000 0x5000 0x2000 VMA_WRITE (blankIndex [some 0x2000]) =
        .ok (0, mappedIndex 0x2000) ∧
      (unmapPages 0x80001000 0x400000 0x2000 (mappedIndex 0x2000)).toOption.map Prod.fst =
        some (0x1000, some 0x5000) ∧
      pteAt (after (unmapPages 0x80001000 0x400000 0x2000) (mappedIndex 0x2000)).mem 0x80001000
        0x401000 ≠ 0 := by
  refine ⟨blankIndex_pgIndex _, blankIndex_crowded _, run_after_eq (by decide +kernel), ?_, ?_⟩
  · decide +kernel
  · decide +kernel

end UnmapPages

/-! ### `set_pages_perm` and `uva2kva` -/

section PermLookup

variable {s s' : Phys} {pgindex : Nat} {M : PageMap} {rest : List Nat}

variable {addr flags n x : Nat}

theorem ptePaddr_page (hx : x < 2 ^ 32) :
    ptePaddr x % pageSize = 0 ∧ ptePaddr x < 2 ^ 32 := by
  rw [ptePaddr_eq hx]
  unfold pageSize
  omega

theorem permit_eq_pteFor (hx : x < 2 ^ 32) (flags : Nat) :
    ptePaddr x ||| pgtablePerm flags = pteFor (ptePaddr x) flags := by
  rw [pteFor, show u32 (ptePaddr x) = ptePaddr x from Nat.mod_eq_of_lt (ptePaddr_page hx).2]

/-- `set_pages_perm` on pages whose leaf tables are there. -/
theorem wp_setPagesPerm_range (h : Held s pgindex M rest) (ha : addr % pageSize = 0)
    (hend : addr + n * pageSize ≤ 2 ^ 32) (hlen : n * pageSize < 2 ^ 32)
    (hthere : ∀ k < n, M.leaf (pdx (addr + k * pageSize)) ≠ none) :
    wp (setPagesPerm pgindex addr (n * pageSize) flags) (fun r s' => r = 0 ∧ ∃ M',
      Edits pgindex rest s M s' M' ∧ Rewritten M M' addr n fun k =>
        ptePaddr (M.pte (addr + k * pageSize)) ||| pgtablePerm flags) s := by
  rw [setPagesPerm, wp_bind]
  cases n with
  | zero =>
    rw [setPermLoop_done (by omega), wp_pure, wp_pure]
    exact ⟨rfl, M, .refl h, .zero M addr _⟩
  | succ n =>
    have hloop : wp (setPermLoop pgindex ((n + 1) * pageSize) flags maxPages 0 (u32 addr)
        default) _ s :=
      wp_setPermLoop h ha hend (Nat.zero_add _).symm hlen (pages_le_maxPages hend) hthere
    rw [u32_of_pages hend (Nat.succ_pos n)] at hloop
    apply wp_mono hloop
    exact fun _ s' hdone => wp_pure.mpr ⟨rfl, hdone⟩

/-- The map after `set_pages_perm`: a page of the range has the new flags, and a frame even
if it had none. -/
theorem translation_permitted {q w : Nat} (h : Held s pgindex (viewOf s.mem pgindex) rest)
    {M' : PageMap} (hshows : Shows s'.mem pgindex M')
    (hwritten : Rewritten (viewOf s.mem pgindex) M' (q * pageSize) n fun k =>
      ptePaddr ((viewOf s.mem pgindex).pte (q * pageSize + k * pageSize)) ||| pgtablePerm flags) :
    translation s'.mem pgindex w =
      if q ≤ w ∧ w < q + n then
        some (ptePaddr (pteAt s.mem pgindex (w * pageSize)), pgtablePerm flags)
      else translation s.mem pgindex w := by
  by_cases hw : q ≤ w ∧ w < q + n
  · obtain ⟨hpage, hk⟩ := page_of_range hw
    have hword := h.pte_lt (w * pageSize)
    obtain ⟨haligned, hlt⟩ := ptePaddr_page hword
    rw [if_pos hw]
    apply translation_pteFor haligned hlt
    rw [hshows.pte, hpage, hwritten.pte _ hk, ← hpage]
    exact permit_eq_pteFor hword flags
  · rw [if_neg hw]
    apply translation_congr
    rw [hshows.pte, hwritten.other _ (page_not_in_range hw)]
    rfl

theorem pa2kva_eq_zero (hx : x < 2 ^ 32) : pa2kva x = 0 ↔ x = kernBase := by
  unfold pa2kva u32 kernBase
  omega

/-- `set_pages_perm` only replaces flags exactly if every page of the range is mapped. -/
theorem setPagesPerm_exact_iff {len : Nat} (h : PgIndex s pgindex) (ha : addr % pageSize = 0)
    (hl : len % pageSize = 0) (hend : addr + len ≤ 2 ^ 32) (hlen : len < 2 ^ 32)
    (hthere : ∀ k < len / pageSize, leafAt s.mem pgindex (pdx (addr + k * pageSize)) ≠ none) :
    (∃ s', setPagesPerm pgindex addr len flags s = .ok (0, s') ∧ translation s'.mem pgindex =
        permitPages (translation s.mem pgindex) (addr / pageSize) (len / pageSize)
          (pgtablePerm flags)) ↔
      ∀ k < len / pageSize, translation s.mem pgindex (addr / pageSize + k) ≠ none := by
  obtain ⟨rest, hheld⟩ := h.held
  have hpos : 0 < pageSize := by decide
  obtain ⟨n, rfl⟩ := exists_pages hl
  obtain ⟨q, rfl⟩ := exists_pages ha
  rw [Nat.mul_div_cancel n hpos] at hthere ⊢
  rw [Nat.mul_div_cancel q hpos]
  have hwp : wp (setPagesPerm pgindex (q * pageSize) (n * pageSize) flags) _ s :=
    wp_setPagesPerm_range hheld ha hend hlen hthere
  obtain ⟨_, s', hrun, rfl, M', hedit, hwritten⟩ := wp_iff.mp hwp
  have hnew := fun w => translation_permitted (w := w) hheld hedit.held.shows hwritten
  constructor
  · intro hexact k hk hnone
    obtain ⟨s'', hrun', htrans⟩ := hexact
    obtain ⟨-, rfl⟩ := Prod.mk.inj (Except.ok.inj (hrun.symm.trans hrun'))
    have hinvented := hnew (q + k)
    rw [if_pos (by omega), htrans, permitPages, hnone] at hinvented
    cases hinvented
  · intro hmapped
    refine ⟨s', hrun, ?_⟩
    funext w
    rw [hnew w]
    unfold permitPages
    by_cases hw : q ≤ w ∧ w < q + n
    · have hne := hmapped (w - q) (by omega)
      rw [Nat.add_sub_cancel' hw.1, ne_eq, translation_eq_none] at hne
      rw [if_pos hw, translation_mapped hne, Option.map_some, if_pos hw]
    · rw [if_neg hw]
      simp only [if_neg hw, Option.map_id_fun', id_eq]

/-- `uva2kva` tells mapped pages from the others exactly if there is no leaf table, or the page
is mapped and its address does not go to `NULL` in the linear mapping. -/
theorem uva2kva_exact_iff {u : Nat} (h : PgIndex s pgindex) (hu : u < 2 ^ 32) :
    (∃ kva, uva2kva pgindex u s = .ok (kva, s) ∧
        (kva = 0 ↔ translation s.mem pgindex (u / pageSize) = none) ∧
        ∀ f perm, translation s.mem pgindex (u / pageSize) = some (f, perm) →
          kva = pa2kva (f + u % pageSize)) ↔
      leafAt s.mem pgindex (pdx u) = none ∨
        ∃ f perm, translation s.mem pgindex (u / pageSize) = some (f, perm) ∧
          f + u % pageSize ≠ kernBase := by
  obtain ⟨rest, hheld⟩ := h.held
  obtain ⟨kva, s', hrun, hs, hkva⟩ := wp_iff.mp (wp_uva2kva hheld.shows hu)
  rw [hs] at hrun
  have hpage : ptrAlignBelow u = u / pageSize * pageSize := rfl
  have hoff : u % pageSize < pageSize := Nat.mod_lt u (by decide)
  cases hl : leafAt s.mem pgindex (pdx u) with
  | none =>
    obtain ⟨-, hslot, -⟩ := ptrAlignBelow_page hu
    have hnone : translation s.mem pgindex (u / pageSize) = none := by
      rw [translation_eq_none, ← hpage]
      exact pteAt_of_absent (by rw [hslot]; exact hl)
    rw [show (viewOf s.mem pgindex).leaf (pdx u) = none from hl] at hkva
    constructor
    · exact fun _ => .inl rfl
    · intro _
      refine ⟨kva, hrun, ⟨fun _ => hnone, fun _ => hkva⟩, ?_⟩
      intro f perm hsome
      rw [hnone] at hsome
      cases hsome
  | some f =>
    rw [show (viewOf s.mem pgindex).leaf (pdx u) = some f from hl] at hkva
    change kva = pa2kva (ptePaddr (pteAt s.mem pgindex (u / pageSize * pageSize)) ||| u % pageSize)
      at hkva
    have hword := hheld.pte_lt (u / pageSize * pageSize)
    change pteAt s.mem pgindex (u / pageSize * pageSize) < 2 ^ 32 at hword
    obtain ⟨haligned, hlt⟩ := ptePaddr_page hword
    rw [or_offset haligned hoff] at hkva
    have hsum : ptePaddr (pteAt s.mem pgindex (u / pageSize * pageSize)) + u % pageSize < 2 ^ 32 := by
      unfold pageSize at *
      omega
    by_cases hpte : pteAt s.mem pgindex (u / pageSize * pageSize) = 0
    · -- a zero entry passes for the frame at physical address zero
      have hnone : translation s.mem pgindex (u / pageSize) = none := translation_eq_none.mpr hpte
      have hne : kva ≠ 0 := by
        rw [hkva, ne_eq, pa2kva_eq_zero hsum, hpte, show ptePaddr 0 = 0 from rfl]
        unfold pageSize kernBase at *
        omega
      constructor
      · intro hexact
        obtain ⟨kva', hrun', hnull, -⟩ := hexact
        obtain ⟨rfl, -⟩ := Prod.mk.inj (Except.ok.inj (hrun.symm.trans hrun'))
        exact absurd (hnull.mpr hnone) hne
      · intro hcond
        rcases hcond with habs | ⟨_, _, hsome, _⟩
        · cases habs
        · rw [hnone] at hsome
          cases hsome
    · rw [translation_mapped hpte]
      have hnull : kva = 0 ↔
          ptePaddr (pteAt s.mem pgindex (u / pageSize * pageSize)) + u % pageSize = kernBase := by
        rw [hkva]
        exact pa2kva_eq_zero hsum
      constructor
      · intro hexact
        obtain ⟨kva', hrun', hiff, -⟩ := hexact
        obtain ⟨rfl, -⟩ := Prod.mk.inj (Except.ok.inj (hrun.symm.trans hrun'))
        refine .inr ⟨_, _, rfl, fun hbase => ?_⟩
        exact absurd (hiff.mp (hnull.mpr hbase)) (Option.some_ne_none _)
      · intro hcond
        rcases hcond with habs | ⟨_, _, hsome, hbase⟩
        · cases habs
        · cases hsome
          refine ⟨kva, hrun, ⟨fun hz => absurd (hnull.mp hz) hbase,
            fun hno => absurd hno (Option.some_ne_none _)⟩, ?_⟩
          intro f' perm' hsome'
          cases hsome'
          exact hkva

/-- **Changing permissions and looking up invent no mapping**, where every page they are
asked about is mapped. `set_pages_perm` replaces the flags of the mapped pages of a range and
nothing else exactly if all of them are mapped. `uva2kva` returns `NULL` exactly for pages that
are not mapped, and the kernel address of frame and offset for the others, exactly if there is no
leaf table, or the page is mapped and its address does not go to `NULL` in the linear
mapping. -/
theorem perm_and_lookup_exact (h : PgIndex s pgindex) :
    (∀ addr len flags, addr % pageSize = 0 → len % pageSize = 0 → addr + len ≤ 2 ^ 32 →
      len < 2 ^ 32 → (∀ k < len / pageSize, leafAt s.mem pgindex (pdx (addr + k * pageSize)) ≠ none) →
      ((∃ s', setPagesPerm pgindex addr len flags s = .ok (0, s') ∧ translation s'.mem pgindex =
          permitPages (translation s.mem pgindex) (addr / pageSize) (len / pageSize)
            (pgtablePerm flags)) ↔
        ∀ k < len / pageSize, translation s.mem pgindex (addr / pageSize + k) ≠ none)) ∧
    ∀ u < 2 ^ 32,
      ((∃ kva, uva2kva pgindex u s = .ok (kva, s) ∧
          (kva = 0 ↔ translation s.mem pgindex (u / pageSize) = none) ∧
          ∀ f perm, translation s.mem pgindex (u / pageSize) = some (f, perm) →
            kva = pa2kva (f + u % pageSize)) ↔
        leafAt s.mem pgindex (pdx u) = none ∨
          ∃ f perm, translation s.mem pgindex (u / pageSize) = some (f, perm) ∧
            f + u % pageSize ≠ kernBase) :=
  ⟨fun _ _ _ ha hl hend hlen hthere => setPagesPerm_exact_iff h ha hl hend hlen hthere,
    fun _ hu => uva2kva_exact_iff h hu⟩

theorem mappedIndex_pgIndex : PgIndex (mappedIndex pageSize) 0x80001000 := by
  obtain ⟨rest, hheld⟩ := (blankIndex_pgIndex [some 0x2000]).held
  have hrun : mapPages 0x80001000 0x400000 0x5000 (1 * pageSize) VMA_WRITE
      (blankIndex [some 0x2000]) = .ok (0, mappedIndex pageSize) :=
    run_after_eq (by decide +kernel)
  obtain ⟨_, _, hedit, -⟩ := run_mapPages_zero hheld (by decide) (by decide) (by decide)
    (by decide) hrun
  exact hedit.held.pgIndex

/-- With one page mapped. -/
theorem perm_and_lookup_exact_one_page :
    (∃ s', setPagesPerm 0x80001000 0x400000 pageSize 0 (mappedIndex pageSize) = .ok (0, s') ∧
      translation s'.mem 0x80001000 = permitPages (translation (mappedIndex pageSize).mem 0x80001000)
        0x400 1 (pgtablePerm 0)) ∧
      uva2kva 0x80001000 0x400123 (mappedIndex pageSize) = .ok (0x80005123, mappedIndex pageSize) := by
  obtain ⟨hperm, hlookup⟩ := perm_and_lookup_exact mappedIndex_pgIndex
  have hmapped : translation (mappedIndex pageSize).mem 0x80001000 0x400 = some (0x5000, 0x7c0) := by
    decide +kernel
  constructor
  · apply (hperm 0x400000 pageSize 0 (by decide) (by decide) (by decide) (by decide) ?_).mpr
    · intro k hk
      obtain rfl : k = 0 := by
        have : k < 1 := hk
        omega
      exact fun hnone => absurd (hmapped.symm.trans hnone) (Option.some_ne_none _)
    · decide +kernel
  · obtain ⟨kva, hrun, -, hkva⟩ := (hlookup 0x400123 (by decide)).mpr
      (.inr ⟨0x5000, 0x7c0, hmapped, by decide⟩)
    rw [hrun, hkva _ _ hmapped]
    rfl

/-- The page at `0x401000` shares the leaf table of the mapped page. `uva2kva` finds a frame for
it, and `set_pages_perm` maps it. -/
theorem unmapped_page_invented :
    PgIndex (mappedIndex pageSize) 0x80001000 ∧
      leafAt (mappedIndex pageSize).mem 0x80001000 (pdx 0x401000) ≠ none ∧
      translation (mappedIndex pageSize).mem 0x80001000 0x401 = none ∧
      (uva2kva 0x80001000 0x401000 (mappedIndex pageSize)).toOption.map Prod.fst =
        some 0x80000000 ∧
      (setPagesPerm 0x80001000 0x401000 pageSize 0 (mappedIndex pageSize)).toOption.map Prod.fst =
        some 0 ∧
      translation (after (setPagesPerm 0x80001000 0x401000 pageSize 0) (mappedIndex pageSize)).mem
        0x80001000 0x401 = some (0, 0x6c0) := by
  refine ⟨mappedIndex_pgIndex, ?_, ?_, ?_, ?_, ?_⟩
  all_goals decide +kernel

end PermLookup

end AimKernel
