import AimKernel.Mm.PageIndex

/-!
# AimKernel.Mm.PgTableRuns

Which entries of a page index a call can have changed, once it has returned.

Nothing is said here about whether a call returns, so nothing has to be asked of its range: a range
may go over the top of the address space, meet pages that are mapped, or run out of leaf tables. If
the call comes back, `set_pages_perm` and `unmap_pages` have changed entries of their range only, and
`map_pages` only entries that were zero. All addresses are page-aligned, as the interface asks.
-/

namespace AimKernel

/-- The pages of a range, modulo the size of the address space. -/
def Within (addr len w : Nat) : Prop := ∃ k, k * pageSize < len ∧ w = u32 (addr + k * pageSize)

/-- Another map, which differs at pages in `P` only. -/
structure Alters (pgindex : Nat) (rest : List Nat) (P : Nat → Prop) (s : Phys) (M : PageMap)
    (s' : Phys) (M' : PageMap) : Prop where
  edits : Edits pgindex rest s M s' M'
  other : ∀ w, ¬ P w → M'.pte w = M.pte w

section Runs

variable {s s' s'' : Phys} {pgindex v : Nat} {M M' M'' : PageMap} {rest : List Nat}
  {P : Nat → Prop}

variable {pd : Pagedesc} {r : Int × Pagedesc}
  {addr flags fuel i len pcur pend size vaddr vcur : Nat}

theorem Alters.refl (h : Held s pgindex M rest) : Alters pgindex rest P s M s M where
  edits := .refl h
  other _ _ := rfl

theorem Alters.trans (h : Alters pgindex rest P s M s' M') (h' : Alters pgindex rest P s' M' s'' M'') :
    Alters pgindex rest P s M s'' M'' where
  edits := h.edits.trans h'.edits
  other w hw := (h'.other w hw).trans (h.other w hw)

theorem Alters.mono {Q : Nat → Prop} (h : Alters pgindex rest P s M s' M') (hPQ : ∀ w, P w → Q w) :
    Alters pgindex rest Q s M s' M' where
  edits := h.edits
  other w hw := h.other w (mt (hPQ w) hw)

theorem Alters.storePte (h : Held s pgindex M rest) (hv : IsPage v) {f e : Nat} (he : e < 2 ^ 32)
    (hf : M.leaf (pdx v) = some f) (hP : P v) :
    Alters pgindex rest P s M { s with mem := s.mem.store32 (entry (pa2kva f) (ptx v)) e }
      (M.setPte v e) where
  edits := h.storePte hv he hf
  other w hw := by
    have hne : w ≠ v := by
      intro heq
      rw [heq] at hw
      exact hw hP
    exact PageMap.setPte_of_ne M hne e

theorem run_getpagedesc (h : Held s pgindex M rest)
    (hrun : getpagedesc pgindex v false pd s = .ok (r, s')) :
    s' = s ∧ (M.leaf (pdx v) = none ∧ r.1 = -ENOENT ∨
      ∃ f, M.leaf (pdx v) = some f ∧ r = (0, ⟨pgindex, pa2kva f, pdx v, ptx v⟩)) := by
  cases hl : M.leaf (pdx v) with
  | none =>
    exact wp_run (Q := fun r t => t = s ∧ (none = none ∧ r.1 = -ENOENT ∨ _))
      (wp_getpagedesc_absent h.shows hl ⟨rfl, .inl ⟨rfl, rfl⟩⟩) hrun
  | some f =>
    exact wp_run (Q := fun r t => t = s ∧ (some f = none ∧ r.1 = -ENOENT ∨ ∃ g, some f = some g ∧
        r = (0, ⟨pgindex, pa2kva g, pdx v, ptx v⟩)))
      (wp_getpagedesc_present h.shows.tables ((h.leafAt_eq _).trans hl)
        ⟨rfl, .inr ⟨f, rfl, rfl⟩⟩) hrun

theorem page_add {x y : Nat} (hx : x % pageSize = 0) (hy : y % pageSize = 0) :
    IsPage (u32 (x + y)) := by
  unfold IsPage u32
  unfold pageSize at *
  omega

/-! ### `set_pages_perm` -/

/-- The loop of `set_pages_perm`, `i` bytes into the range. -/
theorem run_setPermLoop (h : Held s pgindex M rest) (haddr : addr % pageSize = 0)
    (hi : i % pageSize = 0)
    (hrun : setPermLoop pgindex len flags fuel i (u32 (addr + i)) pd s = .ok ((), s')) :
    ∃ M', Alters pgindex rest (Within addr len) s M s' M' := by
  induction fuel generalizing s M i pd with
  | zero =>
    rw [setPermLoop.eq_def] at hrun
    split at hrun
    · cases hrun
    · obtain ⟨-, rfl⟩ := run_pure.mp hrun
      exact ⟨M, .refl h⟩
  | succ fuel ih =>
    rw [setPermLoop] at hrun
    split at hrun
    · rename_i hlt
      obtain ⟨⟨retcode, pd'⟩, s1, hget, hrun⟩ := run_bind.mp hrun
      obtain ⟨rfl, hdesc⟩ := run_getpagedesc h hget
      dsimp only at hrun
      rcases hdesc with ⟨-, rfl⟩ | ⟨f, hf, hr⟩
      · cases hrun
      · obtain ⟨rfl, rfl⟩ := Prod.mk.inj hr
        dsimp only at hrun
        rw [if_neg (by decide)] at hrun
        obtain ⟨_, s2, hstore, hrun⟩ := run_bind.mp hrun
        cases hstore
        have hpage : IsPage (u32 (addr + i)) := page_add haddr hi
        dsimp only at hrun
        rw [h.load_pte hpage hf] at hrun
        have hwithin : Within addr len (u32 (addr + i)) :=
          ⟨i / pageSize, by rwa [Nat.div_mul_cancel (Nat.dvd_of_mod_eq_zero hi)],
            by rw [Nat.div_mul_cancel (Nat.dvd_of_mod_eq_zero hi)]⟩
        have hstep := Alters.storePte h hpage (permit_lt (h.pte_lt (u32 (addr + i))) flags) hf hwithin
        have hnext : u32 (u32 (addr + i) + pageSize) = u32 (addr + u32 (i + pageSize)) := by
          unfold u32
          omega
        have hi' : u32 (i + pageSize) % pageSize = 0 := by
          unfold u32
          unfold pageSize at *
          omega
        rw [hnext] at hrun
        obtain ⟨M', hrest⟩ := ih hstep.edits.held hi' hrun
        exact ⟨M', hstep.trans hrest⟩
    · obtain ⟨-, rfl⟩ := run_pure.mp hrun
      exact ⟨M, .refl h⟩

/-- **`set_pages_perm`** changes entries of its range only. -/
theorem run_setPagesPerm {r : Int} (h : Held s pgindex M rest) (haddr : IsPage addr)
    (hrun : setPagesPerm pgindex addr len flags s = .ok (r, s')) :
    ∃ M', Alters pgindex rest (Within addr len) s M s' M' := by
  obtain ⟨_, s1, hloop, hrun⟩ := run_bind.mp hrun
  obtain ⟨-, rfl⟩ := run_pure.mp hrun
  have hu : u32 (addr + 0) = addr := Nat.mod_eq_of_lt haddr.2
  exact run_setPermLoop h haddr.1 (Nat.zero_mod _) (by rw [hu]; exact hloop)

/-! ### Freeing leaf tables -/

/-- **`__free_intermediate_pgtable`** changes no entry. -/
theorem run_freeSlots {slots : List Nat} (h : Held s pgindex M rest)
    (hlt : ∀ i ∈ slots, i < nrPtentries)
    (hrun : slots.forM (freeIfEmpty pgindex) s = .ok ((), s')) :
    ∃ M', Alters pgindex rest P s M s' M' := by
  induction slots generalizing s M with
  | nil =>
    obtain ⟨-, rfl⟩ := run_pure.mp hrun
    exact ⟨M, .refl h⟩
  | cons i slots ih =>
    have hrun' : (freeIfEmpty pgindex i >>= fun _ => slots.forM (freeIfEmpty pgindex)) s =
        .ok ((), s') := hrun
    obtain ⟨_, s1, hround, hlater⟩ := run_bind.mp hrun'
    have hthere : M.leaf i ≠ none := fun hnone =>
      freeIfEmpty_absent h (hlt i List.mem_cons_self) hnone
        (wp_of_run (Q := fun _ _ => True) hround trivial)
    obtain ⟨M1, hedit, hpruned⟩ := wp_run (wp_freeIfEmpty_there h hthere) hround
    obtain ⟨M', hrest⟩ := ih hedit.held (fun j hj => hlt j (List.mem_cons_of_mem i hj)) hlater
    have hfirst : Alters pgindex rest P s M s1 M1 := ⟨hedit, fun w _ => congrFun hpruned.pte w⟩
    exact ⟨M', hfirst.trans hrest⟩

theorem rollbackSlots_lt (hi : i ∈ rollbackSlots vaddr size) :
    i < nrPtentries := by
  have hlast := pdx_lt (u32 (vaddr + size + (2 ^ 32 - pageSize)))
  have hmem := List.mem_range'_1.mp hi
  omega

theorem run_freeIntermediatePgtable (h : Held s pgindex M rest)
    (hrun : freeIntermediatePgtable pgindex vaddr size s = .ok ((), s')) :
    ∃ M', Alters pgindex rest P s M s' M' := by
  exact run_freeSlots h (fun i => rollbackSlots_lt) hrun

/-! ### `unmap_pages` -/

theorem run_unmapLoop {vend unmapped : Nat} {stored : Option Nat} {r : Nat × Option Nat}
    (h : Held s pgindex M rest) (hcur : IsPage vcur) (hlo : v ≤ vcur) (hend : IsPage vend)
    (hrun : unmapLoop pgindex vend fuel vcur unmapped pcur pd stored s = .ok (r, s')) :
    ∃ M', Alters pgindex rest (fun w => w % pageSize = 0 ∧ v ≤ w ∧ w < vend) s M s' M' := by
  induction fuel generalizing s M vcur unmapped pcur pd stored with
  | zero =>
    rw [unmapLoop.eq_def] at hrun
    split at hrun
    · cases hrun
    · obtain ⟨-, rfl⟩ := run_pure.mp hrun
      exact ⟨M, .refl h⟩
  | succ fuel ih =>
    rw [unmapLoop] at hrun
    split at hrun
    · rename_i hlt
      obtain ⟨⟨retcode, pd'⟩, s1, hget, hrun⟩ := run_bind.mp hrun
      obtain ⟨rfl, hdesc⟩ := run_getpagedesc h hget
      dsimp only at hrun
      rcases hdesc with ⟨-, rfl⟩ | ⟨f, hf, hr⟩
      · cases hrun
      · obtain ⟨rfl, rfl⟩ := Prod.mk.inj hr
        dsimp only at hrun
        rw [if_neg (by decide)] at hrun
        obtain ⟨_, s2, hget2, hrun⟩ := run_bind.mp hrun
        cases hget2
        split at hrun
        · obtain ⟨-, rfl⟩ := run_pure.mp hrun
          exact ⟨M, .refl h⟩
        · have hstep := Alters.storePte
            (P := fun w => w % pageSize = 0 ∧ v ≤ w ∧ w < vend) h hcur (Nat.two_pow_pos 32) hf
            ⟨hcur.1, hlo, hlt⟩
          have hnext : IsPage (u32 (vcur + pageSize)) ∧ v ≤ u32 (vcur + pageSize) := by
            obtain ⟨ha, hb⟩ := hcur
            obtain ⟨ha', hb'⟩ := hend
            unfold IsPage u32
            unfold pageSize at *
            omega
          by_cases hfirst : unmapped = 0
          · rw [if_pos hfirst] at hrun
            obtain ⟨_, s3, hstore, hrun⟩ := run_bind.mp hrun
            cases hstore
            obtain ⟨M', hrest⟩ := ih hstep.edits.held hnext.1 hnext.2 hrun
            exact ⟨M', hstep.trans hrest⟩
          · rw [if_neg hfirst] at hrun
            obtain ⟨_, s3, hstore, hrun⟩ := run_bind.mp hrun
            cases hstore
            obtain ⟨M', hrest⟩ := ih hstep.edits.held hnext.1 hnext.2 hrun
            exact ⟨M', hstep.trans hrest⟩
    · obtain ⟨-, rfl⟩ := run_pure.mp hrun
      exact ⟨M, .refl h⟩

/-- The loop of `unmap_pages` stays inside the range. -/
theorem within_of_lt {w : Nat} (hv : IsPage v) (hw : w % pageSize = 0) (hlo : v ≤ w)
    (hlt : w < u32 (v + size)) : Within v size w := by
  have hk : (w - v) / pageSize * pageSize = w - v := by
    obtain ⟨ha, -⟩ := hv
    unfold pageSize at *
    omega
  refine ⟨(w - v) / pageSize, ?_, ?_⟩
  · rw [hk]
    unfold u32 at hlt
    omega
  · rw [hk, Nat.add_sub_cancel' hlo]
    unfold u32 at *
    exact (Nat.mod_eq_of_lt (by omega)).symm

/-- **`unmap_pages`** changes entries of its range only. -/
theorem run_unmapPages_within {r : Nat × Option Nat} (h : Held s pgindex M rest) (hv : IsPage vaddr)
    (hsize : size % pageSize = 0) (hrun : unmapPages pgindex vaddr size s = .ok (r, s')) :
    ∃ M', Alters pgindex rest (Within vaddr size) s M s' M' := by
  obtain ⟨⟨unmapped, paddr⟩, s1, hloop, hrun⟩ := run_bind.mp hrun
  obtain ⟨_, s2, hfree, hrun⟩ := run_bind.mp hrun
  obtain ⟨-, rfl⟩ := run_pure.mp hrun
  have hend : IsPage (u32 (vaddr + size)) := page_add hv.1 hsize
  obtain ⟨M1, hfirst⟩ := run_unmapLoop h hv (Nat.le_refl vaddr) hend hloop
  obtain ⟨M', hlater⟩ := run_freeIntermediatePgtable hfirst.edits.held hfree
  exact ⟨M', (hfirst.mono fun w hw => within_of_lt hv hw.1 hw.2.1 hw.2.2).trans hlater⟩

/-! ### `map_pages` -/

/-- The pages that both passes go through. -/
def mapVisits (pend : Nat) : Nat → Nat → Nat → List Nat
  | 0, _, _ => []
  | fuel + 1, pcur, vcur =>
    if pcur < pend then vcur :: mapVisits pend fuel (add64 pcur pageSize) (u32 (vcur + pageSize))
    else []

/-- `__getpagedesc` with creation: the entries stay, and there is a leaf table or no frame for it. -/
theorem run_getpagedesc_create (h : Held s pgindex M rest)
    (hrun : getpagedesc pgindex v true pd s = .ok (r, s')) :
    ∃ M', Edits pgindex rest s M s' M' ∧ M'.pte = M.pte ∧
      (∀ i, M.leaf i ≠ none → M'.leaf i ≠ none) ∧
      (r.1 = -ENOMEM ∨
        ∃ f, M'.leaf (pdx v) = some f ∧ r = (0, ⟨pgindex, pa2kva f, pdx v, ptx v⟩)) := by
  refine wp_run (m := getpagedesc pgindex v true pd) (Q := fun r s' => ∃ M',
    Edits pgindex rest s M s' M' ∧ M'.pte = M.pte ∧ (∀ i, M.leaf i ≠ none → M'.leaf i ≠ none) ∧
      (r.1 = -ENOMEM ∨
        ∃ f, M'.leaf (pdx v) = some f ∧ r = (0, ⟨pgindex, pa2kva f, pdx v, ptx v⟩))) ?_ hrun
  cases hl : M.leaf (pdx v) with
  | some f =>
    apply wp_getpagedesc_present h.shows.tables ((h.leafAt_eq _).trans hl)
    exact ⟨M, .refl h, rfl, fun _ hi => hi, .inr ⟨f, hl, rfl⟩⟩
  | none =>
    cases hans : s.answer pageSize with
    | none =>
      apply wp_getpagedesc_short h.shows hl hans
      exact ⟨M, h.skip, rfl, fun _ hi => hi, .inl rfl⟩
    | some l =>
      apply wp_getpagedesc_create ((h.leafAt_eq _).trans hl) hans
      refine ⟨_, h.newLeaf (pdx_lt v) hl hans, rfl, fun i hi => ?_,
        .inr ⟨l, PageMap.setLeaf_self M (pdx v) (some l), rfl⟩⟩
      have hne : i ≠ pdx v := by
        intro heq
        rw [heq] at hi
        exact hi hl
      rw [PageMap.setLeaf_of_ne M hne]
      exact hi

/-- The first pass changes no entry. If it goes through, all its pages are free and have leaf
tables. -/
theorem run_mapScan {r : Int × Nat × Pagedesc} (h : Held s pgindex M rest) (hcur : IsPage vcur)
    (hrun : mapScan pgindex pend fuel pcur vcur pd s = .ok (r, s')) :
    ∃ M', Edits pgindex rest s M s' M' ∧ M'.pte = M.pte ∧
      (∀ i, M.leaf i ≠ none → M'.leaf i ≠ none) ∧
      (¬ r.1 < 0 → ∀ w ∈ mapVisits pend fuel pcur vcur, M.pte w = 0 ∧ M'.leaf (pdx w) ≠ none) := by
  induction fuel generalizing s M pcur vcur pd with
  | zero =>
    rw [mapScan.eq_def] at hrun
    split at hrun
    · cases hrun
    · obtain ⟨-, rfl⟩ := run_pure.mp hrun
      exact ⟨M, .refl h, rfl, fun _ hi => hi, fun _ w hw => absurd hw List.not_mem_nil⟩
  | succ fuel ih =>
    by_cases hlt : pcur < pend
    · have hnext : IsPage (u32 (vcur + pageSize)) := page_add hcur.1 (Nat.mod_self _)
      -- a round that goes on, from a map whose entries are the same
      have hgo : ∀ {s1 : Phys} {M1 : PageMap} {pd' : Pagedesc}, Edits pgindex rest s M s1 M1 →
          M1.pte = M.pte → (∀ i, M.leaf i ≠ none → M1.leaf i ≠ none) → M.pte vcur = 0 →
          M1.leaf (pdx vcur) ≠ none →
          mapScan pgindex pend fuel (add64 pcur pageSize) (u32 (vcur + pageSize)) pd' s1 =
            .ok (r, s') →
          ∃ M', Edits pgindex rest s M s' M' ∧ M'.pte = M.pte ∧
            (∀ i, M.leaf i ≠ none → M'.leaf i ≠ none) ∧
            (¬ r.1 < 0 → ∀ w ∈ mapVisits pend (fuel + 1) pcur vcur,
              M.pte w = 0 ∧ M'.leaf (pdx w) ≠ none) := by
        intro s1 M1 pd' hedit hpte hleaf hfree hthere hlater
        obtain ⟨M', hedit', hpte', hleaf', hvisits⟩ := ih hedit.held hnext hlater
        refine ⟨M', hedit.trans hedit', hpte'.trans hpte, fun i hi => hleaf' i (hleaf i hi), ?_⟩
        intro hr w hw
        rw [mapVisits, if_pos hlt] at hw
        cases List.mem_cons.mp hw with
        | inl heq =>
          rw [heq]
          exact ⟨hfree, hleaf' _ hthere⟩
        | inr hin =>
          obtain ⟨hzero, hleafw⟩ := hvisits hr w hin
          exact ⟨by rw [← hpte]; exact hzero, hleafw⟩
      rw [mapScan, if_pos hlt] at hrun
      obtain ⟨⟨retcode, pd'⟩, s1, hget, hrun⟩ := run_bind.mp hrun
      obtain ⟨M1, hedit, hpte, hleaf, hdesc⟩ := run_getpagedesc_create h hget
      dsimp only at hrun
      rcases hdesc with rfl | ⟨f, hf, hr⟩
      · rw [if_pos rfl] at hrun
        obtain ⟨rfl, rfl⟩ := run_pure.mp hrun
        exact ⟨M1, hedit, hpte, hleaf, fun hneg => absurd (show -ENOMEM < 0 by decide) hneg⟩
      · obtain ⟨rfl, rfl⟩ := Prod.mk.inj hr
        dsimp only at hrun
        rw [if_neg (by decide)] at hrun
        obtain ⟨_, s2, hget2, hrun⟩ := run_bind.mp hrun
        cases hget2
        rw [hedit.held.load_pte hcur hf, hpte] at hrun
        by_cases hfree : M.pte vcur = 0
        · rw [if_neg (not_not.mpr hfree)] at hrun
          exact hgo hedit hpte hleaf hfree (by rw [hf]; exact Option.some_ne_none f) hrun
        · rw [if_pos hfree] at hrun
          obtain ⟨rfl, rfl⟩ := run_pure.mp hrun
          exact ⟨M1, hedit, hpte, hleaf, fun hneg => absurd (show -EEXIST < 0 by decide) hneg⟩
    · rw [mapScan_done hlt] at hrun
      obtain ⟨-, rfl⟩ := run_pure.mp hrun
      refine ⟨M, .refl h, rfl, fun _ hi => hi, fun _ w hw => ?_⟩
      rw [mapVisits, if_neg hlt] at hw
      cases hw

/-- The second pass writes the entries of its pages, whose leaf tables are there. -/
theorem run_mapFill (h : Held s pgindex M rest) (hcur : IsPage vcur)
    (hthere : ∀ w ∈ mapVisits pend fuel pcur vcur, P w ∧ M.leaf (pdx w) ≠ none)
    (hrun : mapFill pgindex pend flags fuel pcur vcur pd s = .ok ((), s')) :
    ∃ M', Alters pgindex rest P s M s' M' := by
  induction fuel generalizing s M pcur vcur pd with
  | zero =>
    rw [mapFill.eq_def] at hrun
    split at hrun
    · cases hrun
    · obtain ⟨-, rfl⟩ := run_pure.mp hrun
      exact ⟨M, .refl h⟩
  | succ fuel ih =>
    by_cases hlt : pcur < pend
    · rw [mapVisits, if_pos hlt] at hthere
      obtain ⟨hP, hleaf⟩ := hthere vcur List.mem_cons_self
      rw [mapFill, if_pos hlt] at hrun
      obtain ⟨⟨retcode, pd'⟩, s1, hget, hrun⟩ := run_bind.mp hrun
      obtain ⟨rfl, hdesc⟩ := run_getpagedesc h hget
      rcases hdesc with ⟨hnone, -⟩ | ⟨f, hf, hr⟩
      · exact absurd hnone hleaf
      · obtain ⟨rfl, rfl⟩ := Prod.mk.inj hr
        obtain ⟨_, s2, hstore, hrun⟩ := run_bind.mp hrun
        cases hstore
        have hstep := Alters.storePte h hcur (pteFor_lt pcur flags) hf hP
        obtain ⟨M', hrest⟩ := ih hstep.edits.held (page_add hcur.1 (Nat.mod_self _))
          (fun w hw => hthere w (List.mem_cons_of_mem _ hw)) hrun
        exact ⟨M', hstep.trans hrest⟩
    · rw [mapFill_done hlt] at hrun
      obtain ⟨-, rfl⟩ := run_pure.mp hrun
      exact ⟨M, .refl h⟩

/-- **`map_pages`** changes only entries that were zero. -/
theorem run_mapPages_within {paddr : Nat} {r : Int} (h : Held s pgindex M rest) (hv : IsPage vaddr)
    (hrun : mapPages pgindex vaddr paddr size flags s = .ok (r, s')) :
    ∃ M', Alters pgindex rest (fun w => M.pte w = 0) s M s' M' := by
  rw [mapPages] at hrun
  split at hrun
  · obtain ⟨-, rfl⟩ := run_pure.mp hrun
    exact ⟨M, .refl h⟩
  · obtain ⟨⟨retcode, vcur, pd⟩, s1, hscan, hrun⟩ := run_bind.mp hrun
    obtain ⟨M1, hedit, hpte, hleaf, hvisits⟩ := run_mapScan h hv hscan
    have hfirst : Alters pgindex rest (fun w => M.pte w = 0) s M s1 M1 :=
      ⟨hedit, fun w _ => congrFun hpte w⟩
    dsimp only at hrun hvisits
    by_cases hneg : retcode < 0
    · rw [if_pos hneg] at hrun
      obtain ⟨_, s2, hfree, hrun⟩ := run_bind.mp hrun
      obtain ⟨-, rfl⟩ := run_pure.mp hrun
      obtain ⟨M', hlater⟩ := run_freeIntermediatePgtable hedit.held hfree
      exact ⟨M', hfirst.trans hlater⟩
    · rw [if_neg hneg] at hrun
      obtain ⟨_, s2, hfill, hrun⟩ := run_bind.mp hrun
      obtain ⟨-, rfl⟩ := run_pure.mp hrun
      obtain ⟨M', hlater⟩ := run_mapFill hedit.held hv (hvisits hneg) hfill
      exact ⟨M', hfirst.trans hlater⟩

end Runs

end AimKernel
