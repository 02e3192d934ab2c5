import AimKernel.Mm.Books
import Mathlib.Data.List.Perm.Subperm

/-!
# AimKernel.Mm.PgTableRange

The page table functions on a range of pages.

`Held` is the invariant of their loops: memory shows a map at the page index, and the frames
that are handed out are the leaf tables of that map and a fixed rest, the directory among
it. So the frames are accounted for by the map alone. `Edits` is what a step or a whole call
may do: it leads from one map to another and leaves alone every frame of the rest that is not
a table.

Each loop has a lemma for one round and, by induction on the pages that are left, one for
the whole run: `Scanned` for the first pass of `map_pages`, `Rewritten` for the loops that
write entries, `Pruned` for the rollback. The loops count in 32-bit words; the lemmas speak
of the page `v + k * pageSize`, and a loop that has come to the end of the address space is at
`u32 v`.
-/

namespace AimKernel

/-! ### Maps and their frames -/

namespace PageMap

/-- The frames of the leaf tables. -/
def leafFrames (M : PageMap) : List Nat := (List.range nrPtentries).filterMap M.leaf

end PageMap

/-- One more entry of a partial map is one more element of its list of values. -/
theorem filterMap_update {xs : List Nat} (hxs : xs.Nodup) {g : Nat → Option Nat} {i : Nat}
    (hi : i ∈ xs) (hnone : g i = none) (l : Nat) :
    (xs.filterMap (Function.update g i (some l))).Perm (l :: xs.filterMap g) := by
  induction xs with
  | nil => cases hi
  | cons x xs ih =>
    obtain ⟨hx, hnodup⟩ := List.nodup_cons.mp hxs
    by_cases hxi : x = i
    · have hrest : xs.filterMap (Function.update g i (some l)) = xs.filterMap g := by
        apply List.filterMap_congr
        intro y hy
        exact Function.update_of_ne (fun h => hx (hxi.trans h.symm ▸ hy)) ..
      rw [hxi, List.filterMap_cons_some (Function.update_self i (some l) g),
        List.filterMap_cons_none hnone, hrest]
    · have hmem : i ∈ xs := (List.mem_cons.mp hi).resolve_left (Ne.symm hxi)
      have hsame : Function.update g i (some l) x = g x := Function.update_of_ne hxi ..
      cases hgx : g x with
      | none =>
        rw [List.filterMap_cons_none (hsame.trans hgx), List.filterMap_cons_none hgx]
        exact ih hnodup hmem
      | some y =>
        rw [List.filterMap_cons_some (hsame.trans hgx), List.filterMap_cons_some hgx]
        exact ((ih hnodup hmem).cons y).trans (List.Perm.swap l y _)

namespace PageMap

variable {M : PageMap} {i l : Nat}

theorem leafFrames_setLeaf (hi : i < nrPtentries) (hnone : M.leaf i = none) (l : Nat) :
    (M.setLeaf i (some l)).leafFrames.Perm (l :: M.leafFrames) :=
  filterMap_update List.nodup_range (List.mem_range.mpr hi) hnone l

theorem leafFrames_drop (hi : i < nrPtentries) (hl : M.leaf i = some l) :
    M.leafFrames.Perm (l :: (M.setLeaf i none).leafFrames) := by
  have hback : (M.setLeaf i none).setLeaf i (some l) = M := by
    unfold setLeaf
    rw [Function.update_idem, ← hl, Function.update_eq_self]
  have hperm := leafFrames_setLeaf (M := M.setLeaf i none) hi (setLeaf_self M i none) l
  rw [hback] at hperm
  exact hperm

theorem mem_leafFrames (hi : i < nrPtentries) (hl : M.leaf i = some l) : l ∈ M.leafFrames :=
  List.mem_filterMap.mpr ⟨i, List.mem_range.mpr hi, hl⟩

end PageMap

/-! ### The invariant -/

/-- Memory shows the map, and its leaf tables and `rest` are what is handed out. -/
structure Held (s : Phys) (pgindex : Nat) (M : PageMap) (rest : List Nat) : Prop where
  shows : Shows s.mem pgindex M
  frames : s.frames.Perm (M.leafFrames ++ rest)
  dir : kva2pa pgindex ∈ rest

/-- What a computation on the page index did: it leads to another map, and no frame of the
rest other than a table was written. -/
structure Edits (pgindex : Nat) (rest : List Nat) (s : Phys) (M : PageMap) (s' : Phys)
    (M' : PageMap) : Prop where
  held : Held s' pgindex M' rest
  spared : ∀ g ∈ rest, IsFrame g → g ≠ kva2pa pgindex → (∀ i, M.leaf i ≠ some g) →
    Untouched s.mem s'.mem g ∧ ∀ i, M'.leaf i ≠ some g

variable {s s' : Phys} {pgindex v : Nat} {M M' M'' : PageMap} {rest : List Nat}

theorem Edits.refl (h : Held s pgindex M rest) : Edits pgindex rest s M s M where
  held := h
  spared _ _ _ _ hg := ⟨Untouched.refl _ _, hg⟩

theorem Edits.trans {s'' : Phys} (h : Edits pgindex rest s M s' M')
    (h' : Edits pgindex rest s' M' s'' M'') : Edits pgindex rest s M s'' M'' where
  held := h'.held
  spared g hg hframe hdir hleaf := by
    obtain ⟨hsame, hleaf'⟩ := h.spared g hg hframe hdir hleaf
    obtain ⟨hsame', hleaf''⟩ := h'.spared g hg hframe hdir hleaf'
    exact ⟨hsame.trans hsame', hleaf''⟩

namespace Held

theorem leafAt_eq (h : Held s pgindex M rest) (i : Nat) : leafAt s.mem pgindex i = M.leaf i :=
  h.shows.leafAt_eq i

theorem leaf_lt (h : Held s pgindex M rest) {i f : Nat} (hl : M.leaf i = some f) :
    i < nrPtentries :=
  leafAt_lt ((h.leafAt_eq i).trans hl)

theorem leaf_mem (h : Held s pgindex M rest) {i f : Nat} (hl : M.leaf i = some f) :
    f ∈ s.frames :=
  h.frames.mem_iff.mpr (List.mem_append_left _ (PageMap.mem_leafFrames (h.leaf_lt hl) hl))

theorem rest_mem (h : Held s pgindex M rest) {g : Nat} (hg : g ∈ rest) : g ∈ s.frames :=
  h.frames.mem_iff.mpr (List.mem_append_right _ hg)

/-- The entries of a slot without a leaf table are zero. -/
theorem pte_of_absent (h : Held s pgindex M rest) (hnone : M.leaf (pdx v) = none) :
    M.pte v = 0 := by
  rw [← h.shows.pte]
  exact pteAt_of_absent ((h.leafAt_eq _).trans hnone)

theorem pte_lt (h : Held s pgindex M rest) (v : Nat) : M.pte v < 2 ^ 32 := by
  rw [← h.shows.pte]
  exact pteAt_lt ..

/-- The word of a leaf table that holds the entry of a page. -/
theorem load_pte (h : Held s pgindex M rest) (hv : IsPage v) {f : Nat}
    (hf : M.leaf (pdx v) = some f) : s.mem.load32 (entry (pa2kva f) (ptx v)) = M.pte v := by
  rw [← h.shows.pte, h.shows.tables.pteAt_eq hv ((h.leafAt_eq _).trans hf)]

/-- The allocator's answers do not matter to the map. -/
theorem skip (h : Held s pgindex M rest) :
    Edits pgindex rest s M { s with supply := s.supply.tail } M where
  held := ⟨h.shows, h.frames, h.dir⟩
  spared _ _ _ _ hg := ⟨Untouched.refl _ _, hg⟩

theorem newLeaf (h : Held s pgindex M rest) {i l : Nat} (hi : i < nrPtentries)
    (hnone : M.leaf i = none) (hans : s.answer pageSize = some l) :
    Edits pgindex rest s M { s with
      mem := (s.mem.fill (pa2kva l) 0 pageSize).store32 (entry pgindex i) (pa2kva l)
      frames := l :: s.frames
      supply := s.supply.tail } (M.setLeaf i (some l)) := by
  obtain ⟨hl, hfresh⟩ := Phys.answer_page hans
  obtain ⟨hshows, hsame⟩ := h.shows.newLeaf hi hl hnone (fun heq => hfresh (heq ▸ h.rest_mem h.dir))
    (fun j hj => hfresh (h.leaf_mem hj)) rfl
  refine ⟨⟨hshows, ?_, h.dir⟩, ?_⟩
  · exact (h.frames.cons l).trans
      ((PageMap.leafFrames_setLeaf hi hnone l).symm.append_right rest)
  · intro g hg hframe hdir hgl
    have hne : g ≠ l := fun heq => hfresh (heq ▸ h.rest_mem hg)
    constructor
    · exact hsame g hframe hne hdir
    · intro j hj
      by_cases hji : j = i
      · rw [hji, PageMap.setLeaf_self] at hj
        exact hne (Option.some.inj hj).symm
      · rw [PageMap.setLeaf_of_ne _ hji] at hj
        exact hgl j hj

/-- Another entry for a page whose leaf table is there. -/
theorem storePte (h : Held s pgindex M rest) (hv : IsPage v) {f e : Nat} (he : e < 2 ^ 32)
    (hf : M.leaf (pdx v) = some f) :
    Edits pgindex rest s M { s with mem := s.mem.store32 (entry (pa2kva f) (ptx v)) e }
      (M.setPte v e) := by
  obtain ⟨hshows, hsame⟩ := h.shows.storePte hv he hf rfl
  refine ⟨⟨hshows, h.frames, h.dir⟩, fun g hg hframe hdir hgl => ⟨?_, hgl⟩⟩
  exact hsame g hframe fun heq => hgl _ (heq ▸ hf)

/-- An empty leaf table goes back to the allocator. -/
theorem dropLeaf (h : Held s pgindex M rest) {i f : Nat} (hf : M.leaf i = some f)
    (hvacant : M.Vacant i) :
    Edits pgindex rest s M { s with
      mem := (s.mem.fill (pa2kva f) junkbyte pageSize).store32 (entry pgindex i) 0
      frames := s.frames.erase f
      freed := (f, s.mem) :: s.freed } (M.setLeaf i none) := by
  obtain ⟨hshows, hsame, -⟩ := h.shows.dropLeaf hf hvacant rfl
  refine ⟨⟨hshows, ?_, h.dir⟩, ?_⟩
  · have hperm := h.frames.trans ((PageMap.leafFrames_drop (h.leaf_lt hf) hf).append_right rest)
    have herase := hperm.erase f
    rw [List.cons_append, List.erase_cons_head] at herase
    exact herase
  · intro g hg hgframe hdir hgl
    constructor
    · exact hsame g hgframe (fun heq => hgl _ (heq ▸ hf)) hdir
    · intro j hj
      by_cases hji : j = i
      · rw [hji, PageMap.setLeaf_self] at hj
        cases hj
      · rw [PageMap.setLeaf_of_ne _ hji] at hj
        exact hgl j hj

end Held

/-! ### Walking the tables -/

variable {pd : Pagedesc} {Q : Int × Pagedesc → Phys → Prop} {n u : Nat} {M₁ : PageMap}

theorem wp_getpagedesc_absent (h : Shows s.mem pgindex M) (hnone : M.leaf (pdx v) = none)
    (hQ : Q (-ENOENT, { pd with pdev := pgindex, pdx := pdx v }) s) :
    wp (getpagedesc pgindex v false pd) Q s := by
  have hpde := (leafAt_eq_none (pdx_lt v)).mp ((congrFun h.leaf _).trans hnone)
  unfold pdeAt at hpde
  simp only [getpagedesc, wp_bind, wp_get]
  rw [if_neg (not_not.mpr hpde), if_neg Bool.false_ne_true, wp_pure]
  exact hQ

/-- `__getpagedesc` without a frame for the leaf table. -/
theorem wp_getpagedesc_short (h : Shows s.mem pgindex M) (hnone : M.leaf (pdx v) = none)
    (hans : s.answer pageSize = none) (hQ : Q (-ENOMEM, { pd with pdev := pgindex, pdx := pdx v })
      { s with supply := s.supply.tail }) :
    wp (getpagedesc pgindex v true pd) Q s := by
  have hpde := (leafAt_eq_none (pdx_lt v)).mp ((congrFun h.leaf _).trans hnone)
  unfold pdeAt at hpde
  simp only [getpagedesc, pgalloc, pgallocBy, allocPages, allocatorAlloc, wp_bind, wp_get]
  rw [if_neg (not_not.mpr hpde), if_pos trivial]
  simp only [wp_bind, wp_get, hans, wp_set, wp_pure]
  rw [if_neg (by decide), wp_pure]
  rw [if_pos (by decide), wp_pure, if_pos rfl, wp_pure]
  exact hQ

theorem ptrAlignBelow_page (hu : u < 2 ^ 32) :
    IsPage (ptrAlignBelow u) ∧ pdx (ptrAlignBelow u) = pdx u ∧ ptx (ptrAlignBelow u) = ptx u := by
  unfold IsPage ptrAlignBelow pdx ptx pageSize
  omega

/-- The entry that a walk of the page table finds. -/
theorem Shows.load_pte {m : Mem} {pgindex f : Nat} {M : PageMap} (h : Shows m pgindex M)
    (hu : u < 2 ^ 32) (hf : M.leaf (pdx u) = some f) :
    m.load32 (entry (pa2kva f) (ptx u)) = M.pte (ptrAlignBelow u) := by
  obtain ⟨hpage, hpdx, hptx⟩ := ptrAlignBelow_page hu
  rw [← h.pte, h.tables.pteAt_eq hpage, hptx]
  rw [hpdx, h.leaf]
  exact hf

/-- `uva2kva` fails where there is no leaf table, and follows the entry elsewhere. -/
theorem wp_uva2kva (h : Shows s.mem pgindex M) (hu : u < 2 ^ 32) :
    wp (uva2kva pgindex u) (fun kva s' => s' = s ∧ kva =
      match M.leaf (pdx u) with
      | none => 0
      | some _ => pa2kva (ptePaddr (M.pte (ptrAlignBelow u)) ||| u % pageSize)) s := by
  rw [uva2kva, wp_bind]
  cases hl : M.leaf (pdx u) with
  | none =>
    apply wp_getpagedesc_absent h hl
    dsimp only
    rw [if_pos (by decide), wp_pure]
    exact ⟨rfl, rfl⟩
  | some f =>
    apply wp_getpagedesc_present h.tables ((congrFun h.leaf _).trans hl)
    dsimp only
    rw [if_neg (by decide), wp_bind, wp_get, wp_pure, h.load_pte hu hl]
    exact ⟨rfl, rfl⟩

/-! ### The first pass of `map_pages` -/

/-- What the pass leaves behind after `n` pages from `v` on: they were all free, they have
leaf tables now, and there are no other new ones. -/
structure Scanned (M M' : PageMap) (v n : Nat) : Prop where
  pte : M'.pte = M.pte
  free : ∀ k < n, M.pte (v + k * pageSize) = 0
  there : ∀ k < n, M'.leaf (pdx (v + k * pageSize)) ≠ none
  leaf : ∀ i, M'.leaf i = M.leaf i ∨ M.leaf i = none ∧ ∃ k < n, pdx (v + k * pageSize) = i

theorem Scanned.zero (M : PageMap) (v : Nat) : Scanned M M v 0 where
  pte := rfl
  free k hk := absurd hk (Nat.not_lt_zero k)
  there k hk := absurd hk (Nat.not_lt_zero k)
  leaf _ := .inl rfl

theorem Scanned.keeps (h : Scanned M M' v n) {i : Nat} (hi : M.leaf i ≠ none) :
    M'.leaf i ≠ none := by
  cases h.leaf i with
  | inl hsame => exact hsame ▸ hi
  | inr hnew => exact absurd hnew.1 hi

theorem page_succ (v k : Nat) : v + (k + 1) * pageSize = v + pageSize + k * pageSize := by
  rw [Nat.succ_mul]
  omega

/-- One more page in front, whose slot has just got a leaf table if it had none. -/
theorem Scanned.cons (hfree : M.pte v = 0) (hpte : M₁.pte = M.pte) (hthere : M₁.leaf (pdx v) ≠ none)
    (hleaf : ∀ i, M₁.leaf i = M.leaf i ∨ M.leaf i = none ∧ i = pdx v)
    (h : Scanned M₁ M' (v + pageSize) n) : Scanned M M' v (n + 1) where
  pte := h.pte.trans hpte
  free k hk := by
    cases k with
    | zero => simpa using hfree
    | succ k =>
      rw [page_succ, ← hpte]
      exact h.free k (Nat.lt_of_succ_lt_succ hk)
  there k hk := by
    cases k with
    | zero => simpa using h.keeps hthere
    | succ k =>
      rw [page_succ]
      exact h.there k (Nat.lt_of_succ_lt_succ hk)
  leaf i := by
    have hhead : 0 < n + 1 ∧ pdx (v + 0 * pageSize) = pdx v := ⟨Nat.succ_pos n, by simp⟩
    cases h.leaf i with
    | inl hsame =>
      cases hleaf i with
      | inl hold => exact .inl (hsame.trans hold)
      | inr hnew => exact .inr ⟨hnew.1, 0, hhead.1, hhead.2.trans hnew.2.symm⟩
    | inr hlater =>
      obtain ⟨hnone, k, hk, hslot⟩ := hlater
      cases hleaf i with
      | inl hold => exact .inr ⟨hold ▸ hnone, k + 1, Nat.succ_lt_succ hk, page_succ v k ▸ hslot⟩
      | inr hnew => exact .inr ⟨hnew.1, 0, hhead.1, hhead.2.trans hnew.2.symm⟩

/-- What stops the first pass over `n` pages from `v` on: a page that is mapped, or a leaf
table that the allocator has no frame for. -/
def obstacle (M : PageMap) (supply : List (Option Nat)) (frames : List Nat) (v : Nat) :
    Nat → Option Int
  | 0 => none
  | n + 1 =>
    if M.pte v ≠ 0 then some (-EEXIST)
    else if M.leaf (pdx v) ≠ none then obstacle M supply frames (v + pageSize) n
    else
      match pageAnswer supply frames pageSize with
      | some l =>
        obstacle (M.setLeaf (pdx v) (some l)) supply.tail (l :: frames) (v + pageSize) n
      | none => some (-ENOMEM)

theorem obstacle_code {supply : List (Option Nat)} {frames : List Nat} {c : Int}
    (h : obstacle M supply frames v n = some c) : c = -EEXIST ∨ c = -ENOMEM := by
  induction n generalizing M v supply frames with
  | zero => cases h
  | succ n ih =>
    rw [obstacle] at h
    split at h
    · exact .inl (Option.some.inj h).symm
    · split at h
      · exact ih h
      · split at h
        · exact ih h
        · exact .inr (Option.some.inj h).symm

/-- How the first pass over `n` pages from `v` on ends: after the last page, or at page `j`
because that is mapped or because its leaf table is missing. -/
def ScanEnds (pgindex : Nat) (rest : List Nat) (s : Phys) (M : PageMap) (v n : Nat)
    (r : Int × Nat × Pagedesc) (s' : Phys) : Prop :=
  r.1 = (obstacle M s.supply s.frames v n).getD 0 ∧
    ∃ j M', j ≤ n ∧ Edits pgindex rest s M s' M' ∧ Scanned M M' v j ∧
      (j = n ∧ r.1 = 0 ∨ j < n ∧ r.2.1 = v + j * pageSize ∧
        (r.1 = -EEXIST ∧ M.pte (v + j * pageSize) ≠ 0 ∨
          r.1 = -ENOMEM ∧ M.leaf (pdx (v + j * pageSize)) = none ∧
            (j = 0 → s.answer pageSize = none)))

/-- The pass goes past one page and then over the others. -/
theorem ScanEnds.cons {r : Int × Nat × Pagedesc} {s1 : Phys} (hedit : Edits pgindex rest s M s1 M₁)
    (hfree : M.pte v = 0) (hpte : M₁.pte = M.pte) (hthere : M₁.leaf (pdx v) ≠ none)
    (hleaf : ∀ i, M₁.leaf i = M.leaf i ∨ M.leaf i = none ∧ i = pdx v)
    (hcode : obstacle M s.supply s.frames v (n + 1) =
      obstacle M₁ s1.supply s1.frames (v + pageSize) n)
    (h : ScanEnds pgindex rest s1 M₁ (v + pageSize) n r s') :
    ScanEnds pgindex rest s M v (n + 1) r s' := by
  obtain ⟨hr, j, M', hj, hedit', hscanned, hend⟩ := h
  refine ⟨by rw [hr, hcode], j + 1, M', Nat.succ_le_succ hj, hedit.trans hedit',
    hscanned.cons hfree hpte hthere hleaf, ?_⟩
  rw [page_succ]
  cases hend with
  | inl hdone => exact .inl ⟨congrArg (· + 1) hdone.1, hdone.2⟩
  | inr hstop =>
    obtain ⟨hlt, hcur, hwhy⟩ := hstop
    refine .inr ⟨Nat.succ_lt_succ hlt, hcur, ?_⟩
    cases hwhy with
    | inl hexist => exact .inl ⟨hexist.1, hpte ▸ hexist.2⟩
    | inr hshort =>
      refine .inr ⟨hshort.1, ?_, fun hzero => absurd hzero (Nat.succ_ne_zero j)⟩
      cases hleaf (pdx (v + pageSize + j * pageSize)) with
      | inl hsame => exact hsame ▸ hshort.2.1
      | inr hnew => exact hnew.1

section Scan

variable {pend fuel pcur : Nat} {pd : Pagedesc} {Q : Int × Nat × Pagedesc → Phys → Prop}

theorem wp_mapScan_round (h : Held s pgindex M rest) (hv : IsPage v) (hlt : pcur < pend)
    (hexist : ∀ pd', M.pte v ≠ 0 → Q (-EEXIST, v, pd') s)
    (hshort : ∀ pd', M.leaf (pdx v) = none → s.answer pageSize = none →
      Q (-ENOMEM, v, pd') { s with supply := s.supply.tail })
    (hthere : ∀ pd', M.pte v = 0 → M.leaf (pdx v) ≠ none →
      wp (mapScan pgindex pend fuel (add64 pcur pageSize) (u32 (v + pageSize)) pd') Q s)
    (hnew : ∀ pd' l m', M.leaf (pdx v) = none → s.answer pageSize = some l →
      Edits pgindex rest s M
        { s with mem := m', frames := l :: s.frames, supply := s.supply.tail }
        (M.setLeaf (pdx v) (some l)) →
      wp (mapScan pgindex pend fuel (add64 pcur pageSize) (u32 (v + pageSize)) pd') Q
        { s with mem := m', frames := l :: s.frames, supply := s.supply.tail }) :
    wp (mapScan pgindex pend (fuel + 1) pcur v pd) Q s := by
  rw [mapScan, if_pos hlt, wp_bind]
  cases hl : M.leaf (pdx v) with
  | some f =>
    apply wp_getpagedesc_present h.shows.tables ((h.leafAt_eq _).trans hl)
    dsimp only
    rw [if_neg (by decide), wp_bind, wp_get, h.load_pte hv hl]
    by_cases hfree : M.pte v = 0
    · rw [if_neg (not_not.mpr hfree)]
      exact hthere _ hfree (by rw [hl]; exact Option.some_ne_none f)
    · rw [if_pos hfree, wp_pure]
      exact hexist _ hfree
  | none =>
    cases hans : s.answer pageSize with
    | none =>
      apply wp_getpagedesc_short h.shows hl hans
      dsimp only
      rw [if_pos rfl, wp_pure]
      exact hshort _ hl hans
    | some l =>
      have hedit := h.newLeaf (pdx_lt v) hl hans
      have hentry := hedit.held.load_pte hv (PageMap.setLeaf_self M (pdx v) (some l))
      rw [PageMap.setLeaf_pte, h.pte_of_absent hl] at hentry
      apply wp_getpagedesc_create ((h.leafAt_eq _).trans hl) hans
      dsimp only at hentry ⊢
      rw [if_neg (by decide), wp_bind, wp_get, if_neg (not_not.mpr hentry)]
      exact hnew _ l _ hl hans hedit

/-- **The first pass** over `n` pages from `v` on. -/
theorem wp_mapScan {n : Nat} (h : Held s pgindex M rest) (hv : v % pageSize = 0)
    (hend : v + n * pageSize ≤ 2 ^ 32) (hpend : pend = pcur + n * pageSize) (h64 : pend < 2 ^ 64)
    (hfuel : n ≤ fuel) :
    wp (mapScan pgindex pend fuel pcur (u32 v) pd) (ScanEnds pgindex rest s M v n) s := by
  induction n generalizing s M v pcur fuel pd with
  | zero =>
    rw [mapScan_done (by omega), wp_pure]
    exact ⟨rfl, 0, M, Nat.le_refl 0, .refl h, .zero M v, .inl ⟨rfl, rfl⟩⟩
  | succ n ih =>
    obtain ⟨fuel, rfl⟩ : ∃ k, fuel = k + 1 := ⟨fuel - 1, by omega⟩
    have hsucc : (n + 1) * pageSize = n * pageSize + pageSize := Nat.succ_mul n pageSize
    have hpos : 0 < pageSize := by decide
    have hu : u32 v = v := Nat.mod_eq_of_lt (by omega)
    have hadd : add64 pcur pageSize = pcur + pageSize := add64_eq (by omega)
    have hv' : (v + pageSize) % pageSize = 0 := by rw [Nat.add_mod_right]; exact hv
    rw [hu]
    apply wp_mapScan_round h ⟨hv, by omega⟩ (by omega)
    case hexist =>
      intro pd' hmapped
      refine ⟨?_, 0, M, Nat.zero_le _, .refl h, .zero M v, .inr ⟨Nat.succ_pos n, by simp,
        .inl ⟨rfl, by simpa using hmapped⟩⟩⟩
      rw [obstacle, if_pos hmapped]
      rfl
    case hshort =>
      intro pd' hnone hans
      refine ⟨?_, 0, M, Nat.zero_le _, h.skip, .zero M v, .inr ⟨Nat.succ_pos n, by simp,
        .inr ⟨rfl, by simpa using hnone, fun _ => hans⟩⟩⟩
      unfold Phys.answer at hans
      rw [obstacle, if_neg (not_not.mpr (h.pte_of_absent hnone)), if_neg (not_not.mpr hnone),
        hans]
      rfl
    case hthere =>
      intro pd' hfree hthere
      apply wp_mono (ih h hv' (by omega) (by omega) (by omega))
      intro r s' hrest
      apply hrest.cons (.refl h) hfree rfl hthere fun _ => .inl rfl
      rw [obstacle, if_neg (not_not.mpr hfree), if_pos hthere]
    case hnew =>
      intro pd' l m' hnone hans hedit
      apply wp_mono (ih hedit.held hv' (by omega) (by omega) (by omega))
      intro r s' hrest
      have hfree := h.pte_of_absent hnone
      apply hrest.cons hedit hfree rfl
      · rw [PageMap.setLeaf_self]
        exact Option.some_ne_none l
      · intro i
        by_cases hi : i = pdx v
        · exact .inr ⟨hi ▸ hnone, hi⟩
        · exact .inl (PageMap.setLeaf_of_ne M hi _)
      · unfold Phys.answer at hans
        rw [obstacle, if_neg (not_not.mpr hfree), if_neg (not_not.mpr hnone), hans]

end Scan

/-- The leaf tables that mapping `n` pages from `v` on takes. -/
def tablesNeeded (missing : Nat → Bool) (v : Nat) : Nat → Nat
  | 0 => 0
  | n + 1 =>
    tablesNeeded (fun i => missing i && i != pdx v) (v + pageSize) n +
      if missing (pdx v) then 1 else 0

/-- The slots without a leaf table. -/
def PageMap.lacking (M : PageMap) (i : Nat) : Bool := (M.leaf i).isNone

theorem PageMap.lacking_setLeaf (M : PageMap) (i l : Nat) :
    (M.setLeaf i (some l)).lacking = fun j => M.lacking j && j != i := by
  funext j
  unfold PageMap.lacking
  by_cases hji : j = i
  · rw [hji, setLeaf_self]
    simp
  · rw [setLeaf_of_ne _ hji]
    simp [hji]

theorem PageMap.lacking_of_there {i : Nat} (h : M.leaf i ≠ none) :
    (fun j => M.lacking j && j != i) = M.lacking := by
  funext j
  unfold PageMap.lacking
  by_cases hji : j = i
  · rw [hji]
    simp [Option.isNone_eq_false_iff.mpr (Option.isSome_iff_ne_none.mpr h)]
  · simp [hji]

/-- Nothing stops the pass if the pages are free and there are frames for the tables. -/
theorem obstacle_eq_none {n : Nat} {supply : List (Option Nat)} {frames : List Nat}
    (hfree : ∀ k < n, M.pte (v + k * pageSize) = 0)
    (hstock : Stocked IsFrame frames (tablesNeeded M.lacking v n) supply) :
    obstacle M supply frames v n = none := by
  induction n generalizing M v supply frames with
  | zero => rfl
  | succ n ih =>
    have hfirst : M.pte v = 0 := by simpa using hfree 0 (Nat.succ_pos n)
    have hlater : ∀ k < n, M.pte (v + pageSize + k * pageSize) = 0 := by
      intro k hk
      rw [← page_succ]
      exact hfree (k + 1) (Nat.succ_lt_succ hk)
    rw [obstacle, if_neg (not_not.mpr hfirst)]
    by_cases hthere : M.leaf (pdx v) = none
    · have hlack : M.lacking (pdx v) = true := by simp [PageMap.lacking, hthere]
      rw [tablesNeeded, hlack, if_pos rfl, ← PageMap.lacking_setLeaf M (pdx v) 0] at hstock
      rw [if_neg (not_not.mpr hthere)]
      cases pageAnswer_cases supply frames with
      | inl hshort => exact absurd (hstock.mono (Nat.le_add_left 1 _)) hshort.2
      | inr hgot =>
        obtain ⟨l, tail, hans, hsupply, hframe, hfresh⟩ := hgot
        rw [hsupply, stocked_take IsFrame hframe hfresh, PageMap.lacking_setLeaf,
          ← PageMap.lacking_setLeaf M (pdx v) l] at hstock
        rw [hans, hsupply]
        exact ih hlater hstock
    · rw [tablesNeeded, PageMap.lacking_of_there hthere] at hstock
      rw [if_pos hthere]
      exact ih hlater (hstock.mono (Nat.le_add_right _ _))

/-! ### Writing entries -/

/-- The entries of `n` pages from `v` on are those that `e` gives, and nothing else is
different. -/
structure Rewritten (M M' : PageMap) (v n : Nat) (e : Nat → Nat) : Prop where
  leaf : M'.leaf = M.leaf
  pte : ∀ k < n, M'.pte (v + k * pageSize) = e k
  other : ∀ w, (∀ k < n, w ≠ v + k * pageSize) → M'.pte w = M.pte w

theorem Rewritten.zero (M : PageMap) (v : Nat) (e : Nat → Nat) : Rewritten M M v 0 e where
  leaf := rfl
  pte k hk := absurd hk (Nat.not_lt_zero k)
  other _ _ := rfl

theorem Rewritten.cons {n : Nat} {e : Nat → Nat}
    (h : Rewritten (M.setPte v (e 0)) M' (v + pageSize) n fun k => e (k + 1)) :
    Rewritten M M' v (n + 1) e where
  leaf := h.leaf
  pte k hk := by
    cases k with
    | zero =>
      have hpos : 0 < pageSize := by decide
      rw [Nat.zero_mul, Nat.add_zero, h.other v (by intro k _; omega), PageMap.setPte_self]
    | succ k =>
      rw [page_succ]
      exact h.pte k (Nat.lt_of_succ_lt_succ hk)
  other w hw := by
    rw [h.other w, PageMap.setPte_of_ne]
    · simpa using hw 0 (Nat.succ_pos n)
    · intro k hk
      rw [← page_succ]
      exact hw (k + 1) (Nat.succ_lt_succ hk)

section Fill

variable {fuel : Nat} {pd : Pagedesc}

/-- **The second pass** of `map_pages`, over `n` pages whose leaf tables are there. -/
theorem wp_mapFill {n pend pcur flags : Nat} (h : Held s pgindex M rest) (hv : v % pageSize = 0)
    (hend : v + n * pageSize ≤ 2 ^ 32) (hpend : pend = pcur + n * pageSize) (h64 : pend < 2 ^ 64)
    (hfuel : n ≤ fuel) (hthere : ∀ k < n, M.leaf (pdx (v + k * pageSize)) ≠ none) :
    wp (mapFill pgindex pend flags fuel pcur (u32 v) pd) (fun _ s' => ∃ M',
      Edits pgindex rest s M s' M' ∧
        Rewritten M M' v n fun k => pteFor (pcur + k * pageSize) flags) s := by
  induction n generalizing s M v pcur fuel pd with
  | zero =>
    rw [mapFill_done (by omega), wp_pure]
    exact ⟨M, .refl h, .zero M v _⟩
  | succ n ih =>
    obtain ⟨fuel, rfl⟩ : ∃ k, fuel = k + 1 := ⟨fuel - 1, by omega⟩
    have hsucc : (n + 1) * pageSize = n * pageSize + pageSize := Nat.succ_mul n pageSize
    have hpos : 0 < pageSize := by decide
    have hu : u32 v = v := Nat.mod_eq_of_lt (by omega)
    have hadd : add64 pcur pageSize = pcur + pageSize := add64_eq (by omega)
    have hpage : IsPage v := ⟨hv, by omega⟩
    obtain ⟨f, hf⟩ := Option.ne_none_iff_exists'.mp (hthere 0 (Nat.succ_pos n))
    have hedit := h.storePte hpage (pteFor_lt pcur flags) hf
    rw [hu, mapFill, if_pos (by omega), wp_bind]
    apply wp_getpagedesc_present h.shows.tables ((h.leafAt_eq _).trans hf)
    rw [wp_bind, wp_modify, hadd]
    apply wp_mono (ih hedit.held (by rw [Nat.add_mod_right]; exact hv) (by omega) (by omega)
      (by omega) fun k hk => page_succ v k ▸ hthere (k + 1) (Nat.succ_lt_succ hk))
    intro _ s' hrest
    obtain ⟨M', hedit', hwritten⟩ := hrest
    refine ⟨M', hedit.trans hedit', .cons ?_⟩
    simp only [page_succ, Nat.zero_mul, Nat.add_zero]
    exact hwritten

/-- **The loop of `set_pages_perm`** over `n` pages whose leaf tables are there. -/
theorem wp_setPermLoop {n len flags i : Nat} (h : Held s pgindex M rest) (hv : v % pageSize = 0)
    (hend : v + n * pageSize ≤ 2 ^ 32) (hlen : len = i + n * pageSize) (h32 : len < 2 ^ 32)
    (hfuel : n ≤ fuel) (hthere : ∀ k < n, M.leaf (pdx (v + k * pageSize)) ≠ none) :
    wp (setPermLoop pgindex len flags fuel i (u32 v) pd) (fun _ s' => ∃ M',
      Edits pgindex rest s M s' M' ∧ Rewritten M M' v n fun k =>
        ptePaddr (M.pte (v + k * pageSize)) ||| pgtablePerm flags) s := by
  induction n generalizing s M v i fuel pd with
  | zero =>
    rw [setPermLoop_done (by omega), wp_pure]
    exact ⟨M, .refl h, .zero M v _⟩
  | succ n ih =>
    obtain ⟨fuel, rfl⟩ : ∃ k, fuel = k + 1 := ⟨fuel - 1, by omega⟩
    have hsucc : (n + 1) * pageSize = n * pageSize + pageSize := Nat.succ_mul n pageSize
    have hpos : 0 < pageSize := by decide
    have hu : u32 v = v := Nat.mod_eq_of_lt (by omega)
    have hi : u32 (i + pageSize) = i + pageSize := Nat.mod_eq_of_lt (by omega)
    have hpage : IsPage v := ⟨hv, by omega⟩
    have hword := permit_lt (h.pte_lt v) flags
    obtain ⟨f, hf⟩ := Option.ne_none_iff_exists'.mp (hthere 0 (Nat.succ_pos n))
    rw [Nat.zero_mul, Nat.add_zero] at hf
    have hedit := h.storePte hpage hword hf
    rw [hu, setPermLoop, if_pos (by omega), wp_bind]
    apply wp_getpagedesc_present h.shows.tables ((h.leafAt_eq _).trans hf)
    dsimp only
    rw [if_neg (by decide), wp_bind, wp_modify, h.load_pte hpage hf, hi]
    apply wp_mono (ih hedit.held (by rw [Nat.add_mod_right]; exact hv) (by omega) (by omega)
      (by omega) fun k hk => page_succ v k ▸ hthere (k + 1) (Nat.succ_lt_succ hk))
    intro _ s' hrest
    obtain ⟨M', hedit', hwritten⟩ := hrest
    refine ⟨M', hedit.trans hedit', .cons ?_⟩
    -- the later pages have kept their entries
    have hsame : ∀ k, (M.setPte v (ptePaddr (M.pte v) ||| pgtablePerm flags)).pte
        (v + pageSize + k * pageSize) = M.pte (v + pageSize + k * pageSize) :=
      fun k => PageMap.setPte_of_ne M (by omega) _
    simp only [hsame] at hwritten
    simp only [page_succ, Nat.zero_mul, Nat.add_zero]
    exact hwritten

end Fill

/-! ### Freeing leaf tables -/

/-- The empty leaf tables of the slots are gone, and nothing else is different. -/
structure Pruned (M M' : PageMap) (slots : List Nat) : Prop where
  pte : M'.pte = M.pte
  gone : ∀ i ∈ slots, M.Vacant i → M'.leaf i = none
  kept : ∀ i, (i ∈ slots → ¬ M.Vacant i) → M'.leaf i = M.leaf i

variable {i : Nat} {slots : List Nat} {Q : Unit → Phys → Prop}

theorem Pruned.nil (M : PageMap) : Pruned M M [] where
  pte := rfl
  gone _ hi := absurd hi List.not_mem_nil
  kept _ _ := rfl

theorem Pruned.cons {M₁ : PageMap} (h : Pruned M M₁ [i]) (h' : Pruned M₁ M' slots)
    : Pruned M M' (i :: slots) where
  pte := h'.pte.trans h.pte
  gone j hj hvacant := by
    have hvacant1 : M₁.Vacant j := fun w hw => (congrFun h.pte w).trans (hvacant w hw)
    by_cases hjs : j ∈ slots
    · exact h'.gone j hjs hvacant1
    · have hji : j = i := (List.mem_cons.mp hj).resolve_right hjs
      rw [h'.kept j fun hmem => absurd hmem hjs]
      exact h.gone j (hji ▸ List.mem_singleton_self i) hvacant
  kept j hj := by
    have hback : M₁.Vacant j → M.Vacant j := fun hv w hw =>
      (congrFun h.pte w).symm.trans (hv w hw)
    rw [h'.kept j fun hmem hv => hj (List.mem_cons_of_mem i hmem) (hback hv)]
    exact h.kept j fun hmem => hj (List.mem_singleton.mp hmem ▸ List.mem_cons_self)

theorem Pruned.absent (h : Pruned M M' slots) (hi : M.leaf i = none) :
    M'.leaf i = none := by
  by_cases hgone : i ∈ slots ∧ M.Vacant i
  · exact h.gone i hgone.1 hgone.2
  · rw [h.kept i fun hmem hv => hgone ⟨hmem, hv⟩]
    exact hi

/-- One round of `__free_intermediate_pgtable` on a slot with a leaf table. -/
theorem wp_freeIfEmpty_there (h : Held s pgindex M rest) (hi : M.leaf i ≠ none) :
    wp (freeIfEmpty pgindex i) (fun _ s' => ∃ M', Edits pgindex rest s M s' M' ∧
      Pruned M M' [i]) s := by
  obtain ⟨f, hf⟩ := Option.ne_none_iff_exists'.mp hi
  have hpte := h.shows.pte
  apply wp_freeIfEmpty h.shows.tables ((h.leafAt_eq i).trans hf) (h.leaf_mem hf)
  · intro w hw hmapped
    have hvacant : ¬ M.Vacant i := fun hv => hmapped (by rw [hpte]; exact hv w hw)
    exact ⟨M, .refl h, rfl, fun j hj hv => absurd (List.mem_singleton.mp hj ▸ hv) hvacant,
      fun _ _ => rfl⟩
  · intro hall
    have hvacant : M.Vacant i := by rw [hpte] at hall; exact hall
    refine ⟨M.setLeaf i none, h.dropLeaf hf hvacant, rfl, ?_, ?_⟩
    · intro j hj _
      rw [List.mem_singleton.mp hj, PageMap.setLeaf_self]
    · intro j hj
      have hji : j ≠ i := by
        intro hji
        rw [hji] at hj
        exact hj (List.mem_singleton_self i) hvacant
      exact PageMap.setLeaf_of_ne M hji none

theorem freeIfEmpty_absent (h : Held s pgindex M rest) (hlt : i < nrPtentries)
    (hi : M.leaf i = none) : ¬ wp (freeIfEmpty pgindex i) Q s := by
  have hpde := (leafAt_eq_none hlt).mp ((h.leafAt_eq i).trans hi)
  unfold pdeAt at hpde
  rw [freeIfEmpty, wp_bind, wp_get]
  rw [if_pos hpde, wp_throw]
  exact id

/-- **`__free_intermediate_pgtable`** on slots that all have leaf tables. -/
theorem wp_freeSlots (hnodup : slots.Nodup) (h : Held s pgindex M rest)
    (hthere : ∀ i ∈ slots, M.leaf i ≠ none) :
    wp (slots.forM (freeIfEmpty pgindex)) (fun _ s' => ∃ M', Edits pgindex rest s M s' M' ∧
      Pruned M M' slots) s := by
  induction slots generalizing s M with
  | nil => exact wp_pure.mpr ⟨M, .refl h, .nil M⟩
  | cons i slots ih =>
    obtain ⟨hi, hrest⟩ := List.nodup_cons.mp hnodup
    show wp (freeIfEmpty pgindex i >>= fun _ => slots.forM (freeIfEmpty pgindex)) _ s
    rw [wp_bind]
    apply wp_mono (wp_freeIfEmpty_there h (hthere i List.mem_cons_self))
    intro _ s1 hround
    obtain ⟨M₁, hedit, hpruned⟩ := hround
    have hthere1 : ∀ j ∈ slots, M₁.leaf j ≠ none := by
      intro j hj
      rw [hpruned.kept j fun hmem => absurd (List.mem_singleton.mp hmem ▸ hj) hi]
      exact hthere j (List.mem_cons_of_mem i hj)
    apply wp_mono (ih hrest hedit.held hthere1)
    intro _ s' hlater
    obtain ⟨M', hedit', hpruned'⟩ := hlater
    exact ⟨M', hedit.trans hedit', hpruned.cons hpruned'⟩

/-- It does not get past a zero directory entry. -/
theorem freeSlots_absent (h : Held s pgindex M rest) (hlt : ∀ i ∈ slots, i < nrPtentries)
    (hi : i ∈ slots) (hnone : M.leaf i = none) : ¬ wp (slots.forM (freeIfEmpty pgindex)) Q s := by
  induction slots generalizing s M with
  | nil => cases hi
  | cons j slots ih =>
    show ¬ wp (freeIfEmpty pgindex j >>= fun _ => slots.forM (freeIfEmpty pgindex)) Q s
    rw [wp_bind]
    intro hwp
    by_cases hj : M.leaf j = none
    · exact freeIfEmpty_absent h (hlt j List.mem_cons_self) hj hwp
    · obtain ⟨_, s1, -, hround, hlater⟩ := wp_iff.mp (wp_and (wp_freeIfEmpty_there h hj) hwp)
      obtain ⟨M₁, hedit, hpruned⟩ := hround
      have hi' : i ∈ slots := (List.mem_cons.mp hi).resolve_left fun hij => hj (hij ▸ hnone)
      exact ih hedit.held (fun k hk => hlt k (List.mem_cons_of_mem j hk)) hi'
        (hpruned.absent hnone) hlater

/-! ### `unmap_pages` -/

/-- One round of the loop of `unmap_pages` on a page with a leaf table. -/
theorem wp_unmapLoop_round {vend fuel unmapped pcur : Nat} {pd : Pagedesc} {paddr : Option Nat}
    {Q : Nat × Option Nat → Phys → Prop} (h : Held s pgindex M rest) (hv : IsPage v)
    (hlt : v < vend) (hthere : M.leaf (pdx v) ≠ none)
    (hstop : unmapped ≠ 0 → M.pte v ≠ pcur → Q (unmapped, paddr) s)
    (hnext : ∀ pd' m', (unmapped = 0 ∨ M.pte v = pcur) →
      Edits pgindex rest s M { s with mem := m' } (M.setPte v 0) →
      wp (unmapLoop pgindex vend fuel (u32 (v + pageSize)) (u32 (unmapped + pageSize))
        (add64 (if unmapped = 0 then ptePaddr (M.pte v) else pcur) pageSize) pd'
        (if unmapped = 0 then some (ptePaddr (M.pte v)) else paddr)) Q { s with mem := m' }) :
    wp (unmapLoop pgindex vend (fuel + 1) v unmapped pcur pd paddr) Q s := by
  obtain ⟨f, hf⟩ := Option.ne_none_iff_exists'.mp hthere
  have hedit := h.storePte hv (Nat.two_pow_pos 32) hf
  rw [unmapLoop, if_pos hlt, wp_bind]
  apply wp_getpagedesc_present h.shows.tables ((h.leafAt_eq _).trans hf)
  dsimp only
  rw [if_neg (by decide), wp_bind, wp_get, h.load_pte hv hf]
  by_cases hgo : unmapped ≠ 0 ∧ M.pte v ≠ pcur
  · rw [if_pos hgo, wp_pure]
    exact hstop hgo.1 hgo.2
  · have hwhy : unmapped = 0 ∨ M.pte v = pcur := by
      by_cases hz : unmapped = 0
      · exact .inl hz
      · exact .inr (not_not.mp fun hne => hgo ⟨hz, hne⟩)
    rw [if_neg hgo]
    have hnext' := hnext ⟨pgindex, pa2kva f, pdx v, ptx v⟩ _ hwhy hedit
    by_cases hz : unmapped = 0
    · rw [if_pos hz, if_pos hz] at hnext'
      rw [if_pos hz]
      rw [wp_bind, wp_modify]
      exact hnext'
    · rw [if_neg hz, if_neg hz] at hnext'
      rw [if_neg hz]
      rw [wp_bind, wp_modify]
      exact hnext'

end AimKernel
