import AimKernel.Lib.Sim
import AimKernel.Mm.Books

/-!
# AimKernel.Mm.BooksSim

The operations on memory simulate those on the books.

Every change of memory that the operations make is one of a few kinds: a write that
stays inside plain frames, handing a block out, taking one back, a change of the
tables of one page index. For each kind there is a lemma that says how `Represents`
goes along; the simulations follow from the specifications of the page table
functions.
-/

namespace AimKernel

open Function (update update_eq_self update_idem update_of_ne update_self)

/-- A page index is unchanged if its tables are. -/
theorem Shows.keep {m m' : Mem} {pgindex : Nat} {M : PageMap} (h : Shows m pgindex M)
    (hd : Untouched m m' (kva2pa pgindex)) (hl : ∀ i f, M.leaf i = some f → Untouched m m' f) :
    Shows m' pgindex M where
  tables := h.tables.of_dir hd
  leaf := (h.tables.leafAt_congr hd).trans h.leaf
  pte := by
    rw [← h.pte]
    funext v
    apply h.tables.pteAt_congr hd
    intro f hf
    rw [h.leaf] at hf
    exact hl _ f hf

/-! ### Roles of table frames -/

section Roles

variable {indexes : Indexes} {pgindex : Nat} {M : PageMap}

theorem tableRole_dir (hM : indexes pgindex = some M) :
    tableRole indexes (pgindex, none) = some (kva2pa pgindex) := by
  simp [tableRole, hM]

theorem tableRole_leaf (hM : indexes pgindex = some M) (i : Nat) :
    tableRole indexes (pgindex, some i) = M.leaf i := by
  simp [tableRole, hM]

/-- Changing one slot of a page index, and its entries. -/
theorem tableRole_slot (hM : indexes pgindex = some M) (i : Nat) (x : Option Nat)
    (pte : Nat → Nat) :
    tableRole (update indexes pgindex (some ⟨update M.leaf i x, pte⟩)) =
      update (tableRole indexes) (pgindex, some i) x := by
  funext r
  obtain ⟨q, slot⟩ := r
  by_cases hq : q = pgindex
  · cases hq
    cases slot with
    | none =>
      rw [update_of_ne (by simp), tableRole_dir hM, tableRole_dir (update_self ..)]
    | some j =>
      rw [tableRole_leaf (update_self ..)]
      dsimp only
      by_cases hj : j = i
      · cases hj
        rw [update_self, update_self]
      · rw [update_of_ne hj, update_of_ne (by simpa using hj),
          tableRole_leaf hM]
  · rw [update_of_ne (by simp [hq])]
    cases slot <;> simp [tableRole, update_of_ne hq]

theorem tableRole_pte (hM : indexes pgindex = some M) (pte : Nat → Nat) :
    tableRole (update indexes pgindex (some { M with pte := pte })) =
      tableRole indexes := by
  have h := tableRole_slot hM 0 (M.leaf 0) pte
  rw [update_eq_self, ← tableRole_leaf hM 0, update_eq_self] at h
  exact h

/-- A new page index without leaf tables, or the end of one. -/
theorem tableRole_index {old new : Option PageMap} (hold : indexes pgindex = old)
    (hnone : ∀ M, old = some M ∨ new = some M → ∀ i, M.leaf i = none) :
    tableRole (update indexes pgindex new) =
      update (tableRole indexes) (pgindex, none) (new.map fun _ => kva2pa pgindex) := by
  funext r
  obtain ⟨q, slot⟩ := r
  by_cases hq : q = pgindex
  · cases hq
    cases slot with
    | none => rw [update_self, tableRole, update_self]
    | some i =>
      rw [update_of_ne (by simp), tableRole, tableRole, update_self, hold]
      have hleaf : ∀ o : Option PageMap, (∀ M, o = some M → M.leaf i = none) →
          (o.bind fun M => M.leaf i) = none := by
        intro o ho
        cases o with
        | none => rfl
        | some M => exact ho M rfl
      rw [hleaf new fun M hM => hnone M (.inr hM) i, hleaf old fun M hM => hnone M (.inl hM) i]
  · rw [update_of_ne (by simp [hq])]
    cases slot <;> simp [tableRole, update_of_ne hq]

end Roles

/-! ### Kinds of change -/

namespace Represents

variable {p : Phys} {t : Books} {pgindex : Nat} {M : PageMap} {m' : Mem}

variable {f i paddr size : Nat}

theorem answer (h : Represents p t) (size : Nat) : p.answer size = t.answer size := by
  rw [Phys.answer, Books.answer, h.frames, h.supply]

theorem dir_mem (h : Represents p t) (hM : t.indexes pgindex = some M) :
    kva2pa pgindex ∈ t.frames :=
  h.owned.mem_of_role (tableRole_dir hM)

theorem leaf_mem (h : Represents p t) (hM : t.indexes pgindex = some M) (hf : M.leaf i = some f)
    : f ∈ t.frames :=
  h.owned.mem_of_role ((tableRole_leaf hM i).trans hf)

theorem leaf_isFrame (h : Represents p t) (hM : t.indexes pgindex = some M) (hf : M.leaf i = some f)
    : IsFrame f :=
  (h.index hM).tables.frame ((congrFun (h.index hM).leaf i).trans hf)

/-- The tables of a page index are unchanged if the frames of all tables are. -/
theorem index_keep (h : Represents p t)
    (hsame : ∀ f, IsFrame f → f ∈ t.frames → f ∉ t.plain → Untouched p.mem m' f)
    (hM : t.indexes pgindex = some M) : Shows m' pgindex M := by
  apply (h.index hM).keep
  · exact hsame _ (h.index hM).tables.dir (h.dir_mem hM) (h.owned.apart (tableRole_dir hM))
  · intro i f hf
    exact hsame f (h.leaf_isFrame hM hf) (h.leaf_mem hM hf)
      (h.owned.apart ((tableRole_leaf hM i).trans hf))

/-- A change to the tables of one page index leaves the others alone. -/
theorem index_other (h : Represents p t) (hM : t.indexes pgindex = some M)
    (hsame : ∀ f, IsFrame f → f ∈ t.frames → f ≠ kva2pa pgindex → (∀ i, M.leaf i ≠ some f) →
      Untouched p.mem m' f) {q : Nat} {N : PageMap} (hq : q ≠ pgindex)
    (hN : t.indexes q = some N) : Shows m' q N := by
  -- no frame serves two page indexes
  have hapart : ∀ slot slot' f, tableRole t.indexes (q, slot) = some f →
      tableRole t.indexes (pgindex, slot') ≠ some f := by
    intro slot slot' f hf hf'
    exact hq (congrArg Prod.fst (h.owned.inj hf hf'))
  have htable : ∀ slot f, IsFrame f → tableRole t.indexes (q, slot) = some f →
      Untouched p.mem m' f := by
    intro slot f hframe hf
    refine hsame f hframe (h.owned.mem_of_role hf) ?_ ?_
    · intro heq
      exact hapart slot none f hf ((tableRole_dir hM).trans (congrArg some heq.symm))
    · intro i hi
      exact hapart slot (some i) f hf ((tableRole_leaf hM i).trans hi)
  apply (h.index hN).keep
  · exact htable none _ (h.index hN).tables.dir (tableRole_dir hN)
  · intro i f hf
    exact htable (some i) f (h.leaf_isFrame hN hf) ((tableRole_leaf hN i).trans hf)

theorem plain_mem (h : Represents p t) (hf : f ∈ t.plain) : f ∈ t.frames :=
  h.owned.mem_iff.mpr (.inl hf)

/-- A write that spares the page tables and what is free and has been filled with junk. -/
theorem rewrite (h : Represents p t)
    (hsame : ∀ f, IsFrame f → f ∉ t.plain → f ∈ t.frames ∨ f ∈ t.freed.map Prod.fst →
      Untouched p.mem m' f) :
    Represents { p with mem := m' } t where
  frames := h.frames
  supply := h.supply
  owned := h.owned
  plainNodup := h.plainNodup
  plainFrame := h.plainFrame
  index hM := h.index_keep (fun f hf hheld hplain => hsame f hf hplain (.inl hheld)) hM
  freed := h.freed
  scrubbed f hf := by
    obtain ⟨hframe, hscrub⟩ := h.scrubbed f hf
    exact ⟨hframe, fun hfree => (hscrub hfree).keep
      (hsame f hframe (fun hplain => hfree (h.plain_mem hplain)) (.inr hf))⟩

theorem scribble (h : Represents p t)
    (hsame : ∀ f, IsFrame f → f ∉ t.plain → Untouched p.mem m' f) :
    Represents { p with mem := m' } t :=
  h.rewrite fun f hf hplain _ => hsame f hf hplain

theorem next (h : Represents p t) :
    Represents { p with supply := p.supply.tail } { t with supply := t.supply.tail } :=
  { h with supply := congrArg List.tail h.supply }

theorem lend (h : Represents p t) {fs : List Nat} (hn : fs.Nodup)
    (hfree : ∀ f ∈ fs, IsFrame f ∧ f ∉ t.frames) :
    Represents { p with frames := fs ++ p.frames, supply := p.supply.tail }
      { t with frames := fs ++ t.frames, plain := fs ++ t.plain, supply := t.supply.tail } where
  frames := congrArg (fs ++ ·) h.frames
  supply := congrArg List.tail h.supply
  owned := h.owned.lend hn fun f hf => (hfree f hf).2
  plainNodup := hn.append h.plainNodup fun f hf hplain => (hfree f hf).2 (h.plain_mem hplain)
  plainFrame f hf := by
    rcases List.mem_append.mp hf with hf | hf
    · exact (hfree f hf).1
    · exact h.plainFrame f hf
  index := h.index
  freed := h.freed
  scrubbed f hf := by
    obtain ⟨hframe, hscrub⟩ := h.scrubbed f hf
    exact ⟨hframe, fun hnot => hscrub fun hold => hnot (List.mem_append_right fs hold)⟩

/-- A frame of the books and the snapshot of the page indexes at this moment. -/
theorem snapshot (h : Represents p t) (f : Nat) :
    (f, p.mem).1 = (f, t.indexes).1 ∧
      ∀ pgindex M, (f, t.indexes).2 pgindex = some M → pteAt (f, p.mem).2 pgindex = M.pte :=
  ⟨rfl, fun _ _ hM => (h.index hM).pte⟩

/-- A block of plain frames is filled with junk and taken back. -/
theorem giveBack (h : Represents p t) (hplain : ∀ f ∈ block paddr size, f ∈ t.plain) :
    Represents
      { p with
        mem := fillBlock p.mem paddr junkbyte size
        frames := p.frames.diff (block paddr size)
        freed := (block paddr size).map (fun f => (f, p.mem)) ++ p.freed }
      { t with
        frames := t.frames.diff (block paddr size)
        plain := t.plain.diff (block paddr size)
        freed := (block paddr size).map (fun f => (f, t.indexes)) ++ t.freed } := by
  have hsame : ∀ f, IsFrame f → f ∉ block paddr size →
      Untouched p.mem (fillBlock p.mem paddr junkbyte size) f := by
    intro f hf hout
    apply Untouched.fillBlock hf
    intro g hg
    exact ⟨h.plainFrame g (hplain g hg), fun heq => hout (heq ▸ hg)⟩
  refine ⟨congrArg (List.diff · _) h.frames, h.supply, h.owned.giveBack h.plainNodup hplain,
    h.plainNodup.diff, ?_, ?_, ?_, ?_⟩
  · intro f hf
    exact h.plainFrame f ((h.plainNodup.mem_sdiff_iff.mp hf).1)
  · intro pgindex M hM
    exact h.index_keep (fun f hf _ hnot => hsame f hf fun hin => hnot (hplain f hin)) hM
  · refine List.rel_append (List.forall₂_map_left_iff.mpr (List.forall₂_map_right_iff.mpr ?_))
      h.freed
    exact List.forall₂_same.mpr fun f _ => h.snapshot f
  · intro f hf
    rw [List.map_append, List.map_map, List.mem_append] at hf
    have hin : f ∈ block paddr size → Scrubbed (fillBlock p.mem paddr junkbyte size) f := by
      intro hin x hlo hhi
      rw [fillBlock_apply, if_pos ⟨f, hin, hlo, hhi⟩]
    rcases hf with hf | hf
    · have hmem : f ∈ block paddr size := by simpa using hf
      exact ⟨h.plainFrame f (hplain f hmem), fun _ => hin hmem⟩
    · obtain ⟨hframe, hscrub⟩ := h.scrubbed f hf
      refine ⟨hframe, fun hnot => ?_⟩
      by_cases hmem : f ∈ block paddr size
      · exact hin hmem
      · refine (hscrub fun hold => hnot ?_).keep (hsame f hframe hmem)
        exact (h.owned.nodup.mem_sdiff_iff.mpr ⟨hold, hmem⟩)

theorem retable (h : Represents p t) (hM : t.indexes pgindex = some M) {p' : Phys} {t' : Books}
    {M' : PageMap} (hindexes : t'.indexes = update t.indexes pgindex (some M'))
    (hplain : t'.plain = t.plain) (hframes : p'.frames = t'.frames)
    (hsupply : p'.supply = t'.supply)
    (howned : Owned t'.frames t.plain (tableRole t'.indexes)) (hshows : Shows p'.mem pgindex M')
    (hleaf : ∀ i f, M'.leaf i = some f → M.leaf i = some f ∨ f ∉ t.frames)
    (hsame : ∀ f, IsFrame f → f ≠ kva2pa pgindex → (∀ i, M.leaf i ≠ some f) →
      (∀ i, M'.leaf i ≠ some f) → Untouched p.mem p'.mem f)
    (hfreed : List.Forall₂ (fun x y => x.1 = y.1 ∧
      ∀ pgindex M, y.2 pgindex = some M → pteAt x.2 pgindex = M.pte) p'.freed t'.freed)
    (hnew : ∀ f ∈ t'.freed.map Prod.fst, f ∈ t.freed.map Prod.fst ∨ IsFrame f ∧ f ∈ t.frames)
    (hdrop : ∀ f ∈ t.frames, f ∉ t'.frames → Scrubbed p'.mem f) : Represents p' t' := by
  refine ⟨hframes, hsupply, hplain ▸ howned, hplain ▸ h.plainNodup, hplain ▸ h.plainFrame, ?_,
    hfreed, ?_⟩
  · intro q N hN
    rw [hindexes] at hN
    rcases update_some_eq hN with ⟨rfl, rfl⟩ | ⟨hq, hN⟩
    · exact hshows
    · refine h.index_other hM ?_ hq hN
      intro f hf hmem hdir hne
      refine hsame f hf hdir hne fun i hi => ?_
      rcases hleaf i f hi with hold | hfresh
      · exact hne i hold
      · exact hfresh hmem
  · intro f hf
    have hself : t'.indexes pgindex = some M' := by
      rw [hindexes, update_self]
    rcases hnew f hf with hold | ⟨hframe, hmem⟩
    · obtain ⟨hframe, hscrub⟩ := h.scrubbed f hold
      refine ⟨hframe, fun hnot => ?_⟩
      by_cases hmem : f ∈ t.frames
      · exact hdrop f hmem hnot
      · -- a frame that was free before is none of the tables
        refine (hscrub hmem).keep (hsame f hframe ?_ ?_ ?_)
        · exact fun heq => hmem (heq ▸ h.dir_mem hM)
        · exact fun i hi => hmem (h.leaf_mem hM hi)
        · exact fun i hi => hnot (howned.mem_of_role ((tableRole_leaf hself i).trans hi))
    · exact ⟨hframe, hdrop f hmem⟩

theorem repte (h : Represents p t) (hM : t.indexes pgindex = some M) {pte : Nat → Nat}
    (hshows : Shows m' pgindex { M with pte := pte })
    (hsame : ∀ f, IsFrame f → f ≠ kva2pa pgindex → (∀ i, M.leaf i ≠ some f) →
      Untouched p.mem m' f) :
    Represents { p with mem := m' }
      { t with indexes := update t.indexes pgindex (some { M with pte := pte }) } := by
  refine h.retable hM rfl rfl h.frames h.supply ?_ hshows (fun i f hf => .inl hf)
    (fun f hf hdir hne _ => hsame f hf hdir hne) h.freed (fun f hf => .inl hf)
    (fun f hf hnot => absurd hf hnot)
  rw [tableRole_pte hM]
  exact h.owned

theorem newIndex (h : Represents p t) (hf : IsFrame f) (hfree : f ∉ t.frames)
    (hm : m' = p.mem.fill (pa2kva f) 0 pageSize) :
    Represents { p with mem := m', frames := f :: p.frames, supply := p.supply.tail }
      { t with
        frames := f :: t.frames
        supply := t.supply.tail
        indexes := update t.indexes (pa2kva f) (some .empty) } := by
  have hvacant : t.indexes (pa2kva f) = none := by
    cases hM : t.indexes (pa2kva f) with
    | none => rfl
    | some M => exact absurd (hf.kva2pa_pa2kva ▸ h.dir_mem hM) hfree
  have hsame : ∀ g, IsFrame g → g ≠ f → Untouched p.mem m' g := by
    intro g hg hne
    rw [hm]
    exact (Untouched.refl p.mem g).fill hg hf hne
  refine ⟨congrArg (f :: ·) h.frames, congrArg List.tail h.supply, ?_, h.plainNodup,
    h.plainFrame, ?_, h.freed, ?_⟩
  · have hrole : tableRole (update t.indexes (pa2kva f) (some .empty)) = _ :=
      tableRole_index hvacant (by rintro M (hM | hM) <;> cases hM; exact fun i => rfl)
    rw [hrole, Option.map_some, hf.kva2pa_pa2kva]
    exact h.owned.claim hfree (by simp [tableRole, hvacant])
  · intro q N hN
    dsimp only at hN
    rcases update_some_eq hN with ⟨hq, rfl⟩ | ⟨-, hN⟩
    · obtain ⟨htables, hleaf, hpte⟩ := Tables.empty hf hq hm
      exact ⟨by rw [hq, hf.kva2pa_pa2kva, ← hq]; exact htables, hleaf, hpte⟩
    · exact h.index_keep (fun g hg hmem _ => hsame g hg fun heq => hfree (heq ▸ hmem)) hN
  · intro g hg
    obtain ⟨hframe, hscrub⟩ := h.scrubbed g hg
    refine ⟨hframe, fun hnot => ?_⟩
    obtain ⟨hne, hold⟩ := not_or.mp (mt List.mem_cons.mpr hnot)
    exact (hscrub hold).keep (hsame g hframe hne)

/-- The end of a page index without leaf tables. -/
theorem dropIndex (h : Represents p t) (hM : t.indexes pgindex = some M)
    (hnone : ∀ i, M.leaf i = none) :
    Represents
      { p with
        mem := p.mem.fill (pa2kva (kva2pa pgindex)) junkbyte pageSize
        frames := p.frames.erase (kva2pa pgindex)
        freed := (kva2pa pgindex, p.mem) :: p.freed }
      { t with
        frames := t.frames.erase (kva2pa pgindex)
        indexes := update t.indexes pgindex none
        freed := (kva2pa pgindex, t.indexes) :: t.freed } := by
  have hd := (h.index hM).tables.dir
  have hrole : tableRole (update t.indexes pgindex none) = _ := tableRole_index hM (by
    rintro N (hN | hN) <;> cases hN
    exact hnone)
  have howner := tableRole_dir hM
  generalize hdir : kva2pa pgindex = d at hd howner ⊢
  generalize hm : p.mem.fill (pa2kva d) junkbyte pageSize = m'
  have hsame : ∀ g, IsFrame g → g ≠ d → Untouched p.mem m' g := by
    intro g hg hne
    rw [← hm]
    exact (Untouched.refl p.mem g).fill hg hd hne
  have hfill : Scrubbed m' d := by
    rw [← hm]
    exact Scrubbed.fill p.mem d
  refine ⟨congrArg (List.erase · d) h.frames, h.supply, ?_, h.plainNodup, h.plainFrame, ?_, ?_, ?_⟩
  · rw [hrole, Option.map_none]
    exact h.owned.release howner
  · intro q N hN
    obtain ⟨hq, hN⟩ := update_none_eq hN
    exact h.index_other hM (fun g hg _ hne _ => hsame g hg fun heq => hne (heq.trans hdir.symm))
      hq hN
  · exact .cons (h.snapshot d) h.freed
  · intro g hg
    rw [List.map_cons, List.mem_cons] at hg
    by_cases hgd : g = d
    · rw [hgd]
      exact ⟨hd, fun _ => hfill⟩
    · obtain ⟨hframe, hscrub⟩ := h.scrubbed g (hg.resolve_left hgd)
      refine ⟨hframe, fun hnot => (hscrub fun hold => hnot ?_).keep (hsame g hframe hgd)⟩
      exact (List.mem_erase_of_ne hgd).mpr hold

theorem fillBlock (h : Represents p t) (b : UInt8) (hplain : ∀ f ∈ block paddr size, f ∈ t.plain) :
    Represents { p with mem := fillBlock p.mem paddr b size } t := by
  apply h.scribble
  intro f hf hout
  apply Untouched.fillBlock hf
  intro g hg
  exact ⟨h.plainFrame g (hplain g hg), fun heq => hout (heq ▸ hplain g hg)⟩

end Represents

/-! ### Simulations -/

theorem sim_allocPages (pages : Pages) :
    Sim Represents (allocPages pages) (Books.allocPages pages) := by
  apply Sim.of_wp
  intro p t a t' h hn
  unfold Books.allocPages at hn
  rw [allocPages, wp_bind, allocatorAlloc, wp_bind, wp_get, h.answer]
  cases ha : t.answer pages.size with
  | some f =>
    rw [ha] at hn
    cases hn
    obtain ⟨hsize, hfree⟩ := pageAnswer_free ha
    have hlend := h.lend (block_nodup f pages.size) hfree
    rw [wp_bind, wp_set, wp_pure]
    dsimp only
    by_cases hz : pages.flags &&& gfpZero ≠ 0
    · rw [if_pos hz, wp_bind, pmemset, if_neg (not_not.mpr hsize), wp_modify, wp_pure]
      exact ⟨rfl, hlend.fillBlock 0 fun g hg => List.mem_append_left _ hg⟩
    · rw [if_neg hz, wp_pure]
      exact ⟨rfl, hlend⟩
  | none =>
    rw [ha] at hn
    dsimp only at hn ⊢
    split at hn
    · next hblock =>
      cases hn
      rw [wp_bind, wp_set, wp_pure]
      by_cases hz : pages.flags &&& gfpZero ≠ 0
      · obtain ⟨hsize, hplain⟩ := hblock.resolve_left hz
        rw [if_pos hz, wp_bind, pmemset, if_neg (not_not.mpr hsize), wp_modify, wp_pure]
        exact ⟨rfl, h.next.fillBlock 0 hplain⟩
      · rw [if_neg hz, wp_pure]
        exact ⟨rfl, h.next⟩
    · cases hn

theorem sim_freePages (pages : Pages) :
    Sim Represents (freePages pages) (Books.freePages pages) := by
  apply Sim.of_wp
  intro p t a t' h hn
  unfold Books.freePages at hn
  dsimp only at hn
  split at hn
  · next hok =>
    obtain ⟨hsafe, hsize, hplain⟩ := hok
    cases hn
    have hheld : ∀ f ∈ block pages.paddr pages.size, f ∈ p.frames := by
      intro f hf
      rw [h.frames]
      exact h.plain_mem (hplain f hf)
    rw [freePages, wp_bind, wp_get, if_pos hsafe, wp_bind, pmemset, if_neg (not_not.mpr hsize),
      wp_modify, allocatorFree, wp_bind, wp_get]
    rw [if_pos hheld, wp_set]
    exact ⟨rfl, h.giveBack hplain⟩
  · cases hn

theorem sim_initPgindex : Sim Represents initPgindex Books.initPgindex := by
  apply Sim.of_wp
  intro p t a t' h hn
  unfold Books.initPgindex at hn
  cases ha : t.answer pageSize with
  | none =>
    rw [ha] at hn
    cases hn
    rw [initPgindex, wp_bind, pgalloc, pgallocBy, wp_bind, allocPages, wp_bind, allocatorAlloc, wp_bind,
      wp_get, h.answer]
    rw [ha]
    rw [wp_bind, wp_set, wp_pure]
    dsimp only
    rw [if_neg (by decide), wp_pure]
    rw [if_pos (by decide), wp_pure, if_pos rfl, wp_pure]
    exact ⟨rfl, h.next⟩
  | some f =>
    rw [ha] at hn
    obtain ⟨hresult, hbooks⟩ := Prod.mk.inj (Except.ok.inj hn)
    have hans : p.answer pageSize = some f := (h.answer pageSize).trans ha
    obtain ⟨hf, hfree⟩ := Phys.answer_page hans
    rw [h.frames] at hfree
    rw [initPgindex, wp_bind]
    apply wp_pgalloc hans
    rw [if_neg hf.ne_addrError, wp_bind, pmemset, if_neg (by decide), wp_modify, fillBlock_page,
      wp_pure, ← hbooks]
    exact ⟨hresult, h.newIndex hf hfree rfl⟩

theorem sim_destroyPgindex (pgindex : Nat) :
    Sim Represents (destroyPgindex pgindex) (Books.destroyPgindex pgindex) := by
  apply Sim.of_wp
  intro p t a t' h hn
  unfold Books.destroyPgindex at hn
  cases hM : t.indexes pgindex with
  | none =>
    rw [hM] at hn
    cases hn
  | some M =>
    rw [hM] at hn
    dsimp only at hn
    split at hn
    · next hnone =>
      cases hn
      have hd := (h.index hM).tables.dir
      apply wp_pgfree hd
      · rw [h.frames]
        exact h.dir_mem hM
      · exact ⟨rfl, h.dropIndex hM hnone⟩
    · cases hn

/-- The plain frames hold the same bytes in both memories. -/
def Spares (t : Books) (m m' : Mem) : Prop := ∀ f ∈ t.plain, Untouched m m' f

section OnePage

variable {p : Phys} {t : Books} {pgindex i l v e : Nat} {M : PageMap}

/-- A change to the tables of one page index spares the plain frames. -/
theorem Represents.spares (h : Represents p t) (hM : t.indexes pgindex = some M) {m m' : Mem}
    (hsame : ∀ f, IsFrame f → f ∈ t.frames → f ≠ kva2pa pgindex → (∀ i, M.leaf i ≠ some f) →
      Untouched m m' f) : Spares t m m' := by
  intro f hf
  refine hsame f (h.plainFrame f hf) (h.plain_mem hf) ?_ fun i hi => ?_
  · intro hdir
    exact h.owned.apart (tableRole_dir hM) (hdir ▸ hf)
  · exact h.owned.apart ((tableRole_leaf hM i).trans hi) hf

theorem Represents.storePte (h : Represents p t) (hM : t.indexes pgindex = some M) (hv : IsPage v)
    (he : e < 2 ^ 32) (hl : M.leaf (pdx v) = some l) {m' : Mem}
    (hm : m' = p.mem.store32 (entry (pa2kva l) (ptx v)) e) :
    Represents { p with mem := m' }
        { t with indexes := update t.indexes pgindex (some (M.setPte v e)) } ∧
      Spares t p.mem m' := by
  obtain ⟨hshows, hsame⟩ := (h.index hM).storePte hv he hl hm
  constructor
  · exact h.repte hM hshows fun g hg _ hne => hsame g hg fun heq => hne _ (heq ▸ hl)
  · exact h.spares hM fun g hg _ _ hne => hsame g hg fun heq => hne _ (heq ▸ hl)

theorem Represents.newLeaf (h : Represents p t) (hM : t.indexes pgindex = some M)
    (hi : i < nrPtentries) (hnone : M.leaf i = none) (hans : t.answer pageSize = some l) {m' : Mem}
    (hm : m' = (p.mem.fill (pa2kva l) 0 pageSize).store32 (entry pgindex i) (pa2kva l)) :
    Represents { p with mem := m', frames := l :: p.frames, supply := p.supply.tail }
        { t with
          frames := l :: t.frames
          supply := t.supply.tail
          indexes := update t.indexes pgindex (some (M.setLeaf i (some l))) } ∧
      Spares t p.mem m' := by
  obtain ⟨hl, hfree⟩ := (pageAnswer_free hans).2 l (by simp)
  obtain ⟨hshows, hsame⟩ := (h.index hM).newLeaf hi hl hnone
    (fun heq => hfree (heq ▸ h.dir_mem hM)) (fun j hj => hfree (h.leaf_mem hM hj)) hm
  constructor
  · refine h.retable hM rfl rfl (congrArg _ h.frames) (congrArg List.tail h.supply) ?_ hshows ?_ ?_
      h.freed (fun f hf => .inl hf) (fun f hf hnot => absurd (List.mem_cons_of_mem l hf) hnot)
    · rw [PageMap.setLeaf, tableRole_slot hM]
      exact h.owned.claim hfree ((tableRole_leaf hM _).trans hnone)
    · intro j f hf
      rcases update_some_eq hf with ⟨-, rfl⟩ | ⟨-, hf⟩
      · exact .inr hfree
      · exact .inl hf
    · intro g hg hdir _ hne
      refine hsame g hg ?_ hdir
      rintro rfl
      exact hne i (M.setLeaf_self i _)
  · refine h.spares hM fun g hg hmem hdir _ => hsame g hg ?_ hdir
    rintro rfl
    exact hfree hmem

theorem Represents.dropLeaf (h : Represents p t) (hM : t.indexes pgindex = some M)
    (hl : M.leaf i = some l) (hvacant : M.Vacant i) {m' : Mem}
    (hm : m' = (p.mem.fill (pa2kva l) junkbyte pageSize).store32 (entry pgindex i) 0) :
    Represents
        { p with mem := m', frames := p.frames.erase l, freed := (l, p.mem) :: p.freed }
        { t with
          frames := t.frames.erase l
          indexes := update t.indexes pgindex (some (M.setLeaf i none))
          freed := (l, t.indexes) :: t.freed } ∧
      Spares t p.mem m' := by
  obtain ⟨hshows, hsame, hjunk⟩ := (h.index hM).dropLeaf hl hvacant hm
  have hother : ∀ g, IsFrame g → g ≠ kva2pa pgindex → (∀ i, M.leaf i ≠ some g) →
      Untouched p.mem m' g :=
    fun g hg hdir hne => hsame g hg (fun heq => hne _ (heq ▸ hl)) hdir
  constructor
  · refine h.retable hM rfl rfl (congrArg (List.erase · l) h.frames) h.supply ?_ hshows
      (fun j f hf => .inl (update_none_eq hf).2) (fun g hg hdir hne _ => hother g hg hdir hne)
      (.cons (h.snapshot l) h.freed) ?_ ?_
    · rw [PageMap.setLeaf, tableRole_slot hM]
      exact h.owned.release ((tableRole_leaf hM _).trans hl)
    · exact List.forall_mem_cons.mpr ⟨.inr ⟨h.leaf_isFrame hM hl, h.leaf_mem hM hl⟩,
        fun f hf => .inl hf⟩
    · intro f hf hnot
      have hfl : f = l := by
        by_contra hne
        exact hnot ((List.mem_erase_of_ne hne).mpr hf)
      rw [hfl]
      exact hjunk
  · exact h.spares hM fun g hg _ => hother g hg

end OnePage

variable {p : Phys} {t t' : Books} {pgindex size vaddr : Nat}

theorem wp_mapPages_represents {paddr flags : Nat} {a : Int} (h : Represents p t)
    (hn : Books.mapPages pgindex vaddr paddr size flags t = .ok (a, t')) :
    wp (mapPagesOrFail pgindex vaddr paddr size flags)
      (fun a' p' => a' = a ∧ Represents p' t' ∧ t'.plain = t.plain ∧ Spares t p.mem p'.mem) p := by
  unfold Books.mapPages at hn
  cases hM : t.indexes pgindex with
  | none =>
    rw [hM] at hn
    cases hn
  | some M =>
    rw [hM] at hn
    dsimp only at hn
    split at hn
    · next hpre =>
      obtain ⟨rfl, hv, hp, hfree⟩ := hpre
      have hshow := h.index hM
      have hword := pteFor_lt paddr flags
      rw [mapPagesOrFail, wp_bind, wp_get, h.answer]
      cases hl : M.leaf (pdx vaddr) with
      | some f =>
        rw [hl] at hn
        have hleaf := (hshow.leafAt_eq _).trans hl
        have hpde := hshow.tables.pde_ne_zero hleaf
        cases hn
        rw [if_neg fun hc => hpde hc.2.1]
        obtain ⟨h', hspares⟩ := h.storePte hM hv hword hl rfl
        refine wp_mapPages hshow.tables hv hp hleaf ((congrFun hshow.pte vaddr).trans hfree) ?_
          ⟨rfl, h', rfl, hspares⟩
        exact fun hQ => wp_getpagedesc_present hshow.tables hleaf hQ
      | none =>
        rw [hl] at hn
        have hleaf := (hshow.leafAt_eq _).trans hl
        have hpde := (leafAt_eq_none (pdx_lt vaddr)).mp hleaf
        cases hans : t.answer pageSize with
        | none =>
          rw [hans] at hn
          cases hn
          rw [if_pos ⟨hp, hpde, rfl⟩, wp_bind, wp_set, wp_pure]
          exact ⟨rfl, h.next, rfl, fun f _ => .refl _ f⟩
        | some l =>
          rw [hans] at hn
          cases hn
          rw [if_neg fun hc => absurd hc.2.2 (Option.some_ne_none l)]
          obtain ⟨h₁, hspares₁⟩ := h.newLeaf hM (pdx_lt vaddr) hl hans rfl
          have hM₁ := update_self pgindex (some (M.setLeaf (pdx vaddr) (some l))) t.indexes
          have hshow₁ := h₁.index hM₁
          have hl₁ := M.setLeaf_self (pdx vaddr) (some l)
          obtain ⟨h', hspares⟩ := h₁.storePte hM₁ hv hword hl₁ rfl
          dsimp only at h'
          rw [update_idem] at h'
          refine wp_mapPages hshow₁.tables hv hp ((hshow₁.leafAt_eq _).trans hl₁)
            ((congrFun hshow₁.pte vaddr).trans hfree) ?_
            ⟨rfl, h', rfl, fun f hf => (hspares₁ f hf).trans (hspares f hf)⟩
          exact fun hQ => wp_getpagedesc_create hleaf ((h.answer _).trans hans) hQ
    · cases hn

theorem sim_mapPages (pgindex vaddr paddr size flags : Nat) :
    Sim Represents (mapPagesOrFail pgindex vaddr paddr size flags)
      (Books.mapPages pgindex vaddr paddr size flags) :=
  Sim.of_wp fun _ _ _ _ h hn => wp_mono (wp_mapPages_represents h hn) fun _ _ hq => ⟨hq.1, hq.2.1⟩

theorem wp_unmapPages_represents {a : Nat × Option Nat} (h : Represents p t)
    (hn : Books.unmapPages pgindex vaddr size t = .ok (a, t')) :
    wp (unmapPages pgindex vaddr size)
      (fun a' p' => a' = a ∧ Represents p' t' ∧ t'.plain = t.plain ∧ Spares t p.mem p'.mem) p := by
  unfold Books.unmapPages at hn
  cases hM : t.indexes pgindex with
  | none =>
    rw [hM] at hn
    cases hn
  | some M =>
    rw [hM] at hn
    dsimp only at hn
    split at hn
    · next hpre =>
      obtain ⟨rfl, hv, hend⟩ := hpre
      have hshow := h.index hM
      cases hl : M.leaf (pdx vaddr) with
      | none =>
        rw [hl] at hn
        cases hn
      | some l =>
        rw [hl] at hn
        dsimp only at hn
        obtain ⟨h₁, hspares₁⟩ := h.storePte hM hv (Nat.two_pow_pos 32) hl rfl
        have hM₁ := update_self pgindex (some (M.setPte vaddr 0)) t.indexes
        have hshow₁ := h₁.index hM₁
        have hmem : l ∈ p.frames := h.frames ▸ h.leaf_mem hM hl
        apply wp_unmapPages hshow.tables hv hend ((hshow.leafAt_eq _).trans hl)
        rw [hshow.pte]
        refine wp_freeIfEmpty hshow₁.tables ((hshow₁.leafAt_eq _).trans hl) hmem ?_ ?_
        · intro w hslot hpte
          rw [hshow₁.pte] at hpte
          rw [if_neg fun hempty => hpte (hempty w hslot)] at hn
          cases hn
          exact ⟨rfl, h₁, rfl, hspares₁⟩
        · intro hempty
          rw [hshow₁.pte] at hempty
          rw [if_pos (by exact hempty)] at hn
          cases hn
          obtain ⟨h', hspares⟩ := h₁.dropLeaf hM₁ hl hempty rfl
          dsimp only at h'
          rw [update_idem] at h'
          exact ⟨rfl, h', rfl, fun f hf => (hspares₁ f hf).trans (hspares f hf)⟩
    · cases hn

theorem sim_unmapPages (pgindex vaddr size : Nat) :
    Sim Represents (unmapPages pgindex vaddr size) (Books.unmapPages pgindex vaddr size) :=
  Sim.of_wp fun _ _ _ _ h hn => wp_mono (wp_unmapPages_represents h hn) fun _ _ hq => ⟨hq.1, hq.2.1⟩

theorem sim_setPagesPerm (pgindex addr len flags : Nat) :
    Sim Represents (setPagesPerm pgindex addr len flags)
      (Books.setPagesPerm pgindex addr len flags) := by
  apply Sim.of_wp
  intro p t a t' h hn
  unfold Books.setPagesPerm at hn
  cases hM : t.indexes pgindex with
  | none =>
    rw [hM] at hn
    cases hn
  | some M =>
    rw [hM] at hn
    dsimp only at hn
    split at hn
    · next hpre =>
      obtain ⟨rfl, hv⟩ := hpre
      have hshow := h.index hM
      cases hl : M.leaf (pdx addr) with
      | none =>
        rw [hl] at hn
        cases hn
      | some l =>
        rw [hl] at hn
        cases hn
        have hlt : M.pte addr < 2 ^ 32 := by
          rw [← hshow.pte]
          exact pteAt_lt ..
        apply wp_setPagesPerm hshow.tables hv ((hshow.leafAt_eq _).trans hl)
        rw [hshow.pte]
        exact ⟨rfl, (h.storePte hM hv (permit_lt hlt flags) hl rfl).1⟩
    · cases hn

theorem sim_scribble {kva n : Nat} {f : Mem → Mem}
    (hf : ∀ (m : Mem) a, (kva + n ≤ a ∨ a + pageSize ≤ kva) → m.SameOn (f m) a pageSize) :
    Sim Represents (modify fun s : Phys => { s with mem := f s.mem } : PhysM Unit)
      (Books.scribble kva n) := by
  apply Sim.of_wp
  intro p t a t' h hn
  unfold Books.scribble at hn
  split at hn
  · next hw =>
    cases hn
    rw [wp_modify]
    refine ⟨rfl, h.scribble fun g hg hplain => hf p.mem _ ?_⟩
    by_contra hc
    obtain ⟨hlo, hhi⟩ := not_or.mp hc
    exact hplain (hw g hg (Nat.lt_of_not_le hlo) (Nat.lt_of_not_le hhi))
  · cases hn

theorem sim_memmove (dst src len : Nat) :
    Sim Represents (cleanOps.memmove dst src len) (Books.ops.memmove dst src len) :=
  sim_scribble fun m _ hout => (Mem.SameOn.refl m _ _).copy hout

end AimKernel
