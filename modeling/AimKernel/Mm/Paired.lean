import AimKernel.Mm.UvmCalls
import AimKernel.Mm.UvmSim

/-!
# AimKernel.Mm.Paired

Memory and its books side by side.

The books forget what the pages hold. To speak about contents, `Paired` runs the page
operations on memory and on the books in lockstep: a state is a memory together with books
that represent it, and an operation returns where the one on the books does. So the calls on
`pairedOps` meet the specifications of the calls on the books (`paired_books`), and they are
the calls on memory (`phys_paired`).

What an operation does to the bytes of plain frames is said by two relations that compose.
`Keeps` goes with operations that take frames, `Drops` with those that give them back.
-/

namespace AimKernel

variable {α : Type}

/-- A memory, and books that represent it. -/
structure Paired where
  phys : Phys
  books : Books
  rel : Represents phys books

/-- Both computations, where the one on the books returns. -/
noncomputable def pair (m : PhysM α) (n : StateT Books (Except Fault) α) (h : Sim Represents m n) :
    StateT Paired (Except Fault) α := fun x =>
  match hn : n x.books with
  | .error e => .error e
  | .ok (a, t) =>
    have hm := h x.phys x.books a t x.rel hn
    .ok (a, ⟨hm.choose, t, hm.choose_spec.2⟩)

section Pair

variable {m : PhysM α} {n : StateT Books (Except Fault) α} (h : Sim Represents m n)

include h

/-- A run of a pair is a run on memory and a run on the books. -/
theorem pair_run {x x' : Paired} {a : α} (hrun : pair m n h x = .ok (a, x')) :
    m x.phys = .ok (a, x'.phys) ∧ n x.books = .ok (a, x'.books) := by
  unfold pair at hrun
  split at hrun
  · cases hrun
  · next b t hn =>
    have hm := h x.phys x.books b t x.rel hn
    obtain ⟨rfl, rfl⟩ := Prod.mk.inj (Except.ok.inj hrun)
    exact ⟨hm.choose_spec.1, hn⟩

theorem pair_returns {x : Paired} {a : α} {t : Books} (hn : n x.books = .ok (a, t)) :
    ∃ x', pair m n h x = .ok (a, x') ∧ x'.books = t := by
  unfold pair
  split
  · next e he => cases he.symm.trans hn
  · next b u hu =>
    obtain ⟨rfl, rfl⟩ := Prod.mk.inj (Except.ok.inj (hu.symm.trans hn))
    exact ⟨_, rfl, rfl⟩

theorem pair_books : Sim (fun x t => x.books = t) (pair m n h) n := by
  rintro x t a t' rfl hn
  exact pair_returns h hn

theorem books_pair : Sim (fun t x => t = x.books) n (pair m n h) := by
  rintro t x a x' rfl hrun
  exact ⟨x'.books, (pair_run h hrun).2, rfl⟩

theorem phys_pair : Sim (fun p x => p = x.phys) m (pair m n h) := by
  rintro p x a x' rfl hrun
  exact ⟨x'.phys, (pair_run h hrun).1, rfl⟩

end Pair

/-- The page operations on memory and on the books. -/
noncomputable def pairedOps : PageOps Paired where
  allocPages pages := pair _ _ (sim_allocPages pages)
  freePages pages := pair _ _ (sim_freePages pages)
  initPgindex := pair _ _ sim_initPgindex
  destroyPgindex pgindex := pair _ _ (sim_destroyPgindex pgindex)
  mapPages pgindex vaddr paddr size flags := pair _ _ (sim_mapPages pgindex vaddr paddr size flags)
  unmapPages pgindex vaddr size := pair _ _ (sim_unmapPages pgindex vaddr size)
  setPagesPerm pgindex addr len flags := pair _ _ (sim_setPagesPerm pgindex addr len flags)
  memmove dst src len := pair _ _ (sim_memmove dst src len)

/-- The calls on pairs meet the specifications of the calls on the books. -/
theorem paired_books : PageSim (fun x t => x.books = t) (fun _ _ => True) pairedOps Books.ops where
  allocPages pages := pair_books (sim_allocPages pages)
  freePages pages := pair_books (sim_freePages pages)
  initPgindex := pair_books sim_initPgindex
  destroyPgindex pgindex := pair_books (sim_destroyPgindex pgindex)
  mapPages pgindex vaddr paddr size flags _ :=
    pair_books (sim_mapPages pgindex vaddr paddr size flags)
  unmapPages pgindex vaddr size := pair_books (sim_unmapPages pgindex vaddr size)
  setPagesPerm pgindex addr len flags := pair_books (sim_setPagesPerm pgindex addr len flags)
  memmove dst src len := pair_books (sim_memmove dst src len)

/-- Where the calls on pairs return, those on the books do. -/
theorem books_paired : PageSim (fun t x => t = x.books) (fun _ _ => True) Books.ops pairedOps where
  allocPages pages := books_pair (sim_allocPages pages)
  freePages pages := books_pair (sim_freePages pages)
  initPgindex := books_pair sim_initPgindex
  destroyPgindex pgindex := books_pair (sim_destroyPgindex pgindex)
  mapPages pgindex vaddr paddr size flags _ :=
    books_pair (sim_mapPages pgindex vaddr paddr size flags)
  unmapPages pgindex vaddr size := books_pair (sim_unmapPages pgindex vaddr size)
  setPagesPerm pgindex addr len flags := books_pair (sim_setPagesPerm pgindex addr len flags)
  memmove dst src len := books_pair (sim_memmove dst src len)

/-- The calls on pairs are the calls on memory. -/
theorem phys_paired : PageSim (fun p x => p = x.phys) (fun _ _ => True) cleanOps pairedOps where
  allocPages pages := phys_pair (sim_allocPages pages)
  freePages pages := phys_pair (sim_freePages pages)
  initPgindex := phys_pair sim_initPgindex
  destroyPgindex pgindex := phys_pair (sim_destroyPgindex pgindex)
  mapPages pgindex vaddr paddr size flags _ :=
    phys_pair (sim_mapPages pgindex vaddr paddr size flags)
  unmapPages pgindex vaddr size := phys_pair (sim_unmapPages pgindex vaddr size)
  setPagesPerm pgindex addr len flags := phys_pair (sim_setPagesPerm pgindex addr len flags)
  memmove dst src len := phys_pair (sim_memmove dst src len)

/-- The books of a paired state. -/
def Vm.books (s : Vm Paired) : Vm Books := ⟨s.pages.books, s.desk⟩

/-- The memory of a paired state. -/
def Vm.phys (s : Vm Paired) : Vm Phys := ⟨s.pages.phys, s.desk⟩

/-- The bytes of a paired state. -/
def Vm.mem (s : Vm Paired) : Mem := s.pages.phys.mem

/-- A specification on the books is one on pairs. -/
theorem Sim.wp_books {m : VmM Paired α} {n : VmM Books α}
    (h : Sim (Vm.Rel fun x t => x.books = t) m n) {s : Vm Paired} {Q : α → Vm Books → Prop}
    (hn : AimKernel.wp n Q s.books) : AimKernel.wp m (fun a s' => Q a s'.books) s := by
  refine wp_mono (h.wp (t := s.books) ⟨rfl, rfl⟩ hn) ?_
  rintro a s' ⟨⟨t, desk⟩, ⟨rfl, rfl⟩, hq⟩
  exact hq

/-- A specification on pairs is one on memory. -/
theorem Sim.wp_phys {m : VmM Phys α} {n : VmM Paired α}
    (h : Sim (Vm.Rel fun p x => p = x.phys) m n) {s : Vm Paired} {Q : α → Vm Paired → Prop}
    (hn : AimKernel.wp n Q s) :
    AimKernel.wp m (fun a p' => ∃ s' : Vm Paired, p' = s'.phys ∧ Q a s') s.phys := by
  refine wp_mono (h.wp (s := s.phys) ⟨rfl, rfl⟩ hn) ?_
  rintro a ⟨p, desk⟩ ⟨s', ⟨hp, hd⟩, hq⟩
  dsimp only at hp hd
  exact ⟨s', by rw [hp, hd]; rfl, hq⟩

/-! ### Bytes of plain frames -/

/-- The plain frames are still there and hold the same bytes. -/
def Keeps (x x' : Paired) : Prop :=
  ∀ f ∈ x.books.plain, f ∈ x'.books.plain ∧ Untouched x.phys.mem x'.phys.mem f

/-- The plain frames that are left were there and hold the same bytes. -/
def Drops (x x' : Paired) : Prop :=
  ∀ f ∈ x'.books.plain, f ∈ x.books.plain ∧ Untouched x.phys.mem x'.phys.mem f

theorem Keeps.refl (x : Paired) : Keeps x x := fun f hf => ⟨hf, .refl _ f⟩

theorem Keeps.trans {x x' x'' : Paired} (h : Keeps x x') (h' : Keeps x' x'') : Keeps x x'' := by
  intro f hf
  obtain ⟨hf', hsame⟩ := h f hf
  obtain ⟨hf'', hsame'⟩ := h' f hf'
  exact ⟨hf'', hsame.trans hsame'⟩

theorem Drops.refl (x : Paired) : Drops x x := fun f hf => ⟨hf, .refl _ f⟩

theorem Drops.trans {x x' x'' : Paired} (h : Drops x x') (h' : Drops x' x'') : Drops x x'' := by
  intro f hf
  obtain ⟨hf', hsame'⟩ := h' f hf
  obtain ⟨hf'', hsame⟩ := h f hf'
  exact ⟨hf'', hsame.trans hsame'⟩

section Ops

variable {x x' : Paired}

/-- Asking for one page: nothing is written, and a page that is granted was free. -/
theorem run_allocPages {paddr : Nat} {result : Int × Pages}
    (h : pairedOps.allocPages ⟨paddr, pageSize, 0⟩ x = .ok (result, x')) :
    Keeps x x' ∧ (0 ≤ result.1 → result.2.size = pageSize ∧ result.2.flags = 0 ∧
      IsFrame result.2.paddr ∧ result.2.paddr ∉ x.books.plain) := by
  obtain ⟨hphys, hbooks⟩ := pair_run (sim_allocPages _) h
  have hmem : x'.phys.mem = x.phys.mem :=
    wp_run (Q := fun _ p => p.mem = x.phys.mem) (wp_allocPages rfl fun _ _ _ => rfl) hphys
  have hplain := wp_run (wp_books_allocPages (Q := fun r t => (∀ f ∈ x.books.plain, f ∈ t.plain) ∧
    (0 ≤ r.1 → r.2.size = pageSize ∧ r.2.flags = 0 ∧ IsFrame r.2.paddr ∧
      r.2.paddr ∉ x.books.plain)) ⟨_, x.rel⟩ (fun _ _ => ⟨fun _ hf => hf, by simp⟩)
    fun f _ _ hf hnew _ => ⟨fun _ hg => List.mem_cons_of_mem f hg, fun _ => ⟨rfl, rfl, hf, fun hc =>
      hnew (x.rel.plain_mem hc)⟩⟩) hbooks
  refine ⟨fun f hf => ⟨hplain.1 f hf, ?_⟩, hplain.2⟩
  rw [hmem]
  exact .refl _ f

theorem run_mapPages {pgindex vaddr paddr size flags : Nat} {retcode : Int}
    (h : pairedOps.mapPages pgindex vaddr paddr size flags x = .ok (retcode, x')) :
    x'.books.plain = x.books.plain ∧ Keeps x x' := by
  obtain ⟨hphys, hbooks⟩ := pair_run (sim_mapPages _ _ _ _ _) h
  obtain ⟨-, -, hplain, hspares⟩ := wp_run (wp_mapPages_represents x.rel hbooks) hphys
  exact ⟨hplain, fun f hf => ⟨hplain.symm ▸ hf, hspares f hf⟩⟩

theorem run_unmapPages {pgindex vaddr size : Nat} {result : Nat × Option Nat}
    (h : pairedOps.unmapPages pgindex vaddr size x = .ok (result, x')) : Drops x x' := by
  obtain ⟨hphys, hbooks⟩ := pair_run (sim_unmapPages _ _ _) h
  obtain ⟨-, -, hplain, hspares⟩ := wp_run (wp_unmapPages_represents x.rel hbooks) hphys
  intro f hf
  rw [hplain] at hf
  exact ⟨hf, hspares f hf⟩

/-- Giving a block back: the other frames are left alone. -/
theorem run_freePages {pages : Pages} (h : pairedOps.freePages pages x = .ok ((), x')) :
    Drops x x' ∧ ∀ f ∈ x.books.plain, f ∉ block pages.paddr pages.size →
      f ∈ x'.books.plain ∧ Untouched x.phys.mem x'.phys.mem f := by
  obtain ⟨hphys, hbooks⟩ := pair_run (sim_freePages pages) h
  unfold Books.freePages at hbooks
  dsimp only at hbooks
  split at hbooks
  · next hok =>
    obtain ⟨hsafe, hsize, hplain⟩ := hok
    obtain ⟨-, ht⟩ := Prod.mk.inj (Except.ok.inj hbooks)
    have hheld : ∀ f ∈ block pages.paddr pages.size, f ∈ x.phys.frames := by
      intro f hf
      rw [x.rel.frames]
      exact x.rel.plain_mem (hplain f hf)
    have hmem : x'.phys.mem = fillBlock x.phys.mem pages.paddr junkbyte pages.size := by
      refine wp_run (Q := fun _ p => p.mem = fillBlock x.phys.mem pages.paddr junkbyte pages.size)
        ?_ hphys
      rw [freePages, wp_bind, wp_get, if_pos hsafe, wp_bind, pmemset, if_neg (not_not.mpr hsize),
        wp_modify, allocatorFree, wp_bind, wp_get]
      rw [if_pos hheld, wp_set]
    have hleft : ∀ f, f ∈ x'.books.plain ↔ f ∈ x.books.plain ∧ f ∉ block pages.paddr pages.size := by
      intro f
      rw [← ht]
      exact x.rel.plainNodup.mem_sdiff_iff
    have hsame : ∀ f ∈ x.books.plain, f ∉ block pages.paddr pages.size →
        Untouched x.phys.mem x'.phys.mem f := by
      intro f hf hout
      rw [hmem]
      apply Untouched.fillBlock (x.rel.plainFrame f hf)
      intro g hg
      exact ⟨x.rel.plainFrame g (hplain g hg), fun heq => hout (heq ▸ hg)⟩
    refine ⟨fun f hf => ?_, fun f hf hout => ⟨(hleft f).mpr ⟨hf, hout⟩, hsame f hf hout⟩⟩
    obtain ⟨hold, hout⟩ := (hleft f).mp hf
    exact ⟨hold, hsame f hold hout⟩
  · cases hbooks

/-- Copying: what is at the destination then, and what is elsewhere. -/
theorem run_memmove {dst src len : Nat} (h : pairedOps.memmove dst src len x = .ok ((), x')) :
    x'.books = x.books ∧ x'.phys.mem = x.phys.mem.copy dst src len := by
  obtain ⟨hphys, hbooks⟩ := pair_run (sim_memmove dst src len) h
  change Books.scribble dst len x.books = .ok ((), x'.books) at hbooks
  unfold Books.scribble at hbooks
  split at hbooks
  · obtain ⟨-, ht⟩ := Prod.mk.inj (Except.ok.inj hbooks)
    have hmem : x'.phys.mem = x.phys.mem.copy dst src len :=
      wp_run (Q := fun _ p => p.mem = x.phys.mem.copy dst src len) (wp_modify.mpr rfl) hphys
    exact ⟨ht.symm, hmem⟩
  · cases hbooks

end Ops

end AimKernel
