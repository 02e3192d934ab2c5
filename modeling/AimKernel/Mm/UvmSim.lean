import AimKernel.Lib.Sim
import AimKernel.Mm.BooksSim

/-!
# AimKernel.Mm.UvmSim

The user memory calls on two implementations of `PageOps`.

If every page operation of one implementation simulates that of the other, then so
does every call (`PageSim.createUvm` and so on): the calls are the same code on both
sides and see the page operations only through their results. `mapsOk` restricts the
arguments at which the simulation of `map_pages` is needed.

There are two instances. `books_sim` carries the calls over from the books to page
tables in memory. `clean_sim` says that wherever the calls return with the real
`map_pages`, they do the same with the one that fails without a change.
-/

namespace AimKernel

variable {P Q α : Type}

/-- The same kernel objects, and related pages. -/
def Vm.Rel (r : P → Q → Prop) (s : Vm P) (t : Vm Q) : Prop := r s.pages t.pages ∧ s.desk = t.desk

section Lifts

variable {r : P → Q → Prop}

theorem Sim.onPages {m : StateT P (Except Fault) α} {n : StateT Q (Except Fault) α}
    (h : Sim r m n) : Sim (Vm.Rel r) (AimKernel.onPages m) (AimKernel.onPages n) :=
  h.zoom (fun _ _ hr => hr.1) (fun _ _ _ _ hr hxy => ⟨hxy, hr.2⟩)

theorem Sim.onDesk (m : StateT Desk (Except Fault) α) :
    Sim (Vm.Rel r) (AimKernel.onDesk m) (AimKernel.onDesk m) :=
  (Sim.refl m).zoom (fun _ _ hr => hr.2) (fun _ _ _ _ hr hxy => ⟨hr.1, hxy⟩)

theorem Sim.lift (x : Except Fault α) :
    Sim (Vm.Rel r) (liftM x : VmM P α) (liftM x : VmM Q α) := by
  intro s t a t' hr hn
  cases x with
  | error e => cases hn
  | ok b =>
    cases hn
    exact ⟨s, rfl, hr⟩

/-- Where the pages are related by equality, the two programs return the same. -/
theorem Sim.run_same {m n : VmM P α} {s s' : Vm P} {a : α} (h : Sim (Vm.Rel Eq) m n)
    (hn : n s = .ok (a, s')) : m s = .ok (a, s') := by
  obtain ⟨⟨pages, desk⟩, hm, hpages, hdesk⟩ := h s s a s' ⟨rfl, rfl⟩ hn
  dsimp only at hpages hdesk
  rw [hpages, hdesk] at hm
  exact hm

end Lifts

/-- Every operation of `B` simulates that of `A`. -/
structure PageSim (r : P → Q → Prop) (mapsOk : Nat → Nat → Prop) (B : PageOps P)
    (A : PageOps Q) : Prop where
  allocPages : ∀ pages, Sim r (B.allocPages pages) (A.allocPages pages)
  freePages : ∀ pages, Sim r (B.freePages pages) (A.freePages pages)
  initPgindex : Sim r B.initPgindex A.initPgindex
  destroyPgindex : ∀ pgindex, Sim r (B.destroyPgindex pgindex) (A.destroyPgindex pgindex)
  mapPages : ∀ pgindex vaddr paddr size flags, mapsOk vaddr size →
    Sim r (B.mapPages pgindex vaddr paddr size flags) (A.mapPages pgindex vaddr paddr size flags)
  unmapPages : ∀ pgindex vaddr size,
    Sim r (B.unmapPages pgindex vaddr size) (A.unmapPages pgindex vaddr size)
  setPagesPerm : ∀ pgindex addr len flags,
    Sim r (B.setPagesPerm pgindex addr len flags) (A.setPagesPerm pgindex addr len flags)
  memmove : ∀ dst src len, Sim r (B.memmove dst src len) (A.memmove dst src len)

namespace PageSim

variable {r : P → Q → Prop} {mapsOk : Nat → Nat → Prop} {B : PageOps P} {A : PageOps Q}

theorem mmNew (h : PageSim r mapsOk B A) : Sim (Vm.Rel r) (mmNew B) (mmNew A) := by
  refine .bind (.onDesk _) fun mm => .ite (fun _ => .pure _) fun _ => ?_
  refine .bind h.initPgindex.onPages fun pgindex => .ite (fun _ => ?_) fun _ => ?_
  · exact .bind (.onDesk _) fun _ => .pure _
  · exact .bind (.onDesk _) fun _ => .pure _

theorem unrefAndFreeUpages (h : PageSim r mapsOk B A) (p : Upages) :
    Sim (Vm.Rel r) (unrefAndFreeUpages B p) (unrefAndFreeUpages A p) :=
  .ite (fun _ => .bind (h.freePages _).onPages fun _ => .onDesk _) fun _ => .pure _

theorem unmapAndFreeLoop (h : PageSim r mapsOk B A) (a k size fuel i : Nat) :
    Sim (Vm.Rel r) (unmapAndFreeLoop B a k size fuel i) (unmapAndFreeLoop A a k size fuel i) := by
  induction fuel generalizing i with
  | zero =>
    rw [AimKernel.unmapAndFreeLoop.eq_def, AimKernel.unmapAndFreeLoop.eq_def A]
    exact .ite (fun _ => .throw _) fun _ => .pure _
  | succ fuel ih =>
    rw [AimKernel.unmapAndFreeLoop.eq_def, AimKernel.unmapAndFreeLoop.eq_def A]
    refine .ite (fun _ => .bind (.onDesk _) fun mm => ?_) fun _ => .pure _
    cases mm.vmas[k]? with
    | none => exact .throw _
    | some vma =>
      refine .bind (.onDesk _) fun _ => .bind (h.unmapPages _ _ _).onPages fun result => ?_
      refine .ite (fun _ => .throw _) fun _ => .bind (h.unrefAndFreeUpages _) fun _ => ?_
      exact .bind (.onDesk _) fun _ => ih _

theorem unmapAndFreeVma (h : PageSim r mapsOk B A) (a k size : Nat) :
    Sim (Vm.Rel r) (unmapAndFreeVma B a k size) (unmapAndFreeVma A a k size) :=
  h.unmapAndFreeLoop a k size maxPages 0

theorem cleanVma (h : PageSim r mapsOk B A) (pgindex : Nat) (vma : Vma) :
    Sim (Vm.Rel r) (cleanVma B pgindex vma) (cleanVma A pgindex vma) := by
  refine .ite (fun _ => .throw _) fun _ => .bind (h.unmapPages _ _ _).onPages fun result => ?_
  exact .ite (fun _ => .throw _) fun _ => .ite (fun _ => .throw _) fun _ => .pure _

theorem mmDestroy (h : PageSim r mapsOk B A) (a : Nat) :
    Sim (Vm.Rel r) (mmDestroy B a) (mmDestroy A a) := by
  refine .bind (.onDesk _) fun desk => .ite (fun _ => .pure _) fun _ => ?_
  refine .bind (.onDesk _) fun mm => .bind (.forM _ fun vma => ?_) fun _ => ?_
  · exact .bind (h.cleanVma _ _) fun _ => .bind (h.unrefAndFreeUpages _) fun _ => .onDesk _
  · exact .bind (h.destroyPgindex _).onPages fun _ => .bind (.onDesk _) fun _ => .onDesk _

theorem addVma (h : PageSim r mapsOk B A) (a place start size flags psize pflags : Nat)
    {init : Nat → StateT P (Except Fault) Unit} {init' : Nat → StateT Q (Except Fault) Unit}
    (hok : mapsOk start size) (hinit : ∀ paddr, Sim r (init paddr) (init' paddr)) :
    Sim (Vm.Rel r) (addVma B a place start size flags psize pflags init)
      (addVma A a place start size flags psize pflags init') := by
  refine .bind (.onDesk _) fun vma => .ite (fun _ => .pure _) fun _ => ?_
  refine .bind (.onDesk _) fun p => .ite (fun _ => .bind (.onDesk _) fun _ => .pure _) fun _ => ?_
  refine .bind (h.allocPages _).onPages fun result => .ite (fun _ => ?_) fun _ => ?_
  · exact .bind (.onDesk _) fun _ => .bind (.onDesk _) fun _ => .pure _
  · refine .bind (.onDesk _) fun mm => .bind (h.mapPages _ _ _ _ _ hok).onPages fun retcode => ?_
    refine .ite (fun _ => ?_) fun _ => ?_
    · refine .bind (h.freePages _).onPages fun _ => .bind (.onDesk _) fun _ => ?_
      exact .bind (.onDesk _) fun _ => .pure _
    · exact .bind (hinit _).onPages fun _ => .bind (.onDesk _) fun _ => .pure _

/-- The loop maps pages, one after the other. -/
theorem createLoop (h : PageSim r mapsOk B A) (hok : ∀ v, IsPage v → mapsOk v pageSize)
    (a len flags fuel mapped : Nat) {vcur : Nat} (hv : IsPage vcur) (place : Nat) :
    Sim (Vm.Rel r) (createLoop B a len flags fuel mapped vcur place)
      (createLoop A a len flags fuel mapped vcur place) := by
  induction fuel generalizing mapped vcur place with
  | zero =>
    exact .ite (fun _ => .throw _) fun _ => .pure _
  | succ fuel ih =>
    rw [AimKernel.createLoop.eq_def, AimKernel.createLoop.eq_def A]
    refine .ite (fun _ => ?_) fun _ => .pure _
    refine .bind (h.addVma _ _ _ _ _ _ _ (hok _ hv) fun _ => .pure _) fun retcode => ?_
    refine .ite (fun _ => .pure _) fun _ => ih _ ?_ _
    unfold IsPage u32 pageSize at *
    omega

theorem createUvm (h : PageSim r mapsOk B A) (hok : ∀ v, IsPage v → mapsOk v pageSize)
    (sent : Sentinel) (a : Nat) {addr : Nat} (haddr : addr < 2 ^ 32) (len flags : Nat) :
    Sim (Vm.Rel r) (createUvm B sent a addr len flags) (createUvm A sent a addr len flags) := by
  refine .ite (fun _ => .pure _) fun hargs => .ite (fun _ => .pure _) fun _ => ?_
  have halign : addr % pageSize = 0 := by
    by_contra hne
    exact hargs (.inr (.inr hne))
  refine .bind (.onDesk _) fun mm => ?_
  cases findVmaBefore sent mm.vmas addr len with
  | none => exact .pure _
  | some place =>
    refine .bind (h.createLoop hok _ _ _ _ _ ⟨halign, haddr⟩ _) fun result => ?_
    exact .ite (fun _ => .bind (h.unmapAndFreeVma _ _ _) fun _ => .pure _) fun _ => .pure _

theorem destroyUvm (h : PageSim r mapsOk B A) (sent : Sentinel) (a addr len : Nat) :
    Sim (Vm.Rel r) (destroyUvm B sent a addr len) (destroyUvm A sent a addr len) := by
  refine .ite (fun _ => .pure _) fun _ => .bind (.onDesk _) fun mm => ?_
  refine .bind (.lift _) fun found => ?_
  cases found with
  | none => exact .pure _
  | some k => exact .bind (h.unmapAndFreeVma _ _ _) fun _ => .pure _

theorem setUvmPermLoop (h : PageSim r mapsOk B A) (a k len flags fuel i addr : Nat) :
    Sim (Vm.Rel r) (setUvmPermLoop B a k len flags fuel i addr)
      (setUvmPermLoop A a k len flags fuel i addr) := by
  induction fuel generalizing i addr with
  | zero =>
    exact .ite (fun _ => .throw _) fun _ => .pure _
  | succ fuel ih =>
    refine .ite (fun _ => .bind (.onDesk _) fun mm => .bind (.onDesk _) fun _ => ?_)
      fun _ => .pure _
    exact .bind (h.setPagesPerm _ _ _ _).onPages fun retcode =>
      .ite (fun _ => .pure _) fun _ => ih _ _

theorem setUvmPerm (h : PageSim r mapsOk B A) (sent : Sentinel) (a addr len flags : Nat) :
    Sim (Vm.Rel r) (setUvmPerm B sent a addr len flags) (setUvmPerm A sent a addr len flags) := by
  refine .ite (fun _ => .pure _) fun _ => .bind (.onDesk _) fun mm => ?_
  refine .bind (.lift _) fun found => ?_
  cases found with
  | none => exact .pure _
  | some k => exact h.setUvmPermLoop _ _ _ _ _ _ _

theorem cloneLoop (h : PageSim r mapsOk B A) (dst : Nat) {vmas : List Vma}
    (hok : ∀ x ∈ vmas, mapsOk x.start x.size) (cloned place : Nat) :
    Sim (Vm.Rel r) (cloneLoop B dst cloned place vmas) (cloneLoop A dst cloned place vmas) := by
  induction vmas generalizing cloned place with
  | nil => exact .pure _
  | cons vma rest ih =>
    refine .bind (h.addVma _ _ _ _ _ _ _ (hok vma List.mem_cons_self) fun _ => h.memmove _ _ _)
      fun retcode => ?_
    exact .ite (fun _ => .pure _) fun _ => ih (fun x hx => hok x (List.mem_cons_of_mem vma hx)) _ _

theorem mmClone (h : PageSim r mapsOk B A) (hok : ∀ v size, mapsOk v size) (dst src : Nat) :
    Sim (Vm.Rel r) (mmClone B dst src) (mmClone A dst src) := by
  refine .bind (.onDesk _) fun mm => .bind (h.cloneLoop dst (fun _ _ => hok _ _) _ _) fun result => ?_
  exact .ite (fun _ => .bind (h.unmapAndFreeVma _ _ _) fun _ => .pure _) fun _ => .pure _

end PageSim

/-! ### Instances -/

/-- Page tables in memory simulate the books. -/
theorem books_sim : PageSim Represents (fun _ _ => True) cleanOps Books.ops where
  allocPages := sim_allocPages
  freePages := sim_freePages
  initPgindex := sim_initPgindex
  destroyPgindex := sim_destroyPgindex
  mapPages pgindex vaddr paddr size flags _ := sim_mapPages pgindex vaddr paddr size flags
  unmapPages := sim_unmapPages
  setPagesPerm := sim_setPagesPerm
  memmove := sim_memmove

/-- `map_pages` without a frame for the leaf table: the rollback follows the zero entry
of the directory unless its loop is empty, so if the call returns, nothing has
happened. -/
theorem mapPages_shortage {s s' : Phys} {pgindex v p flags : Nat} {retcode : Int} (hv : IsPage v)
    (hp : IsFrame p) (hpde : s.mem.load32 (entry pgindex (pdx v)) = 0)
    (hans : s.answer pageSize = none)
    (h : mapPages pgindex v p pageSize flags s = .ok (retcode, s')) :
    retcode = -ENOMEM ∧ s' = { s with supply := s.supply.tail } := by
  have hpend : add64 p pageSize = p + pageSize := add64_eq (by
    have := hp.2
    unfold lowramTop at this
    omega)
  have hlt : p < p + pageSize := by
    unfold pageSize
    omega
  -- the rollback loop, from the slot of the page on
  have hrollback : ∀ n, wp ((List.range' (pdx v) n).forM (freeIfEmpty pgindex))
      (fun _ s1 => s1 = { s with supply := s.supply.tail }) { s with supply := s.supply.tail } ∨
      ∀ Q, ¬ wp ((List.range' (pdx v) n).forM (freeIfEmpty pgindex)) Q
        { s with supply := s.supply.tail } := by
    intro n
    cases n with
    | zero => exact .inl (wp_of_run rfl rfl)
    | succ n =>
      refine .inr fun Q => ?_
      rw [List.range'_succ, List.forM, wp_bind, freeIfEmpty, wp_bind, wp_get]
      rw [if_pos hpde, wp_throw]
      exact id
  have hrun : wp (mapPages pgindex v p pageSize flags) (fun r t => r = retcode ∧ t = s') s :=
    wp_iff.mpr ⟨retcode, s', h, rfl, rfl⟩
  rw [mapPages, if_neg (by simp [hp.1, hv.1]), hpend, wp_bind, maxPages_eq, mapScan, if_pos hlt,
    wp_bind] at hrun
  simp only [getpagedesc, pgalloc, pgallocBy, allocPages, allocatorAlloc, wp_bind, wp_get] at hrun
  rw [if_neg (not_not.mpr hpde), if_pos trivial] at hrun
  simp only [wp_bind, wp_get, hans, wp_set, wp_pure] at hrun
  rw [if_neg (by decide), wp_pure] at hrun
  rw [if_pos (by decide), wp_pure, if_pos rfl, wp_pure] at hrun
  rw [if_pos rfl, wp_pure] at hrun
  dsimp only at hrun
  rw [if_pos (by decide), wp_bind, freeIntermediatePgtable] at hrun
  rcases hrollback _ with hdone | hstuck
  · obtain ⟨_, hr⟩ := wp_iff.mp (wp_and hdone hrun)
    obtain ⟨s1, _, hs1, hr⟩ := hr
    rw [wp_pure] at hr
    exact ⟨hr.1.symm, hr.2.symm.trans hs1⟩
  · exact absurd hrun (hstuck _)

/-- Where the calls return with the real `map_pages`, they return the same with the one
that fails without a change. -/
theorem clean_sim : PageSim Eq (fun v size => IsPage v ∧ size = pageSize) cleanOps physOps where
  allocPages _ := .refl _
  freePages _ := .refl _
  initPgindex := .refl _
  destroyPgindex _ := .refl _
  mapPages pgindex vaddr paddr size flags hok := by
    obtain ⟨hv, rfl⟩ := hok
    rintro s t retcode t' rfl hn
    refine ⟨t', ?_, rfl⟩
    show mapPagesOrFail pgindex vaddr paddr pageSize flags s = .ok (retcode, t')
    by_cases hshort : IsFrame paddr ∧ s.mem.load32 (entry pgindex (pdx vaddr)) = 0 ∧
        s.answer pageSize = none
    · obtain ⟨hp, hpde, hans⟩ := id hshort
      obtain ⟨hret, ht'⟩ := mapPages_shortage hv hp hpde hans hn
      have hclean : wp (mapPagesOrFail pgindex vaddr paddr pageSize flags)
          (fun r s' => r = retcode ∧ s' = t') s := by
        rw [mapPagesOrFail, wp_bind, wp_get, if_pos hshort, wp_bind, wp_set, wp_pure]
        exact ⟨hret.symm, ht'.symm⟩
      obtain ⟨_, _, hok, rfl, rfl⟩ := wp_iff.mp hclean
      exact hok
    · have hsame : mapPagesOrFail pgindex vaddr paddr pageSize flags s =
          mapPages pgindex vaddr paddr pageSize flags s := by
        show (if IsFrame paddr ∧ s.mem.load32 (entry pgindex (pdx vaddr)) = 0 ∧
          s.answer pageSize = none then _ else _ : PhysM Int) s = _
        rw [if_neg hshort]
      exact hsame.trans hn
  unmapPages _ _ _ := .refl _
  setPagesPerm _ _ _ _ := .refl _
  memmove _ _ _ := .refl _

/-- The calls that do not map pages are the same with both. -/
theorem unmapping_sim : PageSim Eq (fun _ _ => False) physOps cleanOps where
  allocPages _ := .refl _
  freePages _ := .refl _
  initPgindex := .refl _
  destroyPgindex _ := .refl _
  mapPages _ _ _ _ _ hno := hno.elim
  unmapPages _ _ _ := .refl _
  setPagesPerm _ _ _ _ := .refl _
  memmove _ _ _ := .refl _

end AimKernel
