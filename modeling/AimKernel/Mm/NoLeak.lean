import AimKernel.Lib.Wp
import AimKernel.Mm.UvmClone
import AimKernel.Mm.UvmDestroy

/-!
# AimKernel.Mm.NoLeak

The life of one address space, from `mm_new` to `mm_destroy`.

Frames are taken in three places (the pages of VMAs, leaf tables inside `map_pages`, the
directory) and given back in three others (the VMAs one by one, `__free_intermediate_pgtable`
when a leaf table becomes empty, `destroy_pgindex`). At the end of such a life exactly the
frames are handed out that were handed out before it.

That nothing is freed twice is built into the model: to free a frame that is not handed out
is a fault, and no call faults. Every frame that is freed is logged with the memory at that
moment, and the page index of the address space is in use until the last of them
(`Watched`), so the log tells that no frame was freed while the page index mapped it.
-/

namespace AimKernel

/-! ### What every run does to the pages -/

section Lifts

variable {P α : Type} {R : P → P → Prop}

/-- The pages go along `R`. -/
def OnPages (R : P → P → Prop) (s s' : Vm P) : Prop := R s.pages s'.pages

instance [IsPreorder P R] : IsPreorder (Vm P) (OnPages R) where
  refl s := refl_of R s.pages
  trans _ _ _ h h' := trans_of R h h'

theorem Along.onPages {m : StateT P (Except Fault) α} (h : Along R m) :
    Along (OnPages R) (AimKernel.onPages m) :=
  h.zoom fun _ _ ht => ht

theorem Along.onDesk [IsPreorder P R] (m : StateT Desk (Except Fault) α) :
    Along (OnPages R) (AimKernel.onDesk m) :=
  Along.zoom (S := fun _ _ => True) (fun _ _ _ _ => trivial) fun s _ _ => refl_of R s.pages

theorem Along.lift [IsPreorder P R] (x : Except Fault α) :
    Along (OnPages R) (liftM x : VmM P α) := by
  intro s a s' h
  obtain ⟨-, rfl⟩ := run_lift h
  exact refl_of (OnPages R) _

/-- The operations that the calls on an address space make on its pages go along `R`. -/
structure PageAlong (R : P → P → Prop) (B : PageOps P) : Prop where
  allocPages : ∀ pages, Along R (B.allocPages pages)
  freePages : ∀ pages, Along R (B.freePages pages)
  mapPages : ∀ pgindex vaddr paddr size flags, Along R (B.mapPages pgindex vaddr paddr size flags)
  unmapPages : ∀ pgindex vaddr size, Along R (B.unmapPages pgindex vaddr size)
  setPagesPerm : ∀ pgindex addr len flags, Along R (B.setPagesPerm pgindex addr len flags)

/-- The operations that `create_uvm` and `destroy_uvm` make go along `R`: they ask for one page
at a time, without flags. -/
structure PlainAlong (R : P → P → Prop) (B : PageOps P) : Prop where
  allocPages : ∀ paddr, Along R (B.allocPages ⟨paddr, pageSize, 0⟩)
  freePages : ∀ pages, Along R (B.freePages pages)
  mapPages : ∀ pgindex vaddr paddr size flags, Along R (B.mapPages pgindex vaddr paddr size flags)
  unmapPages : ∀ pgindex vaddr size, Along R (B.unmapPages pgindex vaddr size)

namespace PlainAlong

variable {B : PageOps P} [IsPreorder P R]

theorem unrefAndFreeUpages (h : PlainAlong R B) (p : Upages) :
    Along (OnPages R) (unrefAndFreeUpages B p) :=
  .ite (.bind (h.freePages _).onPages fun _ => .onDesk _) (.pure _)

theorem unmapAndFreeLoop (h : PlainAlong R B) (a k size fuel i : Nat) :
    Along (OnPages R) (unmapAndFreeLoop B a k size fuel i) := by
  induction fuel generalizing i with
  | zero =>
    exact .ite (.throw _) (.pure _)
  | succ fuel ih =>
    refine .ite (.bind (.onDesk _) fun mm => ?_) (.pure _)
    cases mm.vmas[k]? with
    | none => exact .throw _
    | some vma =>
      refine .bind (.onDesk _) fun _ => .bind (h.unmapPages _ _ _).onPages fun result => ?_
      refine .ite (.throw _) (.bind (h.unrefAndFreeUpages _) fun _ => ?_)
      exact .bind (.onDesk _) fun _ => ih _

theorem addVma (h : PlainAlong R B) (a place start size flags : Nat)
    {init : Nat → StateT P (Except Fault) Unit} (hinit : ∀ paddr, Along R (init paddr)) :
    Along (OnPages R) (addVma B a place start size flags pageSize 0 init) := by
  refine .bind (.onDesk _) fun vma => .ite (.pure _) (.bind (.onDesk _) fun p => ?_)
  refine .ite (.bind (.onDesk _) fun _ => .pure _) (.bind (h.allocPages _).onPages fun result => ?_)
  refine .ite (.bind (.onDesk _) fun _ => .bind (.onDesk _) fun _ => .pure _) ?_
  refine .bind (.onDesk _) fun mm => .bind (h.mapPages _ _ _ _ _).onPages fun retcode => .ite ?_ ?_
  · refine .bind (h.freePages _).onPages fun _ => .bind (.onDesk _) fun _ => ?_
    exact .bind (.onDesk _) fun _ => .pure _
  · exact .bind (hinit _).onPages fun _ => .bind (.onDesk _) fun _ => .pure _

theorem createLoop (h : PlainAlong R B) (a len flags fuel mapped vcur place : Nat) :
    Along (OnPages R) (createLoop B a len flags fuel mapped vcur place) := by
  induction fuel generalizing mapped vcur place with
  | zero =>
    exact .ite (.throw _) (.pure _)
  | succ fuel ih =>
    refine .ite (.bind (h.addVma _ _ _ _ _ fun _ => .pure _) fun retcode => ?_) (.pure _)
    exact .ite (.pure _) (ih _ _ _)

theorem createUvm (h : PlainAlong R B) (sent : Sentinel) (a addr len flags : Nat) :
    Along (OnPages R) (createUvm B sent a addr len flags) := by
  refine .ite (.pure _) (.ite (.pure _) (.bind (.onDesk _) fun mm => ?_))
  cases findVmaBefore sent mm.vmas addr len with
  | none => exact .pure _
  | some place =>
    refine .bind (h.createLoop _ _ _ _ _ _ _) fun result => ?_
    exact .ite (.bind (h.unmapAndFreeLoop _ _ _ _ _) fun _ => .pure _) (.pure _)

theorem destroyUvm (h : PlainAlong R B) (sent : Sentinel) (a addr len : Nat) :
    Along (OnPages R) (destroyUvm B sent a addr len) := by
  refine .ite (.pure _) (.bind (.onDesk _) fun mm => .bind (.lift _) fun found => ?_)
  cases found with
  | none => exact .pure _
  | some k => exact .bind (h.unmapAndFreeLoop _ _ _ _ _) fun _ => .pure _

theorem destroyVma (h : PlainAlong R B) (pgindex : Nat) (vma : Vma) :
    Along (OnPages R) (do
      cleanVma B pgindex vma
      AimKernel.unrefAndFreeUpages B vma.pages
      kfree vma.addr) := by
  refine .bind ?_ fun _ => .bind (h.unrefAndFreeUpages _) fun _ => .onDesk _
  refine .ite (.throw _) (.bind (h.unmapPages _ _ _).onPages fun result => ?_)
  exact .ite (.throw _) (.ite (.throw _) (.pure _))

end PlainAlong

namespace PageAlong

variable {B : PageOps P}

theorem plain (h : PageAlong R B) : PlainAlong R B :=
  ⟨fun _ => h.allocPages _, h.freePages, h.mapPages, h.unmapPages⟩

theorem mono {S : P → P → Prop} (h : PageAlong R B) (hRS : ∀ p p', R p p' → S p p') :
    PageAlong S B where
  allocPages pages s a s' hrun := hRS s s' (h.allocPages pages s a s' hrun)
  freePages pages s a s' hrun := hRS s s' (h.freePages pages s a s' hrun)
  mapPages pgindex vaddr paddr size flags s a s' hrun :=
    hRS s s' (h.mapPages pgindex vaddr paddr size flags s a s' hrun)
  unmapPages pgindex vaddr size s a s' hrun := hRS s s' (h.unmapPages pgindex vaddr size s a s' hrun)
  setPagesPerm pgindex addr len flags s a s' hrun :=
    hRS s s' (h.setPagesPerm pgindex addr len flags s a s' hrun)

variable [IsPreorder P R]

theorem setUvmPermLoop (h : PageAlong R B) (a k len flags fuel i addr : Nat) :
    Along (OnPages R) (setUvmPermLoop B a k len flags fuel i addr) := by
  induction fuel generalizing i addr with
  | zero =>
    exact .ite (.throw _) (.pure _)
  | succ fuel ih =>
    refine .ite (.bind (.onDesk _) fun mm => .bind (.onDesk _) fun _ => ?_) (.pure _)
    exact .bind (h.setPagesPerm _ _ _ _).onPages fun retcode => .ite (.pure _) (ih _ _)

theorem setUvmPerm (h : PageAlong R B) (sent : Sentinel) (a addr len flags : Nat) :
    Along (OnPages R) (setUvmPerm B sent a addr len flags) := by
  refine .ite (.pure _) (.bind (.onDesk _) fun mm => .bind (.lift _) fun found => ?_)
  cases found with
  | none => exact .pure _
  | some k => exact h.setUvmPermLoop _ _ _ _ _ _ _

end PageAlong

end Lifts

/-! ### The log -/

/-- The page indexes stay in use, and what is freed is logged while they are. -/
structure Logs (t t' : Books) : Prop where
  indexes : ∀ q, t.indexes q ≠ none → t'.indexes q ≠ none
  log : ∃ new, t'.freed = new ++ t.freed ∧ ∀ x ∈ new, ∀ q, t.indexes q ≠ none → x.2 q ≠ none

theorem Logs.of_same {t t' : Books} (hfreed : t'.freed = t.freed)
    (hindex : ∀ q, t.indexes q ≠ none → t'.indexes q ≠ none) : Logs t t' :=
  ⟨hindex, [], hfreed, fun _ hx => nomatch hx⟩

theorem Logs.mem_freed {t t' : Books} (h : Logs t t') {f : Nat}
    (hf : f ∈ t.freed.map Prod.fst) : f ∈ t'.freed.map Prod.fst := by
  obtain ⟨new, hfreed, -⟩ := h.log
  rw [hfreed, List.map_append]
  exact List.mem_append_right _ hf

theorem update_ne_none {indexes : Indexes} {q : Nat} (pgindex : Nat) (M : PageMap)
    (h : indexes q ≠ none) : Function.update indexes pgindex (some M) q ≠ none := by
  by_cases hq : q = pgindex
  · rw [hq, Function.update_self]
    exact Option.some_ne_none M
  · rw [Function.update_of_ne hq]
    exact h

theorem books_logs : PageAlong Logs Books.ops where
  allocPages pages := by
    intro t a t' h
    change Books.allocPages pages t = _ at h
    unfold Books.allocPages at h
    split at h
    · cases h
      exact .of_same rfl fun _ hq => hq
    · split at h
      · cases h
        exact .of_same rfl fun _ hq => hq
      · cases h
  freePages pages := by
    intro t a t' h
    change Books.freePages pages t = _ at h
    unfold Books.freePages at h
    dsimp only at h
    split at h
    · cases h
      refine ⟨fun _ hq => hq, _, rfl, fun x hx q hq => ?_⟩
      obtain ⟨f, -, rfl⟩ := List.mem_map.mp hx
      exact hq
    · cases h
  mapPages pgindex vaddr paddr size flags := by
    intro t a t' h
    change Books.mapPages pgindex vaddr paddr size flags t = _ at h
    unfold Books.mapPages at h
    split at h
    · split at h
      · dsimp only at h
        split at h
        · cases h
          exact .of_same rfl fun _ hq => update_ne_none _ _ hq
        · split at h
          · cases h
            exact .of_same rfl fun _ hq => update_ne_none _ _ hq
          · cases h
            exact .of_same rfl fun _ hq => hq
      · cases h
    · cases h
  unmapPages pgindex vaddr size := by
    intro t a t' h
    change Books.unmapPages pgindex vaddr size t = _ at h
    unfold Books.unmapPages at h
    split at h
    · split at h
      · split at h
        · dsimp only at h
          split at h
          · cases h
            refine ⟨fun _ hq => update_ne_none _ _ hq, [_], rfl, fun x hx q hq => ?_⟩
            rw [List.mem_singleton.mp hx]
            exact update_ne_none _ _ hq
          · cases h
            exact .of_same rfl fun _ hq => update_ne_none _ _ hq
        · cases h
      · cases h
    · cases h
  setPagesPerm pgindex addr len flags := by
    intro t a t' h
    change Books.setPagesPerm pgindex addr len flags t = _ at h
    unfold Books.setPagesPerm at h
    split at h
    · split at h
      · split at h
        · cases h
          exact .of_same rfl fun _ hq => update_ne_none _ _ hq
        · cases h
      · cases h
    · cases h

/-- The page index `q` stays in use, and what is freed is logged while it is. -/
def Watched (q : Nat) (t t' : Books) : Prop :=
  t.indexes q ≠ none → t'.indexes q ≠ none ∧
    ∃ new, t'.freed = new ++ t.freed ∧ ∀ x ∈ new, x.2 q ≠ none

instance (q : Nat) : IsPreorder Books (Watched q) where
  refl t h := ⟨h, [], rfl, fun _ hx => nomatch hx⟩
  trans t t' t'' h h' hq := by
    obtain ⟨hq', new, hfreed, hnew⟩ := h hq
    obtain ⟨hq'', new', hfreed', hnew'⟩ := h' hq'
    refine ⟨hq'', new' ++ new, ?_, fun x hx => ?_⟩
    · rw [hfreed', hfreed, List.append_assoc]
    · rcases List.mem_append.mp hx with hx | hx
      · exact hnew' x hx
      · exact hnew x hx

theorem Logs.watched {t t' : Books} (h : Logs t t') (q : Nat) : Watched q t t' := by
  intro hq
  obtain ⟨new, hfreed, hnew⟩ := h.log
  exact ⟨h.indexes q hq, new, hfreed, fun x hx => hnew x hx q hq⟩

theorem books_watched (q : Nat) : PageAlong (Watched q) Books.ops :=
  books_logs.mono fun _ _ h => h.watched q

/-! ### Copying and filling -/

/-- The bytes are in no page table and in no free frame that was filled with junk. -/
def Vm.Harmless (s : Vm Phys) (kva n : Nat) : Prop :=
  kva + n < 2 ^ 32 ∧ ∀ f, IsFrame f → pa2kva f < kva + n → kva < pa2kva f + pageSize →
    (∀ b mm, s.desk.mms b = some mm →
      f ≠ kva2pa mm.pgindex ∧ ∀ i, leafAt s.pages.mem mm.pgindex i ≠ some f) ∧
    (f ∈ s.pages.freed.map Prod.fst → f ∈ s.pages.frames)

/-- What the caller of a copy or fill has to see to: the pages of the range do not wrap, the
list sentinel is not mistaken for a VMA, and the kernel's buffer is its own. -/
structure Access.Valid (acc : Access) (sent : Sentinel) (uvaddr vaddr len : Nat) (s : Vm Phys) :
    Prop where
  range : uvaddr + len + pageSize ≤ 2 ^ 32
  sentinel : sent.Misses (ptrAlignBelow uvaddr)
    (ptrAlignAbove (uvaddr + len) - ptrAlignBelow uvaddr)
  buffer : acc = .fromUser → s.Harmless vaddr len

section Accesses

variable {base baseObjs : List Nat} {s s' : Vm Phys} {t : Vm Books} {a : Nat} {mm : Mm}
  {M : PageMap} {acc : Access} {sent : Sentinel} {uvaddr vaddr len : Nat}

/-- A frame that a copy or fill must not change. -/
def Books.Protected (t : Books) (f : Nat) : Prop :=
  IsFrame f ∧ f ∉ t.plain ∧ (f ∈ t.frames ∨ f ∈ t.freed.map Prod.fst)

variable {f len next start u uvaddr v vaddr x : Nat}

theorem Vm.Harmless.apart (h : s.Harmless vaddr len) (hrel : Vm.Rel Represents s t)
    (hgood : Good base baseObjs t.desk.mms t) (hf : t.pages.Protected f) :
    vaddr + len ≤ pa2kva f ∨ pa2kva f + pageSize ≤ vaddr := by
  by_contra hc
  obtain ⟨hlo, hhi⟩ := not_or.mp hc
  obtain ⟨hframe, hplain, hheld⟩ := hf
  obtain ⟨htable, hfree⟩ := h.2 f hframe (Nat.lt_of_not_le hlo) (Nat.lt_of_not_le hhi)
  have hmem : f ∈ t.pages.frames := by
    rcases hheld with hheld | hheld
    · exact hheld
    · have hfst : s.pages.freed.map Prod.fst = t.pages.freed.map Prod.fst := by
        rw [← List.forall₂_eq_eq_eq, List.forall₂_map_left_iff, List.forall₂_map_right_iff]
        exact hrel.1.freed.imp fun _ _ hx => hx.1
      rw [← hrel.1.frames]
      exact hfree (hfst ▸ hheld)
  -- a frame that is handed out and not plain is a table of some address space
  obtain ⟨⟨q, slot⟩, hrole⟩ := (hrel.1.owned.mem_iff.mp hmem).resolve_left hplain
  cases hN : t.pages.indexes q with
  | none => cases slot <;> simp [tableRole, hN] at hrole
  | some N =>
    obtain ⟨b, mm, hmm, rfl⟩ := hgood.inv.spaces.index hN
    obtain ⟨hdir, hleaf⟩ := htable b mm (hrel.2 ▸ hmm)
    cases slot with
    | none =>
      rw [tableRole_dir hN] at hrole
      exact hdir (Option.some.inj hrole).symm
    | some i =>
      rw [tableRole_leaf hN, ← (hrel.1.index hN).leaf] at hrole
      exact hleaf i hrole

/-- One piece: what is written is a mapped page, or the buffer of the kernel. -/
theorem Access.move_protected (hrel : Vm.Rel Represents s t)
    (hgood : Good base baseObjs t.desk.mms t) (hmm : t.desk.mms a = some mm)
    (hM : t.pages.indexes mm.pgindex = some M) (hbuf : acc = .fromUser → s.Harmless vaddr len)
    {m : Mem} {l : Nat} (hu : M.pte (ptrAlignBelow u) ≠ 0) (hl : u % pageSize + l ≤ pageSize)
    (hin : acc = .fromUser → vaddr ≤ v ∧ v + l ≤ vaddr + len) (hf : t.pages.Protected f)
    : Untouched m (acc.move m (M.kva u) v l) f := by
  obtain ⟨x, -, -, hpaddr, hshape, hplain⟩ := hgood.backed hmm hM hu
  have hkva : M.kva u = pa2kva x.pages.paddr + u % pageSize := by
    rw [PageMap.kva, hpaddr, pa2kva_or hshape.frame (Nat.mod_lt _ (by decide))]
  by_cases hacc : acc = .fromUser
  · have hapart := (hbuf hacc).apart hrel hgood hf
    obtain ⟨hlo, hhi⟩ := hin hacc
    rw [hacc]
    exact (Mem.SameOn.refl m _ _).copy (by omega)
  · have hwrites : acc.writes = true := by
      cases acc with
      | fill c => rfl
      | fromUser => exact absurd rfl hacc
      | toUser => rfl
    rw [hkva]
    exact Access.move_confined (W := (· ∈ t.pages.plain)) hwrites hshape.frame hplain hl f hf.1 hf.2.1

theorem u32_sub {y : Nat} (hle : y ≤ x) (hx : x < 2 ^ 32) : u32 (x + (2 ^ 32 - y)) = x - y := by
  unfold u32
  omega

theorem lt_of_room (h : x + pageSize ≤ 2 ^ 32) : x < 2 ^ 32 :=
  Nat.lt_of_lt_of_le (Nat.lt_add_of_pos_right (by decide)) h

/-- Rounding up, below the last page of the address space. -/
theorem ptrAlignAbove_eq (hx : 0 < x) (hlt : x + pageSize ≤ 2 ^ 32) :
    ptrAlignAbove x = ptrAlignBelow (x - 1) + pageSize := by
  have hpred : u32 (x + (2 ^ 32 - 1)) = x - 1 := by
    unfold u32
    omega
  have := Nat.div_mul_le_self (x - 1) pageSize
  rw [ptrAlignAbove, hpred, u32, Nat.mod_eq_of_lt]
  unfold ptrAlignBelow
  omega

/-- The length of the pages that a range touches. -/
theorem hull_eq (hrange : uvaddr + len + pageSize ≤ 2 ^ 32) :
    u32 (ptrAlignAbove (uvaddr + len) + (2 ^ 32 - ptrAlignBelow uvaddr)) =
      ptrAlignAbove (uvaddr + len) - ptrAlignBelow uvaddr := by
  refine u32_sub ?_ (Nat.mod_lt _ (by decide))
  by_cases hzero : uvaddr + len = 0
  · rw [show uvaddr = 0 by omega]
    exact Nat.zero_le _
  · rw [ptrAlignAbove_eq (Nat.pos_of_ne_zero hzero) hrange]
    unfold ptrAlignBelow pageSize
    omega

/-- Every byte of the range lies in a page that has a VMA. -/
def Mm.Backs (mm : Mm) (uvaddr len : Nat) : Prop :=
  ∀ i < len, ∃ x ∈ mm.vmas, x.start = ptrAlignBelow (uvaddr + i)

/-- Whether the range is covered is a matter of the pages that it touches. -/
theorem backs_iff (hpos : 0 < len) (hrange : uvaddr + len + pageSize ≤ 2 ^ 32) :
    mm.Backs uvaddr len ↔ Backed mm.vmas (ptrAlignBelow uvaddr)
      (ptrAlignAbove (uvaddr + len) - ptrAlignBelow uvaddr) := by
  have hend := ptrAlignAbove_eq (Nat.add_pos_right uvaddr hpos) hrange
  have hlast : ptrAlignBelow uvaddr + (ptrAlignAbove (uvaddr + len) - ptrAlignBelow uvaddr) =
      ptrAlignBelow (uvaddr + len - 1) + pageSize := by
    rw [hend]
    unfold ptrAlignBelow pageSize
    omega
  unfold Backed
  rw [hlast]
  constructor
  · intro hcov v hv hlo hhi
    -- the first byte of the range that lies in the page
    have hi : v - uvaddr < len := by
      clear hend hlast hrange
      unfold ptrAlignBelow pageSize at *
      omega
    have hpage : ptrAlignBelow (uvaddr + (v - uvaddr)) = v := by
      clear hend hlast hrange hi
      unfold ptrAlignBelow pageSize at *
      omega
    exact hpage ▸ hcov (v - uvaddr) hi
  · intro hbacked i hi
    apply hbacked
    · exact Nat.mul_mod_left _ _
    · exact Nat.mul_le_mul_right _ (Nat.div_le_div_right (Nat.le_add_right _ _))
    · refine Nat.lt_of_le_of_lt ?_ (Nat.lt_add_of_pos_right (by decide))
      exact Nat.mul_le_mul_right _ (Nat.div_le_div_right (by omega))

/-- **The search** finds the range if every page that it touches has a VMA. -/
theorem Mm.OK.search (hok : Mm.OK M mm.vmas) (sent : Sentinel) (hpos : 0 < len)
    (hrange : uvaddr + len + pageSize ≤ 2 ^ 32)
    (hsent : sent.Misses (ptrAlignBelow uvaddr)
      (ptrAlignAbove (uvaddr + len) - ptrAlignBelow uvaddr)) :
    ∃ found, findContinuousVma sent mm.vmas (ptrAlignBelow uvaddr)
        (ptrAlignAbove (uvaddr + len) - ptrAlignBelow uvaddr) = .ok found ∧
      (found ≠ none ↔ mm.Backs uvaddr len) := by
  have hround : ptrAlignBelow uvaddr % pageSize = 0 ∧
      ptrAlignAbove (uvaddr + len) % pageSize = 0 ∧ ptrAlignAbove (uvaddr + len) < 2 ^ 32 ∧
      ptrAlignBelow uvaddr < ptrAlignAbove (uvaddr + len) := by
    rw [ptrAlignAbove_eq (Nat.add_pos_right uvaddr hpos) hrange]
    clear hsent
    unfold ptrAlignBelow pageSize at *
    omega
  rw [backs_iff hpos hrange]
  generalize ptrAlignBelow uvaddr = lo, ptrAlignAbove (uvaddr + len) = hi at hround hsent ⊢
  obtain ⟨halo, hahi, hlt, hle⟩ := hround
  have hlen : (hi - lo) % pageSize = 0 := Nat.sub_mod_eq_zero_of_mod_eq (hahi.trans halo.symm)
  have hpos : 0 < hi - lo := Nat.sub_pos_of_lt hle
  obtain ⟨found, hfound, hiff⟩ := findContinuousVma_found sent hok halo hlen hpos
    (by rw [Nat.add_sub_cancel' (Nat.le_of_lt hle)]; exact hlt)
  refine ⟨found, hfound, ?_⟩
  rw [backed_iff hok halo hlen hpos, Option.ne_none_iff_exists']
  constructor
  · rintro ⟨k, hk⟩
    rcases (hiff k).mp hk with ⟨l, xs, r, hvmas, -, hcount⟩ | ⟨l, xs, -, -, -, -, hcount, hmatch⟩
    · exact ⟨l, xs, r, hvmas, hcount⟩
    · refine absurd hmatch (hsent xs.length ?_)
      rw [← hcount, Nat.succ_mul]
      exact Nat.lt_add_of_pos_right (by decide)
  · rintro ⟨l, xs, r, hvmas, hcount⟩
    exact ⟨l.length, (hiff _).mpr (.inl ⟨l, xs, r, hvmas, rfl, hcount⟩)⟩

/-- The pages of the range are mapped if the search finds it. -/
theorem Mm.OK.mapped_range (hok : Mm.OK M mm.vmas) (hrange : uvaddr + len + pageSize ≤ 2 ^ 32)
    (hsent : sent.Misses (ptrAlignBelow uvaddr)
      (ptrAlignAbove (uvaddr + len) - ptrAlignBelow uvaddr)) {k : Nat}
    (hfind : findContinuousVma sent mm.vmas (ptrAlignBelow uvaddr)
      (ptrAlignAbove (uvaddr + len) - ptrAlignBelow uvaddr) = .ok (some k)) (hlo : uvaddr ≤ u)
    (hhi : u < uvaddr + len) : M.pte (ptrAlignBelow u) ≠ 0 := by
  obtain ⟨found, hfound, hiff⟩ := hok.search sent (by omega) hrange hsent
  obtain rfl : some k = found := Except.ok.inj (hfind.symm.trans hfound)
  obtain ⟨x, hx, hstart⟩ := hiff.mp (Option.some_ne_none k) (u - uvaddr) (by omega)
  rw [Nat.add_sub_cancel' hlo] at hstart
  exact hstart ▸ (hok.mapped x hx).1

theorem ptrAlignNext_eq (hlt : start + 1 + pageSize ≤ 2 ^ 32) :
    ptrAlignNext start = ptrAlignBelow start + pageSize ∧
      start < ptrAlignBelow start + pageSize := by
  constructor
  · rw [ptrAlignNext, u32, Nat.mod_eq_of_lt (by unfold pageSize at hlt; omega),
      ptrAlignAbove_eq (Nat.succ_pos _) hlt]
    rfl
  · unfold ptrAlignBelow pageSize
    omega

/-- The pieces of a range that does not wrap. -/
theorem pieceLen_eq {stop : Nat} (hlt : start < stop) (hstop : stop + pageSize ≤ 2 ^ 32) :
    start < ptrAlignNext start ∧ pieceLen start stop = min (ptrAlignNext start) stop - start := by
  obtain ⟨hnext, hup⟩ := @ptrAlignNext_eq start (by omega)
  have hlt' : min (ptrAlignBelow start + pageSize) stop < 2 ^ 32 := by
    unfold pageSize at hstop
    omega
  rw [hnext, pieceLen, hnext]
  exact ⟨hup, u32_sub (by omega) hlt'⟩

/-- The piece of the buffer that goes with a piece of the range. -/
theorem piece_inside (hlo : uvaddr ≤ u) (hin : u < uvaddr + len) (hv : v = vaddr + (u - uvaddr)) :
    vaddr ≤ v ∧ v + (min next (uvaddr + len) - u) ≤ vaddr + len := by
  omega

theorem piece_next (hlo : uvaddr ≤ u) (hup : u < next) (hmore : next < uvaddr + len)
    (hv : v = vaddr + (u - uvaddr)) (hbound : vaddr + len < 2 ^ 32) :
    u32 (v + (min next (uvaddr + len) - u)) = vaddr + (next - uvaddr) := by
  rw [u32, Nat.mod_eq_of_lt (by omega)]
  omega

/-- Memory in which no frame has been touched that the books protect. -/
def Books.Spares (t : Books) (m m' : Mem) : Prop := ∀ f, t.Protected f → Untouched m m' f

/-- **A copy or fill** does nothing that the books would show. -/
theorem Vm.Rel.access {retcode : Int} (hrel : Vm.Rel Represents s t)
    (hgood : Good base baseObjs t.desk.mms t) (hmm : s.desk.mms a = some mm)
    (hv : acc.Valid sent uvaddr vaddr len s)
    (hrun : copyFillUvm sent a uvaddr vaddr acc len s = .ok (retcode, s')) :
    Vm.Rel Represents s' t := by
  have hmm' : t.desk.mms a = some mm := hrel.2 ▸ hmm
  obtain ⟨M, hM, hok⟩ := hgood.inv.spaces.space hmm'
  obtain ⟨hdesk, found, hfind, hcases⟩ := run_copyFillUvm_cases hmm hrun
  have hrange := hv.range
  have hlt := lt_of_room hrange
  have hstop : u32 (uvaddr + len) = uvaddr + len := Nat.mod_eq_of_lt hlt
  -- the memory as it is during the call
  have hrep : ∀ m, t.pages.Spares s.pages.mem m → Represents { s.pages with mem := m } t.pages := by
    intro m hI
    exact hrel.1.rewrite fun f hf hplain hheld => hI f ⟨hf, hplain, hheld⟩
  have hshow : ∀ m, t.pages.Spares s.pages.mem m → Shows m mm.pgindex M :=
    fun m hI => (hrep m hI).index hM
  have hdone : ∀ p, t.pages.Spares s.pages.mem p.mem ∧ p = { s.pages with mem := p.mem } →
      Represents p t.pages := by
    rintro p ⟨hI, hp⟩
    rw [hp]
    exact hrep _ hI
  refine ⟨?_, hdesk.trans hrel.2⟩
  rcases hcases with ⟨-, -, rfl⟩ | ⟨-, -, -, hloop⟩ | ⟨hsome, -, hloop⟩
  · exact hrel.1
  · refine hdone _ (run_userLoop_inv (I := t.pages.Spares s.pages.mem)
      (J := fun n _ v => acc = .fromUser → vaddr ≤ v ∧ v + n ≤ vaddr + len) hshow ?_ ?_ (by omega)
      (fun f _ => .refl _ f) (fun _ => ⟨Nat.le_refl _, Nat.le_refl _⟩) hloop)
    · intro m n u v hI hJ _ hmapped f hf
      refine (hI f hf).trans (Access.move_protected hrel hgood hmm' hM hv.buffer hmapped ?_ ?_ hf)
      · have := Nat.mod_lt u (show pageSize > 0 by decide)
        omega
      · intro hacc
        have := hJ hacc
        omega
    · intro n u v l hl hJ hacc
      have hbound := (hv.buffer hacc).1
      have := hJ hacc
      rw [u32, Nat.mod_eq_of_lt (by omega)]
      omega
  · obtain ⟨k, rfl⟩ := Option.ne_none_iff_exists'.mp hsome
    rw [hstop] at hfind hloop
    rw [hull_eq hrange] at hfind
    refine hdone _ (run_copyFillLoop_inv (I := t.pages.Spares s.pages.mem)
      (J := fun u v => uvaddr ≤ u ∧
        (acc = .fromUser → u < uvaddr + len → v = vaddr + (u - uvaddr))) hlt hshow ?_ ?_
      (fun f _ => .refl _ f) ⟨Nat.le_refl _, fun _ _ => by omega⟩ hloop)
    · intro m u v hI hJ hin f hf
      have hmapped := hok.mapped_range hrange hv.sentinel hfind hJ.1 hin
      obtain ⟨-, hpiece⟩ := pieceLen_eq hin hrange
      refine (hI f hf).trans (Access.move_protected hrel hgood hmm' hM hv.buffer hmapped
        (pieceLen_le hin hlt) (fun hacc => ?_) hf)
      rw [hpiece]
      exact piece_inside hJ.1 hin (hJ.2 hacc hin)
    · intro u v hJ hin
      obtain ⟨hnext, hpiece⟩ := pieceLen_eq hin hrange
      refine ⟨Nat.le_trans hJ.1 (Nat.le_of_lt hnext), fun hacc hmore => ?_⟩
      rw [hpiece]
      exact piece_next hJ.1 hnext hmore (hJ.2 hacc hin) (hv.buffer hacc).1

end Accesses

/-! ### The life of an address space -/

/-- The call is made on the address space `a` and leaves it in existence. -/
def UvmCall.On (a : Nat) : UvmCall → Prop
  | .createUvm _ b _ _ _ => b = a
  | .destroyUvm _ b _ _ => b = a
  | .setUvmPerm _ b _ _ _ => b = a
  | _ => False

/-- The states that calls on the address space `a` lead to, with the real `map_pages` or the
one that fails without a change. -/
inductive Work (a : Nat) (s : Vm Phys) : Vm Phys → Prop
  | start : Work a s s
  | call {s₁ s₂ : Vm Phys} {c : UvmCall} {result : Int} : Work a s s₁ → c.On a →
      c.Valid s₁.desk → c.run cleanOps s₁ = .ok (result, s₂) ∨ c.run physOps s₁ = .ok (result, s₂) →
      Work a s s₂
  | access {s₁ s₂ : Vm Phys} {acc : Access} {sent : Sentinel} {uvaddr vaddr len : Nat}
      {result : Int} : Work a s s₁ → acc.Valid sent uvaddr vaddr len s₁ →
      copyFillUvm sent a uvaddr vaddr acc len s₁ = .ok (result, s₂) → Work a s s₂

section Life

variable {base baseObjs : List Nat} {t t' t'' : Vm Books} {a pgindex : Nat} {mm : Mm}

/-- What the calls on one address space leave alone, and what they log. -/
structure Since (a pgindex : Nat) (t t' : Vm Books) : Prop where
  space : ∃ vmas, t'.desk.mms = Function.update t.desk.mms a (some ⟨pgindex, vmas⟩)
  others : ∀ q, q ≠ pgindex → t'.pages.indexes q = t.pages.indexes q
  fixed : t'.desk.fixed = t.desk.fixed
  watched : Watched pgindex t.pages t'.pages

variable {c : UvmCall} {s s' : Vm Phys} {new : List (Nat × Indexes)} {x : Nat × Mem}

theorem Since.refl (hmm : t.desk.mms a = some mm) : Since a mm.pgindex t t where
  space := ⟨mm.vmas, by rw [← hmm, Function.update_eq_self]⟩
  others _ _ := rfl
  fixed := rfl
  watched := refl_of (Watched mm.pgindex) t.pages

theorem Since.trans (h : Since a pgindex t t') (h' : Since a pgindex t' t'') :
    Since a pgindex t t'' where
  space := by
    obtain ⟨vmas, hmms⟩ := h.space
    obtain ⟨vmas', hmms'⟩ := h'.space
    exact ⟨vmas', by rw [hmms', hmms, Function.update_idem]⟩
  others q hq := (h'.others q hq).trans (h.others q hq)
  fixed := h'.fixed.trans h.fixed
  watched := trans_of (Watched pgindex) h.watched h'.watched

theorem Since.at (h : Since a pgindex t t') : ∃ vmas, t'.desk.mms a = some ⟨pgindex, vmas⟩ := by
  obtain ⟨vmas, hmms⟩ := h.space
  exact ⟨vmas, by rw [hmms, Function.update_self]⟩

/-- What the calls do to the address spaces, as far as others can tell. -/
def Local (a : Nat) (mm : Mm) (t t' : Vm Books) : Prop :=
  (∃ vmas, t'.desk.mms = setVmas t.desk.mms a mm vmas) ∧
    ∀ q, q ≠ mm.pgindex → t'.pages.indexes q = t.pages.indexes q

theorem Local.of_same (hmm : t.desk.mms a = some mm) (hmms : t'.desk.mms = t.desk.mms)
    (hindexes : t'.pages.indexes = t.pages.indexes) : Local a mm t t' :=
  ⟨⟨mm.vmas, by rw [hmms, setVmas_self hmm rfl]⟩, fun q _ => congrFun hindexes q⟩

theorem Local.of_update {vmas : List Vma} {N : PageMap}
    (hmms : t'.desk.mms = setVmas t.desk.mms a mm vmas)
    (hindexes : t'.pages.indexes = Function.update t.pages.indexes mm.pgindex (some N)) :
    Local a mm t t' :=
  ⟨⟨vmas, hmms⟩, fun q hq => by rw [hindexes, Function.update_of_ne hq]⟩

theorem UvmCall.keeps_local (h : Good base baseObjs t.desk.mms t) (hon : c.On a)
    (hv : c.Valid t.desk) (hmm : t.desk.mms a = some mm) :
    wp (c.run Books.ops) (fun _ t' => Local a mm t t') t := by
  cases c with
  | mmNew => exact hon.elim
  | mmDestroy b => exact hon.elim
  | mmClone dst src => exact hon.elim
  | createUvm sent b addr len flags =>
    obtain rfl : b = a := hon
    refine wp_mono (wp_createUvm_cases h hv.1 hv.2) ?_
    rintro retcode t' ⟨-, ⟨hmms, hindexes⟩ | ⟨mm', M, N, l, r, xs, hmm', -, hgained⟩⟩
    · exact .of_same hmm hmms hindexes
    · obtain rfl := Option.some.inj (hmm.symm.trans hmm')
      exact .of_update hgained.mms hgained.extra.after
  | destroyUvm sent b addr len =>
    obtain rfl : b = a := hon
    refine wp_mono (wp_destroyUvm_cases h hv.1 hv.2.1 hv.2.2) ?_
    rintro retcode t' (⟨-, rfl⟩ | ⟨-, mm', M, N, l, xs, r, hmm', -, hgone, hextra⟩)
    · exact .of_same hmm rfl rfl
    · obtain rfl := Option.some.inj (hmm.symm.trans hmm')
      refine ⟨⟨_, hgone.mms⟩, fun q hq => ?_⟩
      rw [hextra.after, Function.update_of_ne hq]
  | setUvmPerm sent b addr len flags =>
    obtain rfl : b = a := hon
    refine wp_mono (wp_setUvmPerm_exact h hv.1 hv.2.1 hv.2.2) ?_
    rintro retcode t' (⟨-, rfl⟩ | ⟨-, mm', M, M', l, xs, r, hmm', -, -, -, -, hset, -, hindexes⟩)
    · exact .of_same hmm rfl rfl
    · obtain rfl := Option.some.inj (hmm.symm.trans hmm')
      exact .of_update hset.mms hindexes

theorem UvmCall.watched (hon : c.On a) (q : Nat) :
    Along (OnPages (Watched q)) (c.run Books.ops) := by
  cases c with
  | mmNew => exact hon.elim
  | mmDestroy b => exact hon.elim
  | mmClone dst src => exact hon.elim
  | createUvm sent b addr len flags => exact (books_watched q).plain.createUvm _ _ _ _ _
  | destroyUvm sent b addr len => exact (books_watched q).plain.destroyUvm _ _ _ _
  | setUvmPerm sent b addr len flags => exact (books_watched q).setUvmPerm _ _ _ _ _

/-- **One call.** -/
theorem UvmCall.since (h : Good base baseObjs t.desk.mms t) (hon : c.On a) (hv : c.Valid t.desk)
    (hmm : t.desk.mms a = some mm) :
    wp (c.run Books.ops) (fun _ t' => Good base baseObjs t'.desk.mms t' ∧
      Since a mm.pgindex t t') t := by
  refine wp_with_run (wp_and (c.keeps h hv) (c.keeps_local h hon hv hmm)) ?_
  rintro result t' hrun ⟨⟨hgood, hfixed⟩, ⟨vmas, hmms⟩, hothers⟩
  exact ⟨hgood, ⟨vmas, hmms⟩, hothers, hfixed, c.watched hon mm.pgindex t result t' hrun⟩

/-- **All the calls.** -/
theorem Work.since (h : Work a s s') (hrel : Vm.Rel Represents s t)
    (hgood : Good base baseObjs t.desk.mms t) (hmm : s.desk.mms a = some mm) :
    ∃ t', Vm.Rel Represents s' t' ∧ Good base baseObjs t'.desk.mms t' ∧
      Since a mm.pgindex t t' := by
  induction h with
  | start => exact ⟨t, hrel, hgood, .refl (hrel.2 ▸ hmm)⟩
  | @call s1 s2 c result _ hon hv hrun ih =>
    obtain ⟨t1, hrel1, hgood1, hsince⟩ := ih
    have hrun : c.run cleanOps s1 = .ok (result, s2) :=
      hrun.elim id (c.run_clean ⟨t1, hrel1, hgood1⟩ hv)
    obtain ⟨vmas, hmm1⟩ := hsince.at
    rw [hrel1.2] at hv
    obtain ⟨t2, hrel2, hgood2, hstep⟩ :=
      wp_run ((c.sim hv).wp hrel1 (c.since hgood1 hon hv hmm1)) hrun
    exact ⟨t2, hrel2, hgood2, hsince.trans hstep⟩
  | access _ hv hrun ih =>
    obtain ⟨t1, hrel1, hgood1, hsince⟩ := ih
    obtain ⟨vmas, hmm1⟩ := hsince.at
    exact ⟨t1, hrel1.access hgood1 (hrel1.2 ▸ hmm1) hv hrun, hgood1, hsince⟩

/-- The log of `mm_destroy`: the page index is the last to go. -/
theorem run_mmDestroy_log (hmm : t.desk.mms a = some mm)
    (hq : t.pages.indexes mm.pgindex ≠ none) (hrun : mmDestroy Books.ops a t = .ok ((), t')) :
    ∃ new, t'.pages.freed = new ++ t.pages.freed ∧ ∀ x ∈ new, x.2 mm.pgindex ≠ none := by
  obtain ⟨desk, t0, hget, h0⟩ := run_bind.mp hrun
  cases hget
  split at h0
  · obtain ⟨-, rfl⟩ := run_pure.mp h0
    exact ⟨[], rfl, fun _ hx => nomatch hx⟩
  obtain ⟨mm', t1, hget, h1⟩ := run_bind.mp h0
  obtain ⟨rfl, hmm'⟩ := run_getMm hget
  obtain rfl := Option.some.inj (hmm.symm.trans hmm')
  obtain ⟨_, t2, hloop, h2⟩ := run_bind.mp h1
  have hwatched := Along.forM mm.vmas ((books_watched mm.pgindex).plain.destroyVma mm.pgindex) _ _ _ hloop
  obtain ⟨hq2, new, hfreed, hnew⟩ := hwatched hq
  obtain ⟨_, t3, hdrop, h3⟩ := run_bind.mp h2
  obtain ⟨_, t4, hset, h4⟩ := run_bind.mp h3
  have hlog : t3.pages.freed = (kva2pa mm.pgindex, t2.pages.indexes) :: t2.pages.freed := by
    have hdrop := (run_onPages hdrop).1
    change Books.destroyPgindex mm.pgindex t2.pages = _ at hdrop
    unfold Books.destroyPgindex at hdrop
    split at hdrop
    · split at hdrop
      · exact congrArg (fun r => Books.freed r.2) (Except.ok.inj hdrop).symm
      · cases hdrop
    · cases hdrop
  refine ⟨(kva2pa mm.pgindex, t2.pages.indexes) :: new, ?_, fun x hx => ?_⟩
  · rw [run_onDesk h4, run_onDesk hset, hlog, hfreed]
    rfl
  · rcases List.mem_cons.mp hx with rfl | hx
    · exact hq2
    · exact hnew x hx

/-- The address spaces and the page indexes tell which frames are handed out. -/
theorem Good.frames_perm (h : Good base baseObjs t.desk.mms t)
    (h' : Good base baseObjs t'.desk.mms t') (hmms : t'.desk.mms = t.desk.mms)
    (hindexes : t'.pages.indexes = t.pages.indexes) :
    t'.pages.frames.Perm t.pages.frames := by
  obtain ⟨p, hp⟩ := h.real
  obtain ⟨p', hp'⟩ := h'.real
  refine (List.perm_ext_iff_of_nodup hp'.owned.nodup hp.owned.nodup).mpr fun f => ?_
  rw [hp'.owned.mem_iff, hp.owned.mem_iff, h'.inv.user.mem_iff, h.inv.user.mem_iff, hmms, hindexes]

/-- What was logged from `s` to `s'`; the log grows at its head. -/
def freedSince (s s' : Vm Phys) : List (Nat × Mem) :=
  s'.pages.freed.take (s'.pages.freed.length - s.pages.freed.length)

theorem freedSince_books (hrel : Vm.Rel Represents s t) (hrel' : Vm.Rel Represents s' t')
    (hfreed : t'.pages.freed = new ++ t.pages.freed) (hx : x ∈ freedSince s s') :
    ∃ y ∈ new, x.1 = y.1 ∧ ∀ q M, y.2 q = some M → pteAt x.2 q = M.pte := by
  have hlen := hrel.1.freed.length_eq
  have hlen' := hrel'.1.freed.length_eq
  rw [hfreed, List.length_append] at hlen'
  have htake := List.forall₂_take new.length hrel'.1.freed
  rw [hfreed, List.take_left] at htake
  rw [freedSince, show s'.pages.freed.length - s.pages.freed.length = new.length by omega] at hx
  obtain ⟨i, hi, rfl⟩ := List.mem_iff_getElem.mp hx
  have hi' : i < new.length := htake.length_eq ▸ hi
  exact ⟨new[i], List.getElem_mem hi', htake.get hi hi'⟩

/-- Where a call on an address space does not run out of memory, it makes no difference how
`map_pages` fails. -/
theorem UvmCall.run_real {result : Int} (h : Kempt base baseObjs s) (hon : c.On a)
    (hv : c.Valid s.desk) (hrun : c.run cleanOps s = .ok (result, s'))
    (hresult : result ≠ -ENOMEM) :
    c.run physOps s = .ok (result, s') := by
  cases c with
  | mmNew => exact hon.elim
  | mmDestroy b => exact hon.elim
  | mmClone dst src => exact hon.elim
  | destroyUvm sent b addr len => exact (unmapping_sim.destroyUvm sent b addr len).run_same hrun
  | setUvmPerm sent b addr len flags =>
    exact (unmapping_sim.setUvmPerm sent b addr len flags).run_same hrun
  | createUvm sent b addr len flags =>
    change AimKernel.createUvm cleanOps sent b addr len flags s = _ at hrun
    show AimKernel.createUvm physOps sent b addr len flags s = _
    by_cases hargs : len % pageSize ≠ 0 ∨ b = 0 ∨ addr % pageSize ≠ 0
    · rw [AimKernel.createUvm, if_pos hargs] at hrun ⊢
      exact hrun
    obtain ⟨hlen, hb, haddr⟩ := range_args hargs
    by_cases hzero : len = 0
    · rw [AimKernel.createUvm, if_neg hargs, if_pos hzero] at hrun ⊢
      exact hrun
    obtain ⟨mm, hmm⟩ := Option.ne_none_iff_exists'.mp (hv.1 hb)
    have hpos : 0 < len := Nat.pos_of_ne_zero hzero
    cases hfind : findVmaBefore sent mm.vmas addr len with
    | none =>
      rw [createUvm_refused _ hmm hb haddr hlen hpos hfind] at hrun ⊢
      exact hrun
    | some place =>
      -- the loop was entered, and ends with one of two codes
      have hcode : result = 0 := by
        obtain ⟨t, hrel, hgood⟩ := h
        have hbooks : wp (AimKernel.createUvm Books.ops sent b addr len flags) _ t :=
          wp_createUvm_found hgood (hrel.2 ▸ hmm) hb haddr hlen hpos hv.2 hfind
        obtain ⟨t', -, hout⟩ := wp_run ((UvmCall.sim (.createUvm sent b addr len flags) hv).wp hrel
          hbooks) hrun
        exact (hout.1.resolve_right fun hfail => hresult hfail.1).1
      rw [hcode] at hrun ⊢
      exact createUvm_of_clean hrun

/-- What `mm_new` has made of the books: an address space without VMAs, and its page index. -/
structure Made (a pgindex : Nat) (t t₁ : Vm Books) : Prop where
  fresh : a ∉ t.desk.objs
  fixed : t₁.desk.fixed = t.desk.fixed
  mms : t₁.desk.mms = Function.update t.desk.mms a (some ⟨pgindex, []⟩)
  vacant : t.pages.indexes pgindex = none
  indexes : t₁.pages.indexes = Function.update t.pages.indexes pgindex (some .empty)

theorem run_mmNew_made {s1 : Vm Phys} (hrel : Vm.Rel Represents s t)
    (hgood : Good base baseObjs t.desk.mms t) (hnew : mmNew physOps s = .ok (a, s1)) (ha : a ≠ 0) :
    ∃ t1 pgindex, Vm.Rel Represents s1 t1 ∧ Good base baseObjs t1.desk.mms t1 ∧
      Made a pgindex t t1 := by
  have hclean : mmNew cleanOps s = .ok (a, s1) := clean_sim.mmNew.run_same hnew
  have hmade := wp_mmNew (Q := fun x t1 => x ≠ 0 → Good base baseObjs t1.desk.mms t1 ∧
    ∃ pgindex, Made x pgindex t t1) hgood (fun _ _ _ _ _ h0 => absurd rfl h0)
    (fun t1 x pgindex _ hx hgood1 hmms hfixed hvacant hindexes _ =>
      ⟨hgood1, pgindex, hx, hfixed, hmms, hvacant, hindexes⟩)
  obtain ⟨t1, hrel1, hmade⟩ := wp_run (books_sim.mmNew.wp hrel hmade) hclean
  obtain ⟨hgood1, pgindex, hmade⟩ := hmade ha
  exact ⟨t1, pgindex, hrel1, hgood1, hmade⟩

theorem Made.none (h : Made a pgindex t t') (hgood : Good base baseObjs t.desk.mms t) :
    t.desk.mms a = none := by
  by_contra hne
  obtain ⟨mm, hmm⟩ := Option.ne_none_iff_exists'.mp hne
  exact h.fresh (hgood.inv.object.mem_of_role (r := Use.mm a) (by simp [objRole, hmm]))

/-- With the same address spaces, a page index that was not there before is not there now. -/
theorem Good.indexes_eq (h : Good base baseObjs t.desk.mms t)
    (h' : Good base baseObjs t'.desk.mms t') (hmms : t'.desk.mms = t.desk.mms)
    (hvacant : t.pages.indexes pgindex = none)
    (hothers : ∀ q, q ≠ pgindex → t'.pages.indexes q = t.pages.indexes q) :
    t'.pages.indexes = t.pages.indexes := by
  funext q
  by_cases hq : q = pgindex
  · rw [hq, hvacant]
    by_contra hne
    obtain ⟨N, hN⟩ := Option.ne_none_iff_exists'.mp hne
    obtain ⟨b, mm, hmm, hpgindex⟩ := h'.inv.spaces.index hN
    rw [hmms] at hmm
    obtain ⟨K, hK, -⟩ := h.inv.spaces.space hmm
    rw [hpgindex, hvacant] at hK
    cases hK
  · exact hothers q hq

/-- What was freed while the page index was in use was not mapped by it. -/
theorem freedSince_unmapped (hrel : Vm.Rel Represents s t) (hrel' : Vm.Rel Represents s' t')
    (hgood' : Good base baseObjs t'.desk.mms t') (hlog : t'.pages.freed = new ++ t.pages.freed)
    (hlive : ∀ y ∈ new, y.2 pgindex ≠ none) (hx : x ∈ freedSince s s') {v : Nat}
    (hv : pteAt x.2 pgindex v ≠ 0) : ptePaddr (pteAt x.2 pgindex v) ≠ x.1 := by
  obtain ⟨y, hy, hfst, hsnap⟩ := freedSince_books hrel hrel' hlog hx
  obtain ⟨N, hN⟩ := Option.ne_none_iff_exists'.mp (hlive y hy)
  rw [hsnap _ _ hN] at hv ⊢
  rw [hfst]
  exact hgood'.log y (hlog ▸ List.mem_append_left _ hy) _ _ _ hN hv

/-- **No frame leaks.** An address space is made by `mm_new`, calls are made on it, and
`mm_destroy` ends it. Then `mm_destroy` returns, the frames that are handed out are those
that were before `mm_new`, and no frame was freed while the page index mapped it. Until then
every call returns, so nothing is freed twice: with a `map_pages` that fails without a
change, and with the real one if memory does not run out.

`mm_destroy` ignores `kernel_mm`, which is a live object or not set yet. -/
theorem mm_frames_balanced {s s₁ s₂ : Vm Phys} (h : Kempt base baseObjs s)
    (hkernel : s.desk.kernelMm = 0 ∨ s.desk.kernelMm ∈ s.desk.objs)
    (hnew : mmNew physOps s = .ok (a, s₁)) (ha : a ≠ 0) (hwork : Work a s₁ s₂) :
    ∃ pgindex, s₁.desk.mms a = some ⟨pgindex, []⟩ ∧
      (∃ s₃, mmDestroy physOps a s₂ = .ok ((), s₃) ∧ s₃.pages.frames.Perm s.pages.frames ∧
        ∀ x ∈ freedSince s₁ s₃, ∀ v, pteAt x.2 pgindex v ≠ 0 →
          ptePaddr (pteAt x.2 pgindex v) ≠ x.1) ∧
      ∀ c : UvmCall, c.On a → c.Valid s₂.desk → ∃ result s',
        c.run cleanOps s₂ = .ok (result, s') ∧
          (result ≠ -ENOMEM → c.run physOps s₂ = .ok (result, s')) := by
  obtain ⟨t, hrel, hgood⟩ := h
  obtain ⟨t₁, pgindex, hrel₁, hgood₁, hmade⟩ := run_mmNew_made hrel hgood hnew ha
  have hmm₁ : s₁.desk.mms a = some ⟨pgindex, []⟩ := by rw [hrel₁.2, hmade.mms, Function.update_self]
  obtain ⟨t₂, hrel₂, hgood₂, hsince⟩ := hwork.since hrel₁ hgood₁ hmm₁
  obtain ⟨vmas, hmm₂⟩ := hsince.at
  refine ⟨pgindex, hmm₁, ?_, ?_⟩
  · have hkernel₂ : a ≠ t₂.desk.kernelMm := by
      have hfixed : t₂.desk.kernelMm = s.desk.kernelMm := by
        rw [hrel.2]
        exact congrArg Prod.fst (hsince.fixed.trans hmade.fixed)
      rw [hfixed]
      rintro rfl
      rcases hkernel with hzero | hlive
      · exact ha hzero
      · exact hmade.fresh (hrel.2 ▸ hlive)
    obtain ⟨M, hM, -⟩ := hgood₂.inv.spaces.space hmm₂
    have hq : t₂.pages.indexes pgindex ≠ none := by
      rw [hM]
      exact Option.some_ne_none M
    have hend := wp_with_run (wp_mmDestroy hgood₂ hmm₂ ha hkernel₂) fun _ t₃ hrun hpost =>
      And.intro hpost (run_mmDestroy_log hmm₂ hq hrun)
    obtain ⟨_, s₃, hdestroy, t₃, hrel₃, ⟨hgood₃, hmms₃, -, hother₃⟩, new, hfreed, hlive⟩ :=
      wp_iff.mp ((books_sim.mmDestroy a).wp hrel₂ hend)
    refine ⟨s₃, (unmapping_sim.mmDestroy a).run_same hdestroy, ?_, ?_⟩
    · -- the address spaces and the page indexes are those of the start
      obtain ⟨_, hmms₂⟩ := hsince.space
      have hmms : t₃.desk.mms = t.desk.mms := by
        rw [hmms₃, hmms₂, hmade.mms, Function.update_idem, Function.update_idem, ← hmade.none hgood,
          Function.update_eq_self]
      have hindexes := hgood.indexes_eq hgood₃ hmms hmade.vacant fun q hq => by
        rw [hother₃ q hq, hsince.others q hq, hmade.indexes, Function.update_of_ne hq]
      rw [hrel₃.1.frames, hrel.1.frames]
      exact hgood.frames_perm hgood₃ hmms hindexes
    · intro x hx v hv
      obtain ⟨-, new', hfreed', hlive'⟩ := hsince.watched (by
        rw [hmade.indexes, Function.update_self]
        exact Option.some_ne_none _)
      have hlog : t₃.pages.freed = (new ++ new') ++ t₁.pages.freed := by
        rw [hfreed, hfreed', List.append_assoc]
      exact freedSince_unmapped hrel₁ hrel₃ hgood₃ hlog
        (fun y hy => (List.mem_append.mp hy).elim (hlive y) (hlive' y)) hx hv
  · intro c hon hv
    have hkempt₂ : Kempt base baseObjs s₂ := ⟨t₂, hrel₂, hgood₂⟩
    obtain ⟨result, s', hok, -⟩ := wp_iff.mp (hkempt₂.call hv)
    exact ⟨result, s', hok, fun hne => c.run_real hkempt₂ hon hv hok hne⟩

/-- `roomyVm` with an address space of two pages, filled across their boundary. -/
def filledPages : Vm Phys :=
  after (copyFillUvm ⟨0, 0⟩ 0x80300000 0x400ff0 0 (.fill 7) 0x20)
    (after (UvmCall.run physOps (.createUvm ⟨0, 0⟩ 0x80300000 0x400000 0x2000 2))
      (after (mmNew physOps) roomyVm))

/-- The life of an address space of two pages. -/
theorem mm_frames_balanced_two_pages :
    filledPages.pages.mem 0x80201fff = 7 ∧ filledPages.pages.mem 0x80203000 = 7 ∧
    filledPages.pages.frames.length = 4 ∧
    ∃ s', mmDestroy physOps 0x80300000 filledPages = .ok ((), s') ∧ s'.pages.frames = [] := by
  have hnew : mmNew physOps roomyVm = .ok (0x80300000, after (mmNew physOps) roomyVm) :=
    run_after_eq (by decide +kernel)
  have hwork : Work 0x80300000 (after (mmNew physOps) roomyVm) filledPages := by
    refine .access (.call .start (c := .createUvm ⟨0, 0⟩ 0x80300000 0x400000 0x2000 2) rfl ⟨fun _ => ?_,
      by decide⟩ (.inr (run_after_eq (a := 0) (by decide +kernel)))) ?_
      (run_after_eq (a := 0) (by decide +kernel))
    · exact Option.isSome_iff_ne_none.mp (by decide +kernel)
    · refine ⟨by decide, fun j _ => ?_, fun hacc => nomatch hacc⟩
      rw [show ptrAlignBelow 0x400ff0 = 0x400000 by decide]
      show 0 ≠ _
      omega
  obtain ⟨pgindex, -, ⟨s', hdestroy, hperm, -⟩, -⟩ := mm_frames_balanced roomyVm_fresh.kempt
    (.inl rfl) hnew (by decide) hwork
  exact ⟨by decide +kernel, by decide +kernel, by decide +kernel, s', hdestroy, hperm.eq_nil⟩

end Life

end AimKernel
