import AimKernel.Mm.CopyFill
import AimKernel.Mm.UvmCreate

/-!
# AimKernel.Mm.UvmClone

`mm_clone` makes an exact and isolated copy.

The source and the copy are compared by what can be seen of them: the list of VMAs, the page
index in memory, and the bytes that user addresses read through it (`userByte`). A clone
that fails leaves nothing behind. One that succeeds shares no frame with its source, tables
included, so later writes to the user memory of one of the two cannot be seen through the
other.
-/

namespace AimKernel

/-! ### What can be seen of an address space -/

/-- A frame of an address space: it backs a page, or serves as a table. -/
def Mm.Frame (m : Mem) (mm : Mm) (f : Nat) : Prop :=
  (∃ x ∈ mm.vmas, f ∈ block x.pages.paddr x.pages.size) ∨
    (∃ i, leafAt m mm.pgindex i = some f) ∨ f = kva2pa mm.pgindex

/-- What can be seen of the address space `mm` is the same in both states. -/
structure Mm.Same (a : Nat) (mm : Mm) (s s' : Vm Phys) : Prop where
  space : s'.desk.mms a = some mm
  leaf : leafAt s'.pages.mem mm.pgindex = leafAt s.pages.mem mm.pgindex
  pte : pteAt s'.pages.mem mm.pgindex = pteAt s.pages.mem mm.pgindex
  bytes : ∀ v, userByte s'.pages.mem mm.pgindex v = userByte s.pages.mem mm.pgindex v

theorem userByte_none {m : Mem} {pgindex v : Nat} (h : pteAt m pgindex (ptrAlignBelow v) = 0) :
    userByte m pgindex v = none := by
  unfold userByte
  rw [if_pos h]

theorem userByte_mapped {m : Mem} {pgindex v f : Nat}
    (h : pteAt m pgindex (ptrAlignBelow v) ≠ 0)
    (hf : ptePaddr (pteAt m pgindex (ptrAlignBelow v)) = f) (hframe : IsFrame f) :
    userByte m pgindex v = some (m (pa2kva f + v % pageSize)) := by
  unfold userByte
  rw [if_neg h, hf, pa2kva_or hframe (Nat.mod_lt _ (by decide))]

section Kempt

variable {base baseObjs : List Nat} {s : Vm Phys} {a b : Nat} {mm mm' : Mm}

/-- **Different address spaces share no frame.** -/
theorem Kempt.frames_apart (h : Kempt base baseObjs s) (hmm : s.desk.mms a = some mm)
    (hmm' : s.desk.mms b = some mm') (hne : a ≠ b) {f : Nat} (hf : mm.Frame s.pages.mem f) :
    ¬ mm'.Frame s.pages.mem f := by
  obtain ⟨t, hrel, hgood⟩ := h
  rw [hrel.2] at hmm hmm'
  have hq : mm.pgindex ≠ mm'.pgindex := fun heq => hne (hgood.inv.spaces.inj hmm hmm' heq)
  -- a frame of an address space backs one of its pages, or has the role of one of its tables
  have hrole : ∀ {c mm1}, t.desk.mms c = some mm1 → mm1.Frame s.pages.mem f →
      (∃ x ∈ mm1.vmas, f ∈ block x.pages.paddr x.pages.size ∧ f ∈ t.pages.plain) ∨
        ∃ slot, tableRole t.pages.indexes (mm1.pgindex, slot) = some f := by
    intro c mm1 hmm1 hf1
    obtain ⟨M, hM, hok⟩ := hgood.inv.spaces.space hmm1
    rcases hf1 with ⟨x, hx, hf1⟩ | ⟨i, hi⟩ | hdir
    · refine .inl ⟨x, hx, hf1, ?_⟩
      have hintact := hgood.intact hmm1 hM (show mm1.vmas = [] ++ (mm1.vmas ++ []) by simp)
      rw [(hok.vma x hx).psize, block_page, List.mem_singleton] at hf1
      rw [hf1]
      exact hintact.frames.subset (List.mem_map.mpr ⟨x, hx, rfl⟩)
    · rw [(hrel.1.index hM).leaf] at hi
      exact .inr ⟨some i, (tableRole_leaf hM i).trans hi⟩
    · exact .inr ⟨none, hdir ▸ tableRole_dir hM⟩
  intro hf'
  rcases hrole hmm hf with ⟨x, hx, hfx, hplain⟩ | ⟨slot, hslot⟩
  · rcases hrole hmm' hf' with ⟨y, hy, hfy, -⟩ | ⟨slot', hslot'⟩
    · exact hne (hgood.unshared a b mm mm' x y f hmm hmm' hx hy hfx hfy).1
    · exact hrel.1.owned.apart hslot' hplain
  · rcases hrole hmm' hf' with ⟨y, -, -, hplain⟩ | ⟨slot', hslot'⟩
    · exact hrel.1.owned.apart hslot hplain
    · exact hq (congrArg Prod.fst (hrel.1.owned.inj hslot hslot'))

end Kempt

/-! ### The calls in memory -/

section Clone

variable {base baseObjs : List Nat} {s : Vm Phys} {dst src pgindex : Nat} {smm : Mm}

variable {s' : Vm Phys} {x x' : Vm Paired} {mm : Mm} {L : PageMap}

/-- Wherever `mm_clone` returns with the real `map_pages`, it returns the same with the one
that fails without a change. -/
theorem mmClone_clean {retcode : Int} (hsrc : s.desk.mms src = some smm)
    (hvma : ∀ x ∈ smm.vmas, x.OK) (h : mmClone physOps dst src s = .ok (retcode, s')) :
    mmClone cleanOps dst src s = .ok (retcode, s') := by
  obtain ⟨mm, s1, hget, hrest⟩ := run_bind.mp h
  obtain ⟨rfl, hmm⟩ := run_getMm hget
  obtain rfl := Option.some.inj (hsrc.symm.trans hmm)
  have hsim := Sim.bind (clean_sim.cloneLoop dst (fun x hx => ⟨(hvma x hx).page, (hvma x hx).size⟩) 0 0)
    fun result => Sim.ite (c := result.1 < 0)
      (fun _ => .bind (clean_sim.unmapAndFreeVma dst 0 result.2) fun _ => .pure result.1)
      fun _ => .pure 0
  exact run_bind.mpr ⟨smm, s1, hget, hsim.run_same hrest⟩

/-- The same for every call on address spaces that are in order. -/
theorem UvmCall.run_clean {c : UvmCall} {result : Int} (h : Kempt base baseObjs s)
    (hv : c.Valid s.desk) (hrun : c.run physOps s = .ok (result, s')) :
    c.run cleanOps s = .ok (result, s') := by
  cases c with
  | mmNew => exact (Sim.bind clean_sim.mmNew fun _ => .pure _).run_same hrun
  | mmDestroy a => exact (Sim.bind (clean_sim.mmDestroy a) fun _ => .pure _).run_same hrun
  | createUvm sent a addr len flags =>
    have haddr : addr < 2 ^ 32 := Nat.lt_of_le_of_lt (Nat.le_add_right _ _) hv.2
    exact (clean_sim.createUvm (fun _ hpage => ⟨hpage, rfl⟩) sent a haddr len flags).run_same hrun
  | destroyUvm sent a addr len => exact (clean_sim.destroyUvm sent a addr len).run_same hrun
  | setUvmPerm sent a addr len flags =>
    exact (clean_sim.setUvmPerm sent a addr len flags).run_same hrun
  | mmClone dst src =>
    obtain ⟨smm, hsrc⟩ := Option.ne_none_iff_exists'.mp hv.2
    obtain ⟨t, hrel, hgood⟩ := h
    obtain ⟨L, -, hok⟩ := hgood.inv.spaces.space (hrel.2 ▸ hsrc)
    exact mmClone_clean hsrc hok.vma hrun

/-- What `mm_clone` has made of an address space without VMAs when it returns zero. -/
structure Cloned (dst src : Nat) (dmm smm : Mm) (s s' : Vm Phys) : Prop where
  space : s'.desk.mms dst = some dmm
  list : dmm.vmas.map (fun x => (x.start, x.size, x.flags)) =
    smm.vmas.map fun y => (y.start, y.size, y.flags)
  /-- The source is as it was. -/
  source : Mm.Same src smm s s'
  bytes : ∀ v, userByte s'.pages.mem dmm.pgindex v = userByte s.pages.mem smm.pgindex v
  apart : ∀ f, dmm.Frame s'.pages.mem f → ¬ smm.Frame s'.pages.mem f

/-- An address space whose page index is the same and whose frames are kept looks the same. -/
theorem Keeps.same {a : Nat} (h : Keeps x.pages x'.pages)
    (hgood : Good base baseObjs x.books.desk.mms x.books) (hmm : x.desk.mms a = some mm)
    (hmm' : x'.desk.mms a = some mm) (hL : x.pages.books.indexes mm.pgindex = some L)
    (hL' : x'.pages.books.indexes mm.pgindex = some L) : Mm.Same a mm x.phys x'.phys := by
  have hshow := x.pages.rel.index hL
  have hshow' := x'.pages.rel.index hL'
  refine ⟨hmm', hshow'.leaf.trans hshow.leaf.symm, hshow'.pte.trans hshow.pte.symm, fun v => ?_⟩
  have hpte : pteAt x.phys.pages.mem mm.pgindex (ptrAlignBelow v) = L.pte (ptrAlignBelow v) :=
    congrFun hshow.pte _
  have hpte' : pteAt x'.phys.pages.mem mm.pgindex (ptrAlignBelow v) = L.pte (ptrAlignBelow v) :=
    congrFun hshow'.pte _
  by_cases hv : L.pte (ptrAlignBelow v) = 0
  · rw [userByte_none (hpte.trans hv), userByte_none (hpte'.trans hv)]
  · obtain ⟨y, -, -, hpaddr, hshape, hplain⟩ := hgood.backed hmm hL hv
    have hlow : v % pageSize < pageSize := Nat.mod_lt _ (by decide)
    rw [userByte_mapped (hpte' ▸ hv) (hpte' ▸ hpaddr) hshape.frame,
      userByte_mapped (hpte ▸ hv) (hpte ▸ hpaddr) hshape.frame]
    exact congrArg some ((h _ hplain).2 _ (Nat.le_add_right _ _) (by omega))

theorem Gained.clone_bytes {M N : PageMap} {xs : List Vma}
    (h : Gained dst mm [] [] M N xs x.books x'.books) (hunmapped : ∀ v, M.pte v = 0)
    (hgood : Good base baseObjs x.books.desk.mms x.books) (hsrc : x.desk.mms src = some smm)
    (hL : x.pages.books.indexes smm.pgindex = some L)
    (hcopies : List.Forall₂ (VmaCopy x.mem x'.mem) smm.vmas xs) (v : Nat) :
    userByte x'.phys.pages.mem mm.pgindex v = userByte x.phys.pages.mem smm.pgindex v := by
  have hok := hgood.inv.spaces.ok hsrc hL
  have hpte : pteAt x.phys.pages.mem smm.pgindex (ptrAlignBelow v) = L.pte (ptrAlignBelow v) :=
    congrFun (x.pages.rel.index hL).pte _
  have hpte' : pteAt x'.phys.pages.mem mm.pgindex (ptrAlignBelow v) = N.pte (ptrAlignBelow v) :=
    congrFun (x'.pages.rel.index h.extra.index).pte _
  by_cases hv : ∃ y ∈ smm.vmas, y.start = ptrAlignBelow v
  · obtain ⟨y, hy, hstart⟩ := hv
    obtain ⟨i, hi, rfl⟩ := List.mem_iff_getElem.mp hy
    have hlen := hcopies.length_eq
    have hcopy := hcopies.get hi (hlen ▸ hi)
    have hmem : xs.get ⟨i, hlen ▸ hi⟩ ∈ xs := List.get_mem ..
    have hshape := h.shape _ hmem
    have hnew := h.flagged _ hmem
    rw [hcopy.start] at hnew
    have hsource := hok.mapped _ hy
    have hlow : v % pageSize < pageSize := Nat.mod_lt _ (by decide)
    rw [hstart] at hsource
    rw [List.get_eq_getElem, hstart] at hnew
    have hnew' := hpte'.trans hnew
    rw [userByte_mapped (hnew' ▸ pteFor_ne_zero _ _)
        (hnew' ▸ ptePaddr_pteFor hshape.frame _) hshape.frame,
      userByte_mapped (hpte ▸ hsource.1) (hpte ▸ hsource.2) (hok.vma _ hy).frame]
    exact congrArg some (hcopy.bytes _ hlow)
  · have hold : L.pte (ptrAlignBelow v) = 0 := by
      by_contra hne
      exact hv (hok.backed _ hne)
    have hstarts : smm.vmas.map Vma.start = xs.map Vma.start := by
      rw [← List.forall₂_eq_eq_eq, List.forall₂_map_left_iff, List.forall₂_map_right_iff]
      exact hcopies.imp fun _ _ hc => hc.start.symm
    have hnew : N.pte (ptrAlignBelow v) = 0 := by
      rw [h.extra.overlay.same _, hunmapped]
      intro x hx heq
      have hin : ptrAlignBelow v ∈ smm.vmas.map Vma.start := by
        rw [hstarts, ← heq]
        exact List.mem_map.mpr ⟨x, hx, rfl⟩
      exact hv (List.mem_map.mp hin)
    rw [userByte_none (hpte.trans hold), userByte_none (hpte'.trans hnew)]

/-- **`mm_clone`** into an address space without VMAs, in memory. -/
theorem Kempt.clone (h : Kempt base baseObjs s) (hsrc : s.desk.mms src = some smm)
    (hdst : s.desk.mms dst = some ⟨pgindex, []⟩) (hne : dst ≠ src) :
    wp (mmClone cleanOps dst src) (fun retcode s' =>
      retcode = 0 ∧ (∃ dmm, dmm.pgindex = pgindex ∧ Cloned dst src dmm smm s s') ∨
        retcode = -ENOMEM ∧ Unchanged ⟨pgindex, []⟩ s s' ∧
          (∀ i, leafAt s'.pages.mem pgindex i = none) ∧ Mm.Same src smm s s') s := by
  have hvalid : (UvmCall.mmClone dst src).Valid s.desk :=
    ⟨⟨_, hdst, rfl⟩, by rw [hsrc]; exact Option.some_ne_none smm⟩
  have hkempt := h.call hvalid
  obtain ⟨⟨t, desk⟩, ⟨hrep, hdesk⟩, hgood⟩ := h
  subst hdesk
  obtain ⟨M, hM, hempty⟩ := hgood.inv.spaces.space hdst
  have hexact := Good.wp_mmClone (s := ⟨⟨s.pages, t, hrep⟩, s.desk⟩) hgood hdst rfl hsrc hM
  obtain ⟨L, hL, -⟩ := hgood.inv.spaces.space hsrc
  have hq : smm.pgindex ≠ pgindex := fun heq => hne (hgood.inv.spaces.inj hdst hsrc heq.symm)
  have hunmapped : ∀ v, M.pte v = 0 := fun v => Mm.OK.unmapped (l := []) hempty (by simp)
  have hphys := (phys_paired.mmClone (fun _ _ => trivial) dst src).wp_phys hexact
  refine wp_mono (wp_and hphys hkempt) ?_
  rintro retcode s' ⟨⟨x', rfl, -, hout⟩, hkempt', -⟩
  rcases hout with ⟨rfl, xs, N, hgained, hkeeps, hcopies⟩ | ⟨rfl, hback, hkeeps⟩
  · -- the copy
    have hspace : x'.desk.mms dst = some ⟨pgindex, xs⟩ := by
      show x'.books.desk.mms dst = _
      simpa using hgained.space
    have hsrc' : x'.desk.mms src = some smm := by
      rw [show x'.desk.mms = _ from hgained.mms, setVmas, Function.update_of_ne hne.symm]
      exact hsrc
    have hL' : x'.pages.books.indexes smm.pgindex = some L := by
      rw [show x'.pages.books.indexes = _ from hgained.extra.after, Function.update_of_ne hq]
      exact hL
    refine .inl ⟨rfl, ⟨pgindex, xs⟩, rfl, hspace, ?_, ?_, ?_, ?_⟩
    · symm
      rw [← List.forall₂_eq_eq_eq, List.forall₂_map_left_iff, List.forall₂_map_right_iff]
      refine hcopies.imp fun y x hc => ?_
      rw [hc.start, hc.size, hc.flags]
    · exact hkeeps.same hgood hsrc hsrc' hL hL'
    · exact hgained.clone_bytes hunmapped hgood hsrc hL hcopies
    · exact fun f hf => hkempt'.frames_apart hspace hsrc' hne hf
  · -- nothing is left of a clone that failed
    have hindexes : x'.pages.books.indexes = t.indexes := hback.indexes
    have hshow := hrep.index hM
    have hshow' := x'.pages.rel.index (hindexes ▸ hM)
    have hmms : x'.desk.mms = s.desk.mms := hback.mms
    refine .inr ⟨rfl, ⟨hmms, ?_, ?_, hback.objs, ?_⟩, ?_, ?_⟩
    · exact hshow'.leaf.trans hshow.leaf.symm
    · exact hshow'.pte.trans hshow.pte.symm
    · rw [show x'.phys.pages.frames = _ from x'.pages.rel.frames, hrep.frames]
      exact hback.frames ⟨_, hrep⟩
    · intro i
      rw [show leafAt x'.phys.pages.mem pgindex = _ from hshow'.leaf]
      by_contra hleaf
      obtain ⟨y, hy, -⟩ := (hempty.leaf i).mp hleaf
      cases hy
    · exact hkeeps.same hgood hsrc (hmms ▸ hsrc) hL (hindexes ▸ hL)

/-- No writes to the user memory of `a` show through the page index of `mm`. -/
def Hidden (a : Nat) (mm : Mm) (s : Vm Phys) : Prop :=
  ∀ ws s', writeAll a ws s = .ok ((), s') →
    ∀ v, userByte s'.pages.mem mm.pgindex v = userByte s.pages.mem mm.pgindex v

/-- **An exact and isolated copy.** `mm_clone` into an address space without VMAs returns,
whatever the allocators answer, if `map_pages` fails without a change. If it returns zero,
with the real `map_pages` or that one, then the copy has the VMAs and the bytes of the source
and no frame in common with it, and neither sees what is written to the other. If it returns
an error, then the copy is as empty as before, and the source is the same in any case.

The page at physical address zero is part of the kernel image and is not handed out. -/
theorem mmClone_exact_isolated (h : Kempt base baseObjs s) (hsrc : s.desk.mms src = some smm)
    (hdst : s.desk.mms dst = some ⟨pgindex, []⟩) (hne : dst ≠ src) :
    (∃ retcode s', mmClone cleanOps dst src s = .ok (retcode, s')) ∧
    ∀ retcode s', mmClone cleanOps dst src s = .ok (retcode, s') ∨
        mmClone physOps dst src s = .ok (retcode, s') →
      (retcode = 0 → ∃ dmm, dmm.pgindex = pgindex ∧ Cloned dst src dmm smm s s' ∧
        (0 ∉ s'.pages.frames → Hidden dst smm s' ∧ Hidden src dmm s')) ∧
      (retcode < 0 → Unchanged ⟨pgindex, []⟩ s s' ∧
        (∀ i, leafAt s'.pages.mem pgindex i = none) ∧ Mm.Same src smm s s') := by
  have hclone := h.clone hsrc hdst hne
  have hvalid : (UvmCall.mmClone dst src).Valid s.desk :=
    ⟨⟨_, hdst, rfl⟩, by rw [hsrc]; exact Option.some_ne_none smm⟩
  obtain ⟨t, hrel, hgood⟩ := id h
  obtain ⟨L, -, hok⟩ := hgood.inv.spaces.space (hrel.2 ▸ hsrc)
  constructor
  · obtain ⟨retcode, s', hrun, -⟩ := wp_iff.mp hclone
    exact ⟨retcode, s', hrun⟩
  · intro retcode s' hrun
    have hrun : mmClone cleanOps dst src s = .ok (retcode, s') :=
      hrun.elim id (mmClone_clean hsrc hok.vma)
    have hkempt : Kempt base baseObjs s' := (wp_run (h.call hvalid) hrun).1
    rcases wp_run hclone hrun with ⟨rfl, dmm, hpgindex, hcloned⟩ | ⟨rfl, hunchanged⟩
    · refine ⟨fun _ => ⟨dmm, hpgindex, hcloned, fun hzero => ⟨?_, ?_⟩⟩, fun hc => absurd hc (by decide)⟩
      · intro ws s'' hwrites
        exact hkempt.isolated hcloned.space hcloned.source.space hne hzero hwrites
      · intro ws s'' hwrites
        exact hkempt.isolated hcloned.source.space hcloned.space hne.symm hzero hwrites
    · exact ⟨fun hc => absurd hc (by decide), fun _ => hunchanged⟩

/-- `roomySpace` with a second, empty address space. -/
def twoSpaces : Vm Phys := after (UvmCall.run cleanOps .mmNew) (roomySpace 0)

theorem twoSpaces_run : UvmRun roomyVm twoSpaces :=
  roomySpace_run.after trivial (by decide +kernel)

/-- A clone of two pages. -/
theorem mmClone_exact_isolated_two_pages :
    ∃ s' dmm, mmClone physOps 0x80300140 0x80300000 twoSpaces = .ok (0, s') ∧
      Cloned 0x80300140 0x80300000 dmm (roomyMm 0) twoSpaces s' ∧ Hidden 0x80300140 (roomyMm 0) s' ∧
      Hidden 0x80300000 dmm s' := by
  have hall := mmClone_exact_isolated (twoSpaces_run.kempt roomyVm_fresh)
    (by decide +kernel : twoSpaces.desk.mms 0x80300000 = some (roomyMm 0))
    (by decide +kernel : twoSpaces.desk.mms 0x80300140 = some ⟨0x80204000, []⟩) (by decide)
  have hrun : mmClone physOps 0x80300140 0x80300000 twoSpaces = .ok (0, after _ _) :=
    run_after_eq (by decide +kernel)
  obtain ⟨dmm, -, hcloned, hhidden⟩ := (hall.2 _ _ (.inr hrun)).1 rfl
  have hzero : 0 ∉ (after (mmClone physOps 0x80300140 0x80300000) twoSpaces).pages.frames := by
    decide +kernel
  exact ⟨_, dmm, hrun, hcloned, hhidden hzero⟩

variable {s₀ : Vm Phys} {t : Vm Books} {a b : Nat} {mm' : Mm}

/-- The tables of an address space have their roles in the books. -/
theorem Good.table_role (h : Good base baseObjs t.desk.mms t) (hrel : Vm.Rel Represents s t)
    (hmm : s.desk.mms a = some mm) :
    tableRole t.pages.indexes (mm.pgindex, none) = some (kva2pa mm.pgindex) ∧
      ∀ i, tableRole t.pages.indexes (mm.pgindex, some i) = leafAt s.pages.mem mm.pgindex i := by
  rw [hrel.2] at hmm
  obtain ⟨M, hM, -⟩ := h.inv.spaces.space hmm
  refine ⟨tableRole_dir hM, fun i => ?_⟩
  rw [tableRole_leaf hM, (hrel.1.index hM).leaf]

/-- **No way to a page table.** Whatever calls are made, no user address of an address space leads
to the directory or a leaf table of any, and no leaf table serves twice. -/
theorem page_tables_unreachable (h : Kempt base baseObjs s₀) (hrun : Relation.ReflTransGen
    (fun s s' => ∃ c : UvmCall, c.Valid s.desk ∧ ∃ r, c.run physOps s = .ok (r, s')) s₀ s)
    (hmm : s.desk.mms a = some mm) (hmm' : s.desk.mms b = some mm') :
    (∀ v, pteAt s.pages.mem mm.pgindex v ≠ 0 →
      ptePaddr (pteAt s.pages.mem mm.pgindex v) ≠ kva2pa mm'.pgindex ∧
        ∀ i, leafAt s.pages.mem mm'.pgindex i ≠ some (ptePaddr (pteAt s.pages.mem mm.pgindex v))) ∧
    ∀ i j f, leafAt s.pages.mem mm.pgindex i = some f → leafAt s.pages.mem mm'.pgindex j = some f →
      a = b ∧ i = j := by
  have hkempt : Kempt base baseObjs s := by
    clear hmm hmm'
    induction hrun with
    | refl => exact h
    | tail _ hstep ih =>
      obtain ⟨c, hv, r, hcall⟩ := hstep
      exact (wp_run (ih.call hv) (c.run_clean ih hv hcall)).1
  obtain ⟨t, hrel, hgood⟩ := hkempt
  obtain ⟨hdir', hleaf'⟩ := hgood.table_role hrel hmm'
  constructor
  · intro v hv
    obtain ⟨M, hM, -⟩ := hgood.inv.spaces.space (hrel.2 ▸ hmm)
    rw [(hrel.1.index hM).pte] at hv ⊢
    obtain ⟨x, -, -, hpaddr, -, hplain⟩ := hgood.backed (hrel.2 ▸ hmm) hM hv
    rw [hpaddr]
    constructor
    · intro hdir
      exact hrel.1.owned.apart hdir' (hdir ▸ hplain)
    · intro i hi
      exact hrel.1.owned.apart ((hleaf' i).trans hi) hplain
  · intro i j f hi hj
    have hrole := hrel.1.owned.inj (((hgood.table_role hrel hmm).2 i).trans hi) ((hleaf' j).trans hj)
    obtain ⟨hq, hslot⟩ := Prod.mk.inj hrole
    rw [hrel.2] at hmm hmm'
    exact ⟨hgood.inv.spaces.inj hmm hmm' hq, Option.some.inj hslot⟩

/-- The first page of `roomyMm` is not the directory of the other address space. -/
theorem page_tables_unreachable_two_spaces :
    pteAt twoSpaces.pages.mem (roomyMm 0).pgindex 0x400000 ≠ 0 ∧
      ptePaddr (pteAt twoSpaces.pages.mem (roomyMm 0).pgindex 0x400000) ≠ kva2pa 0x80204000 := by
  have hpte : pteAt twoSpaces.pages.mem (roomyMm 0).pgindex 0x400000 ≠ 0 := by decide +kernel
  refine ⟨hpte, ((page_tables_unreachable (twoSpaces_run.kempt roomyVm_fresh) .refl
    (by decide +kernel : twoSpaces.desk.mms 0x80300000 = some (roomyMm 0))
    (by decide +kernel : twoSpaces.desk.mms 0x80300140 = some ⟨0x80204000, []⟩)).1 _ hpte).1⟩

end Clone

end AimKernel
