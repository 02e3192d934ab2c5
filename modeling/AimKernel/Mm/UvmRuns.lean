import AimKernel.Mm.UvmContents

/-!
# AimKernel.Mm.UvmRuns

Address spaces over whole runs.

A run is any sequence of calls that respects what the callers have to see to
(`UvmCall.Valid`): an address space is one that `mm_new` returned, a range does not
wrap, a clone goes into an address space without VMAs, and the list sentinel is not
mistaken for a VMA. Allocations may fail at every point, `map_pages` without a change.

The invariant is that of the books behind the memory: the calls on memory simulate those
on the books (`UvmCall.sim`), and those keep `Good` (`UvmCall.keeps`). What the two say
about the words in memory is `Mm.InStep`.
-/

namespace AimKernel

/-! ### Calls -/

/-- A call on the user memory interface. -/
inductive UvmCall
  | mmNew
  | mmDestroy (a : Nat)
  | createUvm (sent : Sentinel) (a addr len flags : Nat)
  | destroyUvm (sent : Sentinel) (a addr len : Nat)
  | setUvmPerm (sent : Sentinel) (a addr len flags : Nat)
  | mmClone (dst src : Nat)
  deriving Repr, DecidableEq

namespace UvmCall

/-- What the call does. -/
def run {P : Type} (B : PageOps P) : UvmCall → VmM P Int
  | .mmNew => do
      let a ← AimKernel.mmNew B
      return a
  | .mmDestroy a => do
      AimKernel.mmDestroy B a
      return 0
  | .createUvm sent a addr len flags => AimKernel.createUvm B sent a addr len flags
  | .destroyUvm sent a addr len => AimKernel.destroyUvm B sent a addr len
  | .setUvmPerm sent a addr len flags => AimKernel.setUvmPerm B sent a addr len flags
  | .mmClone dst src => AimKernel.mmClone B dst src

/-- A pointer that `mm_new` may have returned: `NULL`, or a live address space. -/
def Space (d : Desk) (a : Nat) : Prop := a ≠ 0 → d.mms a ≠ none

/-- What the caller has to see to. -/
def Valid (d : Desk) : UvmCall → Prop
  | .mmNew => True
  | .mmDestroy a => Space d a
  | .createUvm _ a addr len _ => Space d a ∧ addr + len < 2 ^ 32
  | .destroyUvm sent a addr len => Space d a ∧ addr + len < 2 ^ 32 ∧ sent.Misses addr len
  | .setUvmPerm sent a addr len _ => Space d a ∧ addr + len < 2 ^ 32 ∧ sent.Misses addr len
  | .mmClone dst src => (∃ mm, d.mms dst = some mm ∧ mm.vmas = []) ∧ d.mms src ≠ none

/-- The call on memory simulates the call on the books. -/
theorem sim (c : UvmCall) {d : Desk} (hv : c.Valid d) :
    Sim (Vm.Rel Represents) (c.run cleanOps) (c.run Books.ops) := by
  have htrue : ∀ v, IsPage v → True := fun _ _ => trivial
  cases c with
  | mmNew => exact .bind books_sim.mmNew fun _ => .pure _
  | mmDestroy a => exact .bind (books_sim.mmDestroy a) fun _ => .pure _
  | createUvm sent a addr len flags =>
    exact books_sim.createUvm htrue sent a (Nat.lt_of_le_of_lt (Nat.le_add_right _ _) hv.2) _ _
  | destroyUvm sent a addr len => exact books_sim.destroyUvm sent a addr len
  | setUvmPerm sent a addr len flags => exact books_sim.setUvmPerm sent a addr len flags
  | mmClone dst src => exact books_sim.mmClone (fun _ _ => trivial) dst src

/-- **Every call** on the books returns and keeps the invariant. -/
theorem keeps {base baseObjs : List Nat} {t : Vm Books} {c : UvmCall}
    (h : Good base baseObjs t.desk.mms t) (hv : c.Valid t.desk) :
    wp (c.run Books.ops) (fun _ t' => Good base baseObjs t'.desk.mms t' ∧
      t'.desk.fixed = t.desk.fixed) t := by
  cases c with
  | mmNew =>
    rw [run, wp_bind]
    refine wp_mmNew h ?_ ?_
    · intro t' hgood _ hfixed _
      exact wp_pure.mpr ⟨hgood, hfixed⟩
    · intro t' x pgindex _ _ hgood _ hfixed _ _
      exact wp_pure.mpr ⟨hgood, hfixed⟩
  | mmDestroy a =>
    rw [run, wp_bind]
    by_cases hignored : a = 0 ∨ a = t.desk.kernelMm
    · rw [AimKernel.mmDestroy, wp_bind, onDesk, wp_zoom, wp_get, if_pos hignored, wp_pure, wp_pure]
      exact ⟨h, rfl⟩
    · obtain ⟨ha, hkernel⟩ := not_or.mp hignored
      obtain ⟨mm, hmm⟩ := Option.ne_none_iff_exists'.mp (hv ha)
      refine wp_mono (wp_mmDestroy h hmm ha hkernel) ?_
      rintro _ t' ⟨hgood, -, hfixed, -⟩
      exact wp_pure.mpr ⟨hgood, hfixed⟩
  | createUvm sent a addr len flags =>
    exact wp_mono (wp_createUvm_cases h hv.1 hv.2) fun _ _ hk => ⟨hk.1.good h, hk.1.fixed⟩
  | destroyUvm sent a addr len =>
    refine wp_mono (wp_destroyUvm_cases h hv.1 hv.2.1 hv.2.2) ?_
    rintro _ t' (⟨-, rfl⟩ | ⟨-, _, _, _, _, _, _, -, -, hgone, -⟩)
    · exact ⟨h, rfl⟩
    · exact ⟨hgone.good, hgone.fixed⟩
  | setUvmPerm sent a addr len flags =>
    refine wp_mono (wp_setUvmPerm_exact h hv.1 hv.2.1 hv.2.2) ?_
    rintro _ t' (⟨-, rfl⟩ | ⟨-, _, _, _, _, _, _, -, -, -, -, -, hset, -⟩)
    · exact ⟨h, rfl⟩
    · exact ⟨hset.good, hset.fixed⟩
  | mmClone dst src =>
    obtain ⟨⟨mm, hmm, hempty⟩, hsrc⟩ := hv
    exact wp_mono (wp_mmClone_cases h hmm hempty hsrc) fun _ _ hk => ⟨hk.1.good h, hk.1.fixed⟩

end UvmCall

/-! ### Runs -/

/-- The state before the first `mm_new`: whatever is handed out belongs to others. -/
structure Vm.Fresh (s : Vm Phys) : Prop where
  spaces : ∀ a, s.desk.mms a = none
  frames : s.pages.frames.Nodup
  isFrame : ∀ f ∈ s.pages.frames, IsFrame f
  freed : s.pages.freed = []
  objs : s.desk.objs.Nodup

/-- The states that valid calls lead to. -/
inductive UvmRun (s₀ : Vm Phys) : Vm Phys → Prop
  | start : UvmRun s₀ s₀
  | call {s s' : Vm Phys} {c : UvmCall} {result : Int} : UvmRun s₀ s → c.Valid s.desk →
      c.run cleanOps s = .ok (result, s') → UvmRun s₀ s'

variable {s s₀ : Vm Phys} {c : UvmCall}

theorem UvmRun.after (h : UvmRun s₀ s) (hv : c.Valid s.desk) (hok : (c.run cleanOps s).isOk = true)
    : UvmRun s₀ (after (c.run cleanOps) s) :=
  let ⟨_, hrun⟩ := run_after hok
  .call h hv hrun

/-- Books are kept of the state, and they are in order. -/
def Kempt (base baseObjs : List Nat) (s : Vm Phys) : Prop :=
  ∃ t, Vm.Rel Represents s t ∧ Good base baseObjs t.desk.mms t

/-- The books of a state in which everything that is handed out belongs to others. -/
def Vm.startBooks (s : Vm Phys) : Vm Books :=
  ⟨⟨s.pages.frames, s.pages.frames, s.pages.supply, fun _ => none, []⟩, s.desk⟩

theorem Vm.Fresh.rel (h : s.Fresh) : Vm.Rel Represents s s.startBooks := by
  refine ⟨⟨rfl, rfl, Owned.vacant h.frames ?_, h.frames, h.isFrame, ?_, ?_, ?_⟩, rfl⟩
  · rintro ⟨pgindex, slot⟩
    cases slot <;> rfl
  · intro pgindex M hM
    cases hM
  · rw [h.freed]
    exact .nil
  · exact fun f hf => nomatch hf

theorem Vm.Fresh.good (h : s.Fresh) :
    Good s.pages.frames s.desk.objs s.desk.mms s.startBooks := by
  have hnone : ∀ place, vmaAt s.desk.mms place = none := by
    rintro ⟨a, v⟩
    simp [vmaAt, h.spaces]
  refine ⟨⟨s.pages, h.rel.1⟩, (fun _ hx => absurd hx List.not_mem_nil), ⟨?_, ?_, ?_⟩, ?_, ?_⟩
  · intro a mm hmm
    rw [h.spaces] at hmm
    cases hmm
  · intro pgindex M hM
    cases hM
  · intro a b mm mm' hmm
    rw [h.spaces] at hmm
    cases hmm
  · exact Owned.vacant h.frames fun place => by simp [userRole, hnone]
  · refine Owned.vacant h.objs fun use => ?_
    cases use <;> simp [objRole, hnone, h.spaces]

theorem Vm.Fresh.kempt (h : s.Fresh) : Kempt s.pages.frames s.desk.objs s :=
  ⟨s.startBooks, h.rel, h.good⟩

/-- **One call**: it returns, and the books are in order again. -/
theorem Kempt.call {base baseObjs : List Nat} (h : Kempt base baseObjs s) (hv : c.Valid s.desk) :
    wp (c.run cleanOps) (fun _ s' => Kempt base baseObjs s' ∧ s'.desk.fixed = s.desk.fixed) s := by
  obtain ⟨t, hrel, hgood⟩ := h
  rw [hrel.2] at hv
  refine wp_mono ((c.sim hv).wp hrel (UvmCall.keeps hgood hv)) ?_
  rintro result s' ⟨t', hrel', hgood', hfixed⟩
  refine ⟨⟨t', hrel', hgood'⟩, ?_⟩
  rw [hrel'.2, hrel.2, hfixed]

/-- **The whole run.** -/
theorem UvmRun.kempt (h : UvmRun s₀ s) (h0 : s₀.Fresh) :
    Kempt s₀.pages.frames s₀.desk.objs s := by
  induction h with
  | start => exact h0.kempt
  | call _ hv hrun ih => exact (wp_run (ih.call hv) hrun).1

/-! ### What the books say about memory -/

/-- The VMA list and the page index in memory are in step. -/
structure Mm.InStep (m : Mem) (mm : Mm) : Prop where
  /-- The list ascends, and nothing overlaps. -/
  ascending : mm.vmas.Pairwise fun x y => x.start < y.start ∧ x.start + x.size ≤ y.start
  mapped : ∀ v, pteAt m mm.pgindex v ≠ 0 ↔ ∃ x ∈ mm.vmas, x.start = v
  paddr : ∀ x ∈ mm.vmas, ptePaddr (pteAt m mm.pgindex x.start) = x.pages.paddr
  leaf : ∀ i, leafAt m mm.pgindex i ≠ none ↔ ∃ x ∈ mm.vmas, pdx x.start = i

/-- No frame backs two VMAs, of one address space or of two. -/
def Desk.Unshared (d : Desk) : Prop :=
  ∀ a b mm mm' x y f, d.mms a = some mm → d.mms b = some mm' → x ∈ mm.vmas → y ∈ mm'.vmas →
    f ∈ block x.pages.paddr x.pages.size → f ∈ block y.pages.paddr y.pages.size →
    a = b ∧ x = y

section Memory

variable {base baseObjs : List Nat} {s : Vm Phys} {t : Vm Books}

theorem Good.inStep (h : Good base baseObjs t.desk.mms t) (hrel : Vm.Rel Represents s t) {a : Nat}
    {mm : Mm} (hmm : s.desk.mms a = some mm) : Mm.InStep s.pages.mem mm := by
  rw [hrel.2] at hmm
  obtain ⟨M, hM, hok⟩ := h.inv.spaces.space hmm
  have hshows := hrel.1.index hM
  have hpos : 0 < pageSize := by decide
  refine ⟨?_, ?_, ?_, ?_⟩
  · refine hok.sorted.imp_of_mem ?_
    intro x y hx _ hxy
    rw [(hok.vma x hx).size]
    omega
  · intro v
    rw [hshows.pte]
    constructor
    · exact hok.backed v
    · rintro ⟨x, hx, rfl⟩
      exact (hok.mapped x hx).1
  · intro x hx
    rw [hshows.pte]
    exact (hok.mapped x hx).2
  · intro i
    rw [hshows.leaf]
    exact hok.leaf i

theorem Good.unshared (h : Good base baseObjs t.desk.mms t) : t.desk.Unshared := by
  -- the frame of a VMA has the role of its page
  have hrole : ∀ {a mm x f}, t.desk.mms a = some mm → x ∈ mm.vmas →
      f ∈ block x.pages.paddr x.pages.size →
      vmaAt t.desk.mms (a, x.start) = some x ∧ userRole t.desk.mms (a, x.start) = some f := by
    intro a mm x f hmm hx hf
    obtain ⟨M, -, hok⟩ := h.inv.spaces.space hmm
    have hthere := hok.vmaAt_start hmm hx
    rw [(hok.vma x hx).psize, block_page, List.mem_singleton] at hf
    exact ⟨hthere, by simp [userRole, hthere, hf]⟩
  intro a b mm mm' x y f hmm hmm' hx hy hfx hfy
  obtain ⟨hatx, hrolex⟩ := hrole hmm hx hfx
  obtain ⟨haty, hroley⟩ := hrole hmm' hy hfy
  have hplace := h.inv.user.inj hrolex hroley
  rw [hplace, haty] at hatx
  exact ⟨congrArg Prod.fst hplace, (Option.some.inj hatx).symm⟩

end Memory

/-- **Address spaces.** In every run of the calls, the VMA list of each address space and
its page index in memory are in step, no frame is shared, and no call faults: neither an
assertion nor a panic is reached. -/
theorem address_spaces_in_step {s₀ s : Vm Phys} (h₀ : s₀.Fresh) (hrun : UvmRun s₀ s) :
    (∀ a mm, s.desk.mms a = some mm → Mm.InStep s.pages.mem mm) ∧ s.desk.Unshared ∧
      ∀ c : UvmCall, c.Valid s.desk → ∃ result s', c.run cleanOps s = .ok (result, s') := by
  have hkempt := hrun.kempt h₀
  obtain ⟨t, hrel, hgood⟩ := id hkempt
  refine ⟨fun a mm hmm => hgood.inStep hrel hmm, ?_, ?_⟩
  · rw [hrel.2]
    exact hgood.unshared
  · intro c hv
    obtain ⟨result, s', hok, -⟩ := wp_iff.mp (hkempt.call hv)
    exact ⟨result, s', hok⟩

/-- Eight free frames and room for ten objects. -/
def roomyVm : Vm Phys where
  pages := ⟨fun _ => 0, [], [some 0x200000, some 0x201000, some 0x202000, some 0x203000,
    some 0x204000, some 0x205000, some 0x206000, some 0x207000], []⟩
  desk := ⟨[], [some 0x80300000, some 0x80300040, some 0x80300080, some 0x803000c0,
    some 0x80300100, some 0x80300140, some 0x80300180, some 0x803001c0, some 0x80300200,
    some 0x80300240], fun _ => none, 0, none, 0⟩

theorem roomyVm_fresh : roomyVm.Fresh :=
  ⟨fun _ => rfl, .nil, (fun _ hf => nomatch hf), rfl, .nil⟩

/-- `roomyVm` with an address space of two pages. -/
def roomySpace (flags : Nat) : Vm Phys :=
  after (UvmCall.run cleanOps (.createUvm ⟨0, 0⟩ 0x80300000 0x400000 0x2000 flags))
    (after (UvmCall.run cleanOps .mmNew) roomyVm)

theorem roomySpace_run : UvmRun roomyVm (roomySpace 0) := by
  have hnew : UvmRun roomyVm (after (UvmCall.run cleanOps .mmNew) roomyVm) :=
    UvmRun.start.after trivial (by decide +kernel)
  refine hnew.after ⟨fun _ => ?_, by decide⟩ (by decide +kernel)
  exact Option.isSome_iff_ne_none.mp (by decide +kernel)

/-- After `mm_new` and `create_uvm` of two pages. -/
theorem address_spaces_in_step_two_pages :
    (∃ mm, (roomySpace 0).desk.mms 0x80300000 = some mm ∧
      mm.vmas.map Vma.start = [0x400000, 0x401000] ∧ Mm.InStep (roomySpace 0).pages.mem mm) ∧
    ∃ result s', UvmCall.run cleanOps (.mmDestroy 0x80300000) (roomySpace 0) = .ok (result, s') := by
  obtain ⟨hstep, -, hcalls⟩ := address_spaces_in_step roomyVm_fresh roomySpace_run
  have hmms : ((roomySpace 0).desk.mms 0x80300000).map (fun mm => mm.vmas.map Vma.start) =
      some [0x400000, 0x401000] := by decide +kernel
  obtain ⟨mm, hmm, hvmas⟩ := Option.map_eq_some_iff.mp hmms
  refine ⟨⟨mm, hmm, hvmas, hstep _ mm hmm⟩, hcalls _ fun _ => ?_⟩
  rw [hmm]
  exact Option.some_ne_none mm

end AimKernel
