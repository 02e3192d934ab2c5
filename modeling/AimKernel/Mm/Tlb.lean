import AimKernel.Mm.PgTableRuns
import AimKernel.Mm.UvmCalls

/-!
# AimKernel.Mm.Tlb

The translation cache.

* A miss fills an entry from the loaded page index (`__tlb_entry`). An entry caches a pair of pages,
  and the handler only looks at the half that was missed: the other half is cached as it is, valid or
  not.
* `tlb_flush` empties the cache, and `switch_pgindex` is the only one to call it. `unmap_pages`,
  `set_pages_perm`, `destroy_uvm` and `set_uvm_perm` change entries of the loaded page index and
  leave the cached ones in place.
* `map_pages` only fills entries that are zero. A cached half of such a page is not valid, and stays so:
  the cache translates nothing wrongly, but does not translate the new page either.

Misses happen between the calls here. The calls themselves run at kernel addresses that are not
mapped, and do not raise any.
-/

namespace AimKernel

/-! ### The cache -/

/-- A TLB entry: the number of a pair of pages, and `EntryLo0` and `EntryLo1`. -/
structure TlbEntry where
  vpn2 : Nat
  lo0 : Nat
  lo1 : Nat
  deriving Repr, DecidableEq

/-- A page table entry without the bits that are not for the hardware (`PTE_SOFT_SHIFT`). -/
def softPte (pte : Nat) : Nat := pte / 2 ^ 6

/-- `PTE_VALID` of an `EntryLo`. -/
def loValid (lo : Nat) : Bool := lo &&& PTE_VALID / 2 ^ 6 ≠ 0

/-- `__tlb_entry`: the entry that it writes for a miss at `va`, or nothing if it goes to the generic
exception. -/
def tlbEntry (m : Mem) (pgindex va : Nat) : Option TlbEntry :=
  if pgindex = 0 then none
  else
    let table := m.load32 (entry pgindex (pdx va))
    if table = 0 then none
    else
      -- PTXMASK - 1
      let even := ptx va &&& 0x3fe
      let lo0 := softPte (m.load32 (entry table even))
      let lo1 := softPte (m.load32 (entry table (even + 1)))
      let missed := if va / 2 ^ 12 % 2 = 0 then lo0 else lo1
      if loValid missed then some ⟨va / 2 ^ 13, lo0, lo1⟩ else none

/-- The half of an entry for a page. -/
def TlbEntry.half (e : TlbEntry) (v : Nat) : Nat := if v / 2 ^ 12 % 2 = 0 then e.lo0 else e.lo1

/-- The entry translates the page. -/
structure TlbEntry.Caches (e : TlbEntry) (v : Nat) : Prop where
  page : IsPage v
  pair : v / 2 ^ 13 = e.vpn2
  valid : loValid (e.half v) = true

/-- What is cached is what the page index says. -/
def Coherent (m : Mem) (pgindex : Nat) (tlb : List TlbEntry) : Prop :=
  ∀ e ∈ tlb, ∀ v, e.Caches v → e.half v = softPte (pteAt m pgindex v)

/-- The memory management state of a CPU, with its cache. -/
structure Cpu where
  vm : Vm Phys
  tlb : List TlbEntry

/-- `get_pgindex`. -/
def Cpu.getPgindex (s : Cpu) : Nat := s.vm.desk.currentPgdir

/-- `switch_pgindex`, with its `tlb_flush`. -/
def Cpu.switchPgindex (s : Cpu) (pgindex : Nat) : Cpu :=
  ⟨{ s.vm with desk := { s.vm.desk with currentPgdir := pgindex } }, []⟩

/-! ### Page indexes in use -/

/-- The VMAs of an address space have frames of their own, none of them a table. -/
structure OwnVmas (pgindex : Nat) (rest : List Nat) (vmas : List Vma) : Prop where
  vma : ∀ x ∈ vmas, x.OK
  nodup : (vmas.map fun x => x.pages.paddr).Nodup
  frame : ∀ x ∈ vmas, x.pages.paddr ∈ rest ∧ x.pages.paddr ≠ kva2pa pgindex

/-- A page index that can be loaded: it is a page index, and it is exclusively owned. Nothing is
asked about what the VMAs and the entries have to do with each other. -/
structure Loadable (s : Vm Phys) (pgindex : Nat) (M : PageMap) (rest : List Nat) : Prop where
  held : Held s.pages pgindex M rest
  apart : ∀ {i f}, M.leaf i = some f → f ∉ rest
  vmas : ∀ {a mm}, s.desk.mms a = some mm → mm.pgindex = pgindex → OwnVmas pgindex rest mm.vmas
  only : ∀ {a b mm mm'}, s.desk.mms a = some mm → s.desk.mms b = some mm' →
    mm.pgindex = pgindex → mm'.pgindex = pgindex → a = b

/-! ### Steps -/

/-- A page of the range is cached. -/
def Cached (tlb : List TlbEntry) (addr len : Nat) : Prop :=
  ∃ e ∈ tlb, ∃ v, e.Caches v ∧ Within addr len v

/-- What can happen. -/
inductive TlbAction
  | miss (va : Nat)
  | switchPgindex (pgindex : Nat)
  | mapPages (vaddr paddr size flags : Nat)
  | unmapPages (vaddr size : Nat)
  | setPagesPerm (addr len flags : Nat)
  | destroyUvm (sent : Sentinel) (a addr len : Nat)
  | setUvmPerm (sent : Sentinel) (a addr len flags : Nat)
  | other

/-- One step, on the loaded page index. The rest of the kernel leaves that page index alone. -/
inductive TlbStep (s : Cpu) : TlbAction → Cpu → Prop
  | miss {va : Nat} {e : TlbEntry}
      (h : tlbEntry s.vm.pages.mem s.getPgindex va = some e) :
      TlbStep s (.miss va) { s with tlb := e :: s.tlb }
  | switchPgindex {pgindex : Nat} (h : ∃ M rest, Loadable s.vm pgindex M rest) :
      TlbStep s (.switchPgindex pgindex) (s.switchPgindex pgindex)
  | mapPages {vaddr paddr size flags : Nat} {r : Int} {p : Phys} (hv : IsPage vaddr)
      (hrun : mapPages s.getPgindex vaddr paddr size flags s.vm.pages = .ok (r, p)) :
      TlbStep s (.mapPages vaddr paddr size flags) { s with vm := { s.vm with pages := p } }
  | unmapPages {vaddr size : Nat} {r : Nat × Option Nat} {p : Phys} (hv : IsPage vaddr)
      (hsize : size % pageSize = 0)
      (hrun : unmapPages s.getPgindex vaddr size s.vm.pages = .ok (r, p)) :
      TlbStep s (.unmapPages vaddr size) { s with vm := { s.vm with pages := p } }
  | setPagesPerm {addr len flags : Nat} {r : Int} {p : Phys} (hv : IsPage addr)
      (hrun : setPagesPerm s.getPgindex addr len flags s.vm.pages = .ok (r, p)) :
      TlbStep s (.setPagesPerm addr len flags) { s with vm := { s.vm with pages := p } }
  | destroyUvm {sent : Sentinel} {a addr len : Nat} {mm : Mm} {r : Int} {vm : Vm Phys}
      (hmm : s.vm.desk.mms a = some mm) (hpg : mm.pgindex = s.getPgindex)
      (haddr : addr < 2 ^ 32) (hlen : len < 2 ^ 32)
      (hrun : destroyUvm physOps sent a addr len s.vm = .ok (r, vm)) :
      TlbStep s (.destroyUvm sent a addr len) { s with vm := vm }
  | setUvmPerm {sent : Sentinel} {a addr len flags : Nat} {mm : Mm} {r : Int} {vm : Vm Phys}
      (hmm : s.vm.desk.mms a = some mm) (hpg : mm.pgindex = s.getPgindex) (haddr : addr < 2 ^ 32)
      (hrun : setUvmPerm physOps sent a addr len flags s.vm = .ok (r, vm)) :
      TlbStep s (.setUvmPerm sent a addr len flags) { s with vm := vm }
  | other {s' : Cpu} (htlb : s'.tlb = s.tlb) (hpg : s'.getPgindex = s.getPgindex)
      (hpte : pteAt s'.vm.pages.mem s.getPgindex = pteAt s.vm.pages.mem s.getPgindex)
      (h : ∃ M rest, Loadable s'.vm s.getPgindex M rest) : TlbStep s .other s'

/-- The calls that change entries are made while no page of their range is cached. -/
def Evicted (s : Cpu) : TlbAction → Prop
  | .unmapPages vaddr size => ¬ Cached s.tlb vaddr size
  | .setPagesPerm addr len _ => ¬ Cached s.tlb addr len
  | .destroyUvm _ _ addr len => ¬ Cached s.tlb addr len
  | .setUvmPerm _ _ addr len _ => ¬ Cached s.tlb addr len
  | _ => True

/-- The states that are reached from one with a page index just loaded. -/
inductive TlbReach (Admitted : Cpu → TlbAction → Prop) : Cpu → Prop
  | load {s : Cpu} {pgindex : Nat} (h : ∃ M rest, Loadable s.vm pgindex M rest) :
      TlbReach Admitted (s.switchPgindex pgindex)
  | step {s s' : Cpu} {act : TlbAction} (h : TlbReach Admitted s) (hadm : Admitted s act)
      (hstep : TlbStep s act s') : TlbReach Admitted s'

/-! ### Misses -/

theorem and_even {x : Nat} (hx : x < nrPtentries) : x &&& 0x3fe = x / 2 * 2 := by
  have hall : ∀ x < 1024, x &&& 0x3fe = x / 2 * 2 := by decide +kernel
  exact hall x hx

/-- The pages of a pair have one leaf table, and neighbouring entries in it. -/
theorem pair_index {va v : Nat} (h : v / 2 ^ 13 = va / 2 ^ 13) :
    pdx v = pdx va ∧ ptx v = ptx va / 2 * 2 + v / 2 ^ 12 % 2 := by
  unfold pdx ptx
  omega

/-- **A miss** caches what the page index says, in both halves. -/
theorem tlbEntry_half {m : Mem} {pgindex va v : Nat} {M : PageMap} {e : TlbEntry}
    (h : Shows m pgindex M) (hentry : tlbEntry m pgindex va = some e)
    (hv : IsPage v) (hpair : v / 2 ^ 13 = e.vpn2) : e.half v = softPte (M.pte v) := by
  unfold tlbEntry at hentry
  rw [Option.ite_none_left_eq_some] at hentry
  obtain ⟨-, hentry⟩ := hentry
  rw [Option.ite_none_left_eq_some] at hentry
  obtain ⟨htable, hentry⟩ := hentry
  rw [Option.ite_none_right_eq_some] at hentry
  obtain ⟨-, hentry⟩ := hentry
  cases hentry
  obtain ⟨hpdx, hptx⟩ := pair_index hpair
  have hpte : M.pte v = m.load32 (entry (m.load32 (entry pgindex (pdx va))) (ptx v)) := by
    rw [← h.pte, pteAt, pdeAt, hpdx, if_pos ⟨hv, htable⟩]
  rw [hpte, hptx, TlbEntry.half, and_even (ptx_lt va)]
  rcases Nat.mod_two_eq_zero_or_one (v / 2 ^ 12) with hparity | hparity
  · rw [if_pos hparity, hparity]
    rfl
  · rw [if_neg (by omega), hparity]

/-! ### Calls -/

section Calls

variable {s s' : Vm Phys} {pgindex : Nat} {M M' : PageMap} {rest : List Nat} {P : Nat → Prop}

/-- What a call on the page index leaves: it can still be loaded, and only entries of pages in `P`
are different. -/
def Leaves (pgindex : Nat) (P : Nat → Prop) (M : PageMap) (s s' : Vm Phys) : Prop :=
  s'.desk.currentPgdir = s.desk.currentPgdir ∧
    ∃ M' rest', Loadable s' pgindex M' rest' ∧ ∀ w, ¬ P w → M'.pte w = M.pte w

variable {p : Phys} {a addr f flags fuel i k len n size : Nat} {mm : Mm} {vmas : List Vma} {x : Vma}
  {r : Int} {sent : Sentinel}

theorem Leaves.refl (h : Loadable s pgindex M rest) : Leaves pgindex P M s s :=
  ⟨rfl, M, rest, h, fun _ _ => rfl⟩

theorem Loadable.alters (h : Loadable s pgindex M rest) (hp : Alters pgindex rest P s.pages M p M')
    : Loadable { s with pages := p } pgindex M' rest where
  held := hp.edits.held
  apart {i f} hf hmem := by
    have ht := hp.edits.held.shows
    have hleaf : leafAt p.mem pgindex i = some f := (congrFun ht.leaf i).trans hf
    exact (hp.edits.spared f hmem (ht.tables.frame hleaf) (ht.tables.ne_dir hleaf)
      fun j hj => h.apart hj hmem).2 i hf
  vmas := h.vmas
  only := h.only

theorem Loadable.leaves (h : Loadable s pgindex M rest)
    (hp : ∃ M', Alters pgindex rest P s.pages M p M')
    : Leaves pgindex P M s { s with pages := p } := by
  obtain ⟨M', halters⟩ := hp
  exact ⟨rfl, M', rest, h.alters halters, halters.other⟩

/-- A frame that is not a table has been freed. -/
theorem Held.freed (h : Held p pgindex M rest) (hapart : ∀ {i f}, M.leaf i = some f → f ∉ rest)
    (hf : IsFrame f) (hmem : f ∈ rest) (hdir : f ≠ kva2pa pgindex) :
    Held { p with
      mem := p.mem.fill (pa2kva f) junkbyte pageSize
      frames := p.frames.erase f
      freed := (f, p.mem) :: p.freed } pgindex M (rest.erase f) where
  shows := by
    have ht := h.shows.tables
    have hsame : ∀ g, IsFrame g → g ≠ f →
        Untouched p.mem (p.mem.fill (pa2kva f) junkbyte pageSize) g := by
      intro g hg hne
      exact (Untouched.refl _ _).fill hg hf hne
    dsimp only
    refine h.shows.keep (hsame (kva2pa pgindex) ht.dir (Ne.symm hdir)) ?_
    intro i g hg
    exact hsame g (ht.frame ((h.leafAt_eq i).trans hg)) fun heq => hapart hg (heq ▸ hmem)
  frames := by
    have hnot : f ∉ M.leafFrames := by
      intro hin
      obtain ⟨i, -, hi⟩ := List.mem_filterMap.mp hin
      exact hapart hi hmem
    have herase := h.frames.erase f
    rw [List.erase_append_right _ hnot] at herase
    exact herase
  dir := (List.mem_erase_of_ne hdir.symm).mpr h.dir

/-- Only memory and the address spaces matter. -/
theorem Loadable.desk (h : Loadable s pgindex M rest) (hpages : s'.pages = s.pages)
    (hmms : s'.desk.mms = s.desk.mms) : Loadable s' pgindex M rest where
  held := hpages ▸ h.held
  apart := h.apart
  vmas hmm := h.vmas (hmms ▸ hmm)
  only hmm hmm' := h.only (hmms ▸ hmm) (hmms ▸ hmm')

/-- The VMA list of the page index is another one. -/
theorem Loadable.setVmas (h : Loadable s pgindex M rest) (hmm : s.desk.mms a = some mm)
    (hpg : mm.pgindex = pgindex) (hvmas : OwnVmas pgindex rest vmas) :
    Loadable (s.setMms (Function.update s.desk.mms a (some { mm with vmas := vmas }))) pgindex M
      rest := by
  -- the page index of an address space is the one it had
  have hold : ∀ {b mm'}, Function.update s.desk.mms a (some { mm with vmas := vmas }) b = some mm' →
      ∃ old, s.desk.mms b = some old ∧ old.pgindex = mm'.pgindex := by
    intro b mm' hb
    rcases update_some_eq hb with ⟨rfl, rfl⟩ | ⟨-, hb⟩
    · exact ⟨mm, hmm, rfl⟩
    · exact ⟨mm', hb, rfl⟩
  refine ⟨h.held, h.apart, ?_, ?_⟩
  · intro b mm' hb hpg'
    obtain ⟨old, hold, hsame⟩ := hold hb
    obtain rfl := h.only hold hmm (hsame.trans hpg') hpg
    have hb' : Function.update s.desk.mms b (some { mm with vmas := vmas }) b = some mm' := hb
    rw [Function.update_self] at hb'
    cases hb'
    exact hvmas
  · intro b c mm1 mm2 hb hc hpg1 hpg2
    obtain ⟨old1, hold1, hsame1⟩ := hold hb
    obtain ⟨old2, hold2, hsame2⟩ := hold hc
    exact h.only hold1 hold2 (hsame1.trans hpg1) (hsame2.trans hpg2)

/-- A frame that no VMA of the page index has is freed. -/
theorem Loadable.free (h : Loadable s pgindex M rest) (hf : IsFrame f) (hmem : f ∈ rest)
    (hdir : f ≠ kva2pa pgindex) (hnone : ∀ {a mm}, s.desk.mms a = some mm → mm.pgindex = pgindex →
      f ∉ mm.vmas.map fun x => x.pages.paddr)
    (hrun : freePages ⟨f, pageSize, 0⟩ s.pages = .ok ((), p)) :
    Loadable { s with pages := p } pgindex M (rest.erase f) where
  held := by
    have hp : p = { s.pages with
        mem := s.pages.mem.fill (pa2kva f) junkbyte pageSize
        frames := s.pages.frames.erase f
        freed := (f, s.pages.mem) :: s.pages.freed } :=
      wp_run (Q := fun _ t => t = _) (wp_freePages (h.held.rest_mem hmem) rfl) hrun
    rw [hp]
    exact h.held.freed h.apart hf hmem hdir
  apart hi hin := h.apart hi (List.mem_of_mem_erase hin)
  vmas {a mm} hmm hpg := by
    have hown := h.vmas hmm hpg
    refine ⟨hown.vma, hown.nodup, fun x hx => ⟨?_, (hown.frame x hx).2⟩⟩
    have hne : x.pages.paddr ≠ f := fun heq => hnone hmm hpg (heq ▸ List.mem_map_of_mem hx)
    exact (List.mem_erase_of_ne hne).mpr (hown.frame x hx).1
  only := h.only

theorem OwnVmas.eraseIdx (h : OwnVmas pgindex rest vmas) (hx : vmas[k]? = some x)
    : OwnVmas pgindex rest (vmas.eraseIdx k) ∧
      x.pages.paddr ∉ (vmas.eraseIdx k).map fun y => y.pages.paddr := by
  obtain ⟨hk, rfl⟩ := List.getElem?_eq_some_iff.mp hx
  have hperm := (List.getElem_cons_eraseIdx_perm hk).map fun y : Vma => y.pages.paddr
  have hnodup := List.nodup_cons.mp (hperm.nodup_iff.mpr h.nodup)
  have hsub : ∀ y ∈ vmas.eraseIdx k, y ∈ vmas := fun y hy => List.mem_of_mem_eraseIdx hy
  exact ⟨⟨fun y hy => h.vma y (hsub y hy), hnodup.2, fun y hy => h.frame y (hsub y hy)⟩, hnodup.1⟩

theorem OwnVmas.modify (h : OwnVmas pgindex rest vmas) (k flags : Nat) :
    OwnVmas pgindex rest (vmas.modify k fun x => { x with flags := flags }) := by
  have hmap : (vmas.modify k fun x => { x with flags := flags }).map (fun x => x.pages.paddr) =
      vmas.map fun x => x.pages.paddr := by
    apply List.ext_getElem?
    intro n
    rw [List.getElem?_map, List.getElem?_map, List.getElem?_modify]
    by_cases hn : k = n
    · cases vmas[n]? <;> simp [hn]
    · simp [hn]
  -- a VMA of the new list is one of the old list, up to its flags
  have hold : ∀ y ∈ vmas.modify k (fun x => { x with flags := flags }),
      ∃ x ∈ vmas, y = x ∨ y = { x with flags := flags } := by
    intro y hy
    obtain ⟨n, hn⟩ := List.mem_iff_getElem?.mp hy
    rw [List.getElem?_modify] at hn
    obtain ⟨x, hx, heq⟩ := Option.map_eq_some_iff.mp hn
    refine ⟨x, List.mem_of_getElem? hx, ?_⟩
    by_cases hkn : k = n
    · rw [if_pos hkn] at heq
      exact .inr heq.symm
    · rw [if_neg hkn] at heq
      exact .inl heq.symm
  refine ⟨fun y hy => ?_, hmap ▸ h.nodup, fun y hy => ?_⟩
  · obtain ⟨x, hx, heq⟩ := hold y hy
    obtain ⟨hpage, hbound, hsize, hpsize, hpflags, hrefs, hframe⟩ := h.vma x hx
    rcases heq with rfl | rfl
    · exact ⟨hpage, hbound, hsize, hpsize, hpflags, hrefs, hframe⟩
    · exact ⟨hpage, hbound, hsize, hpsize, hpflags, hrefs, hframe⟩
  · obtain ⟨x, hx, heq⟩ := hold y hy
    rcases heq with rfl | rfl
    · exact h.frame y hx
    · exact h.frame x hx

theorem run_kfree {x : Nat} (h : kfree x s = .ok ((), s')) :
    s'.pages = s.pages ∧ s'.desk.mms = s.desk.mms ∧ s'.desk.currentPgdir = s.desk.currentPgdir := by
  rw [kfree, onDesk] at h
  obtain ⟨d, hd, rfl⟩ := run_zoom.mp h
  obtain ⟨_, _, hget, hrest⟩ := run_bind.mp hd
  cases hget
  split at hrest
  · cases hrest
    exact ⟨rfl, rfl, rfl⟩
  · cases hrest

theorem Within.part {w : Nat} (h : Within (u32 (addr + i)) pageSize w) (hi : i % pageSize = 0)
    (hlt : i < size) : Within addr size w := by
  obtain ⟨k, hk, rfl⟩ := h
  have hzero : k = 0 := by
    unfold pageSize at hk
    omega
  have hdiv : i / pageSize * pageSize = i := Nat.div_mul_cancel (Nat.dvd_of_mod_eq_zero hi)
  refine ⟨i / pageSize, by rwa [hdiv], ?_⟩
  rw [hzero, hdiv, Nat.zero_mul, Nat.add_zero]
  unfold u32
  omega

theorem Leaves.trans {s'' : Vm Phys} (h : Leaves pgindex P M s s')
    (h' : ∀ M' rest', Loadable s' pgindex M' rest' → Leaves pgindex P M' s' s'') :
    Leaves pgindex P M s s'' := by
  obtain ⟨hcur, M', rest', hload, hother⟩ := h
  obtain ⟨hcur', M'', rest'', hload', hother'⟩ := h' M' rest' hload
  exact ⟨hcur'.trans hcur, M'', rest'', hload', fun w hw => (hother' w hw).trans (hother w hw)⟩

/-- One round of `__unmap_and_free_vma` on the VMA at `k`. -/
theorem Loadable.round {s1 s2 s3 s4 : Vm Phys} {r : Nat × Option Nat}
    (h : Loadable s pgindex M rest) (hmm : s.desk.mms a = some mm) (hpg : mm.pgindex = pgindex)
    (hi : i % pageSize = 0) (hlt : i < size) (hx : mm.vmas[k]? = some x)
    (hstart : x.start = u32 (addr + i))
    (hset : setMm a { mm with vmas := mm.vmas.eraseIdx k } s = .ok ((), s1))
    (hunmap : onPages (physOps.unmapPages mm.pgindex x.start x.size) s1 = .ok (r, s2))
    (hfree : unrefAndFreeUpages physOps x.pages s2 = .ok ((), s3))
    (hkfree : kfree x.addr s3 = .ok ((), s4)) :
    Leaves pgindex (Within addr size) M s s4 ∧
      s4.desk.mms a = some { mm with vmas := mm.vmas.eraseIdx k } := by
  have hown := h.vmas hmm hpg
  have hxmem : x ∈ mm.vmas := List.mem_of_getElem? hx
  have hxok := hown.vma x hxmem
  obtain ⟨hmemf, hdirf⟩ := hown.frame x hxmem
  obtain ⟨hown', hgone⟩ := hown.eraseIdx hx
  have hload1 := h.setVmas hmm hpg hown'
  rw [← run_setMm hset] at hload1
  have hmms1 : s1.desk.mms = Function.update s.desk.mms a
      (some { mm with vmas := mm.vmas.eraseIdx k }) := by rw [run_setMm hset]; rfl
  have hcur1 : s1.desk.currentPgdir = s.desk.currentPgdir := by rw [run_setMm hset]; rfl
  -- the page is unmapped
  obtain ⟨hrun2, hdesk2⟩ := run_onPages hunmap
  rw [hpg, hxok.size] at hrun2
  obtain ⟨M2, halters⟩ := run_unmapPages_within hload1.held hxok.page (Nat.mod_self _) hrun2
  have hload2 : Loadable s2 pgindex M2 rest := (hload1.alters halters).desk rfl (by rw [hdesk2])
  -- its frame is freed
  have hrefs : u32 (x.pages.refs + (2 ^ 32 - 1)) = 0 := by
    rw [hxok.refs]
    rfl
  rw [unrefAndFreeUpages, if_pos hrefs] at hfree
  obtain ⟨_, s5, hfree5, hkfree3⟩ := run_bind.mp hfree
  obtain ⟨hrun5, hdesk5⟩ := run_onPages hfree5
  have hpages : x.pages.toPages = ⟨x.pages.paddr, pageSize, 0⟩ := by
    rw [← hxok.psize, ← hxok.pflags]
  rw [hpages] at hrun5
  have hnone : ∀ {b mm'}, s2.desk.mms b = some mm' → mm'.pgindex = pgindex →
      x.pages.paddr ∉ mm'.vmas.map fun y => y.pages.paddr := by
    intro b mm' hb hpg'
    have ha : s2.desk.mms a = some { mm with vmas := mm.vmas.eraseIdx k } := by
      rw [hdesk2, hmms1, Function.update_self]
    obtain rfl := hload2.only hb ha hpg' hpg
    rw [ha] at hb
    cases hb
    exact hgone
  have hload5 : Loadable s5 pgindex M2 (rest.erase x.pages.paddr) :=
    (hload2.free hxok.frame hmemf hdirf hnone hrun5).desk rfl (by rw [hdesk5])
  obtain ⟨hp3, hm3, hc3⟩ := run_kfree hkfree3
  obtain ⟨hp4, hm4, hc4⟩ := run_kfree hkfree
  have hload4 := (hload5.desk hp3 hm3).desk hp4 hm4
  refine ⟨⟨?_, M2, _, hload4, fun w hw => halters.other w fun hin => hw ?_⟩, ?_⟩
  · rw [hc4, hc3, hdesk5, hdesk2, hcur1]
  · rw [hstart] at hin
    exact hin.part hi hlt
  · rw [hm4, hm3, hdesk5, hdesk2, hmms1, Function.update_self]

/-- **The loop of `__unmap_and_free_vma`**, on VMAs that follow each other from `addr + i` on. -/
theorem Loadable.unmapAndFreeLoop (h : Loadable s pgindex M rest) (hmm : s.desk.mms a = some mm)
    (hpg : mm.pgindex = pgindex) (hi : i % pageSize = 0) (hsize : size % pageSize = 0)
    (hbound : size < 2 ^ 32) (hstarts : ∀ n x, i + n * pageSize < size → mm.vmas[k + n]? = some x →
      x.start = u32 (addr + (i + n * pageSize)))
    (hrun : unmapAndFreeLoop physOps a k size fuel i s = .ok ((), s')) :
    Leaves pgindex (Within addr size) M s s' := by
  induction fuel generalizing s M rest i mm with
  | zero =>
    rw [AimKernel.unmapAndFreeLoop.eq_def] at hrun
    split at hrun
    · cases hrun
    · obtain ⟨-, rfl⟩ := run_pure.mp hrun
      exact .refl h
  | succ fuel ih =>
    rw [AimKernel.unmapAndFreeLoop] at hrun
    split at hrun
    · rename_i hlt
      obtain ⟨mm', _, hget, hrun⟩ := run_bind.mp hrun
      obtain ⟨rfl, hmm'⟩ := run_getMm hget
      obtain rfl := Option.some.inj (hmm.symm.trans hmm')
      cases hx : mm.vmas[k]? with
      | none =>
        rw [hx] at hrun
        cases hrun
      | some x =>
        rw [hx] at hrun
        obtain ⟨_, s1, hset, hrun⟩ := run_bind.mp hrun
        obtain ⟨⟨unmapped, pa⟩, s2, hunmap, hrun⟩ := run_bind.mp hrun
        dsimp only at hrun
        split at hrun
        · cases hrun
        · obtain ⟨_, s3, hfree, hrun⟩ := run_bind.mp hrun
          obtain ⟨_, s4, hkfree, hrun⟩ := run_bind.mp hrun
          have hstart : x.start = u32 (addr + i) := by
            simpa using hstarts 0 x (by simpa using hlt) hx
          obtain ⟨hleaves, hmm4⟩ :=
            h.round hmm hpg hi hlt hx hstart hset hunmap hfree hkfree
          have hxsize : x.size = pageSize :=
            ((h.vmas hmm hpg).vma x (List.mem_of_getElem? hx)).size
          have hnext : u32 (i + x.size) = i + pageSize := by
            unfold u32
            unfold pageSize at *
            omega
          rw [hnext] at hrun
          refine hleaves.trans fun M4 rest4 hload => ?_
          refine ih hload hmm4 hpg (by rw [Nat.add_mod_right]; exact hi) ?_ hrun
          intro n y hn hy
          have hsucc : i + pageSize + n * pageSize = i + (n + 1) * pageSize := by
            rw [Nat.succ_mul]
            omega
          rw [hsucc] at hn ⊢
          apply hstarts (n + 1) y hn
          rw [← hy]
          exact (List.getElem?_eraseIdx_of_ge (Nat.le_add_right k n)).symm
    · obtain ⟨-, rfl⟩ := run_pure.mp hrun
      exact .refl h

/-- The VMAs that `__find_continuous_vma` has gone past follow each other. -/
theorem continuousLoop_starts (hi : i % pageSize = 0) (hlen : len % pageSize = 0)
    (hbound : len < 2 ^ 32) (h : continuousLoop sent vmas addr len fuel i k = .ok true)
    (hn : i + n * pageSize < len) (hx : vmas[k + 1 + n]? = some x) :
    x.start = u32 (addr + (i + n * pageSize)) := by
  induction fuel generalizing i k n with
  | zero =>
    rw [continuousLoop.eq_def, if_pos (by omega)] at h
    cases h
  | succ fuel ih =>
    have hk : nextEntry vmas k = k + 1 := by
      obtain ⟨hlt, -⟩ := List.getElem?_eq_some_iff.mp hx
      exact if_neg (by omega)
    rw [continuousLoop, if_pos (by omega)] at h
    dsimp only at h
    rw [hk] at h
    split at h
    · cases h
    · rename_i hstart
      cases n with
      | zero =>
        have hsame : startAt sent vmas (k + 1) = x.start := by
          unfold startAt
          rw [show vmas[k + 1]? = some x from hx]
          rfl
        rw [← hsame, not_not.mp hstart, Nat.zero_mul, Nat.add_zero]
      | succ n =>
        have hsucc : i + (n + 1) * pageSize = i + pageSize + n * pageSize := by
          rw [Nat.succ_mul]
          omega
        have hnext : u32 (i + pageSize) = i + pageSize := by
          unfold u32
          unfold pageSize at *
          omega
        rw [hnext] at h
        rw [hsucc] at hn ⊢
        have hidx : k + 1 + 1 + n = k + 1 + (n + 1) := by omega
        refine ih (by rw [Nat.add_mod_right]; exact hi) h hn ?_
        rw [hidx]
        exact hx

theorem findContinuousVma_starts (haddr : addr < 2 ^ 32) (hbound : len < 2 ^ 32)
    (h : findContinuousVma sent vmas addr len = .ok (some k)) (hn : n * pageSize < len)
    (hx : vmas[k + n]? = some x) :
    x.start = u32 (addr + n * pageSize) := by
  unfold findContinuousVma at h
  split at h
  · cases h
  · split at h
    · cases h
    · rename_i hlen
      dsimp only at h
      split at h
      · cases h
      · rename_i hfound
        cases hloop : continuousLoop sent vmas addr len maxPages pageSize
            (vmas.findIdx fun vma => vma.start == addr) with
        | error e =>
          rw [hloop] at h
          cases h
        | ok b =>
          rw [hloop] at h
          cases b with
          | false => cases h
          | true =>
            cases h
            cases n with
            | zero =>
              obtain ⟨hlt, rfl⟩ := List.getElem?_eq_some_iff.mp hx
              have hstart := @List.findIdx_getElem _ (fun vma => vma.start == addr) vmas hlt
              have hu : u32 (addr + 0 * pageSize) = addr := by
                exact Nat.mod_eq_of_lt haddr
              rw [hu]
              exact eq_of_beq hstart
            | succ n =>
              have hsucc : (n + 1) * pageSize = pageSize + n * pageSize := by
                rw [Nat.succ_mul]
                omega
              rw [hsucc] at hn ⊢
              refine continuousLoop_starts (Nat.mod_self _) (not_not.mp hlen) hbound hloop hn ?_
              rw [Nat.add_right_comm]
              exact hx

/-- **`destroy_uvm`** changes entries of its range only. -/
theorem Loadable.destroyUvm (h : Loadable s pgindex M rest) (hmm : s.desk.mms a = some mm)
    (hpg : mm.pgindex = pgindex) (haddr : addr < 2 ^ 32) (hlen : len < 2 ^ 32)
    (hrun : AimKernel.destroyUvm physOps sent a addr len s = .ok (r, s')) :
    Leaves pgindex (Within addr len) M s s' := by
  rw [AimKernel.destroyUvm] at hrun
  split at hrun
  · obtain ⟨-, rfl⟩ := run_pure.mp hrun
    exact .refl h
  · rename_i hargs
    obtain ⟨hlen0, -, -⟩ := range_args hargs
    obtain ⟨mm', _, hget, hrun⟩ := run_bind.mp hrun
    obtain ⟨rfl, hmm'⟩ := run_getMm hget
    obtain rfl := Option.some.inj (hmm.symm.trans hmm')
    obtain ⟨found, _, hfind, hrun⟩ := run_bind.mp hrun
    obtain ⟨hfound, rfl⟩ := run_lift hfind
    cases found with
    | none =>
      obtain ⟨-, rfl⟩ := run_pure.mp hrun
      exact .refl h
    | some k =>
      obtain ⟨_, s1, hloop, hrun⟩ := run_bind.mp hrun
      obtain ⟨-, rfl⟩ := run_pure.mp hrun
      refine h.unmapAndFreeLoop hmm hpg (Nat.zero_mod _) hlen0 hlen ?_ hloop
      intro n x hn hx
      rw [Nat.zero_add] at hn ⊢
      exact findContinuousVma_starts haddr hlen hfound hn hx

/-- The loop of `set_uvm_perm`, `i` bytes into the range. -/
theorem Loadable.setUvmPermLoop (h : Loadable s pgindex M rest) (hmm : s.desk.mms a = some mm)
    (hpg : mm.pgindex = pgindex) (haddr : addr % pageSize = 0) (hi : i % pageSize = 0)
    (hrun : setUvmPermLoop physOps a k len flags fuel i (u32 (addr + i)) s = .ok (r, s')) :
    Leaves pgindex (Within addr len) M s s' := by
  induction fuel generalizing s M i mm with
  | zero =>
    rw [AimKernel.setUvmPermLoop.eq_def] at hrun
    split at hrun
    · cases hrun
    · obtain ⟨-, rfl⟩ := run_pure.mp hrun
      exact .refl h
  | succ fuel ih =>
    rw [AimKernel.setUvmPermLoop] at hrun
    split at hrun
    · rename_i hlt
      obtain ⟨mm', s₀, hget, hrun⟩ := run_bind.mp hrun
      obtain ⟨hs0, hmm'⟩ := run_getMm hget
      obtain rfl := Option.some.inj (hmm.symm.trans hmm')
      rw [hs0] at hrun
      obtain ⟨_, s1, hset, hrun⟩ := run_bind.mp hrun
      obtain ⟨retcode, s2, hperm, hrun⟩ := run_bind.mp hrun
      have hload1 := h.setVmas hmm hpg ((h.vmas hmm hpg).modify k flags)
      rw [← run_setMm hset] at hload1
      have hcur1 : s1.desk.currentPgdir = s.desk.currentPgdir := by rw [run_setMm hset]; rfl
      obtain ⟨hrun2, hdesk2⟩ := run_onPages hperm
      rw [hpg] at hrun2
      obtain ⟨M2, halters⟩ := run_setPagesPerm hload1.held (page_add haddr hi) hrun2
      have hload2 : Loadable s2 pgindex M2 rest := (hload1.alters halters).desk rfl (by rw [hdesk2])
      have hmm2 : s2.desk.mms a =
          some { mm with vmas := mm.vmas.modify k fun vma => { vma with flags := flags } } := by
        rw [hdesk2, run_setMm hset]
        exact Function.update_self ..
      have hround : Leaves pgindex (Within addr len) M s s2 :=
        ⟨by rw [hdesk2, hcur1], M2, rest, hload2,
          fun w hw => halters.other w fun hin => hw (hin.part hi hlt)⟩
      split at hrun
      · obtain ⟨-, rfl⟩ := run_pure.mp hrun
        exact hround
      · have hnext : u32 (u32 (addr + i) + pageSize) = u32 (addr + u32 (i + pageSize)) := by
          unfold u32
          omega
        have hi' : u32 (i + pageSize) % pageSize = 0 := by
          unfold u32
          unfold pageSize at *
          omega
        rw [hnext] at hrun
        obtain ⟨hcur, M', rest', hload', hother⟩ := ih hload2 hmm2 hpg hi' hrun
        exact ⟨hcur.trans hround.1, M', rest', hload', fun w hw =>
          (hother w hw).trans (halters.other w fun hin => hw (hin.part hi hlt))⟩
    · obtain ⟨-, rfl⟩ := run_pure.mp hrun
      exact .refl h

/-- **`set_uvm_perm`** changes entries of its range only. -/
theorem Loadable.setUvmPerm (h : Loadable s pgindex M rest) (hmm : s.desk.mms a = some mm)
    (hpg : mm.pgindex = pgindex) (haddr : addr < 2 ^ 32)
    (hrun : AimKernel.setUvmPerm physOps sent a addr len flags s = .ok (r, s')) :
    Leaves pgindex (Within addr len) M s s' := by
  rw [AimKernel.setUvmPerm] at hrun
  split at hrun
  · obtain ⟨-, rfl⟩ := run_pure.mp hrun
    exact .refl h
  · rename_i hargs
    obtain ⟨-, -, haddr0⟩ := range_args hargs
    obtain ⟨mm', _, hget, hrun⟩ := run_bind.mp hrun
    obtain ⟨rfl, hmm'⟩ := run_getMm hget
    obtain rfl := Option.some.inj (hmm.symm.trans hmm')
    obtain ⟨found, _, hfind, hrun⟩ := run_bind.mp hrun
    obtain ⟨-, rfl⟩ := run_lift hfind
    cases found with
    | none =>
      obtain ⟨-, rfl⟩ := run_pure.mp hrun
      exact .refl h
    | some k =>
      have hu : u32 (addr + 0) = addr := Nat.mod_eq_of_lt haddr
      exact h.setUvmPermLoop hmm hpg haddr0 (Nat.zero_mod _) (by rw [hu]; exact hrun)

end Calls

/-! ### Runs -/

section Runs

variable {s s' : Cpu} {M : PageMap} {rest : List Nat} {P : Nat → Prop}

/-- The invariant of the runs. -/
structure TlbInv (s : Cpu) : Prop where
  loadable : ∃ M rest, Loadable s.vm s.getPgindex M rest
  coherent : Coherent s.vm.pages.mem s.getPgindex s.tlb

theorem TlbInv.load {pgindex : Nat} (h : ∃ M rest, Loadable s.vm pgindex M rest) :
    TlbInv (s.switchPgindex pgindex) where
  loadable := by
    obtain ⟨M, rest, hload⟩ := h
    exact ⟨M, rest, hload.desk rfl rfl⟩
  coherent e he := absurd he List.not_mem_nil

/-- A call that leaves the entries of what is cached. -/
theorem TlbInv.leaves {vm : Vm Phys} (h : TlbInv s) (hload : Loadable s.vm s.getPgindex M rest)
    (hleaves : Leaves s.getPgindex P M s.vm vm) (hcached : ∀ e ∈ s.tlb, ∀ v, e.Caches v → ¬ P v) :
    TlbInv { s with vm := vm } := by
  obtain ⟨hcur, M', rest', hload', hother⟩ := hleaves
  have hpg : Cpu.getPgindex { s with vm := vm } = s.getPgindex := hcur
  refine ⟨⟨M', rest', hpg ▸ hload'⟩, ?_⟩
  intro e he v hv
  rw [hpg, h.coherent e he v hv, hload.held.shows.pte, hload'.held.shows.pte,
    hother v (hcached e he v hv)]

theorem not_cached {tlb : List TlbEntry} {addr len : Nat} (h : ¬ Cached tlb addr len) :
    ∀ e ∈ tlb, ∀ v, e.Caches v → ¬ Within addr len v :=
  fun e he v hv hin => h ⟨e, he, v, hv, hin⟩

theorem TlbInv.cached_ne_zero (h : TlbInv s) (hload : Loadable s.vm s.getPgindex M rest) :
    ∀ e ∈ s.tlb, ∀ v, e.Caches v → ¬ M.pte v = 0 := by
  intro e he v hv hzero
  have hhalf := h.coherent e he v hv
  rw [hload.held.shows.pte, hzero] at hhalf
  have hvalid := hv.valid
  rw [hhalf] at hvalid
  exact absurd hvalid (by decide)

/-- **One step.** -/
theorem TlbInv.step (h : TlbInv s) {act : TlbAction} (hadm : Evicted s act)
    (hstep : TlbStep s act s') : TlbInv s' := by
  obtain ⟨M, rest, hload⟩ := h.loadable
  cases hstep with
  | @miss va e hentry =>
    refine ⟨h.loadable, ?_⟩
    intro e' he' v hv
    cases List.mem_cons.mp he' with
    | inl heq =>
      subst heq
      have hhalf := tlbEntry_half hload.held.shows hentry hv.page hv.pair
      rw [← hload.held.shows.pte] at hhalf
      exact hhalf
    | inr hin => exact h.coherent e' hin v hv
  | switchPgindex hnew => exact .load hnew
  | mapPages hv hrun =>
    exact h.leaves hload (hload.leaves (run_mapPages_within hload.held hv hrun))
      (h.cached_ne_zero hload)
  | unmapPages hv hsize hrun =>
    exact h.leaves hload (hload.leaves (run_unmapPages_within hload.held hv hsize hrun))
      (not_cached hadm)
  | setPagesPerm hv hrun =>
    exact h.leaves hload (hload.leaves (run_setPagesPerm hload.held hv hrun)) (not_cached hadm)
  | destroyUvm hmm hpg haddr hlen hrun =>
    exact h.leaves hload (hload.destroyUvm hmm hpg haddr hlen hrun) (not_cached hadm)
  | setUvmPerm hmm hpg haddr hrun =>
    exact h.leaves hload (hload.setUvmPerm hmm hpg haddr hrun) (not_cached hadm)
  | other htlb hpg hpte hnew =>
    refine ⟨hpg ▸ hnew, ?_⟩
    rw [hpg, htlb]
    intro e he v hv
    rw [hpte]
    exact h.coherent e he v hv

end Runs

/-- **Coherence.** As long as no call changes the entry of a page that is cached, every entry of the
translation cache agrees with the loaded page index. -/
theorem tlb_coherent {s : Cpu} (h : TlbReach Evicted s) :
    Coherent s.vm.pages.mem s.getPgindex s.tlb := by
  have hinv : TlbInv s := by
    induction h with
    | load hload => exact .load hload
    | step _ hadm hstep ih => exact ih.step hadm hstep
  exact hinv.coherent

/-- A page index that is not anybody's address space. -/
theorem PgIndex.loadable {s : Vm Phys} {pgindex : Nat} (h : PgIndex s.pages pgindex)
    (hnodup : s.pages.frames.Nodup) (hmms : ∀ a, s.desk.mms a = none) :
    ∃ M rest, Loadable s pgindex M rest := by
  obtain ⟨rest, hheld⟩ := h.held
  refine ⟨_, rest, hheld, ?_, ?_, ?_⟩
  · intro i f hf
    have hleaf := PageMap.mem_leafFrames (hheld.leaf_lt hf) hf
    exact List.disjoint_of_nodup_append (hheld.frames.nodup_iff.mp hnodup) hleaf
  · intro a mm hmm
    rw [hmms a] at hmm
    cases hmm
  · intro a b mm mm' hmm
    rw [hmms a] at hmm
    cases hmm

/-- One page mapped at `0x400000`, and the page index loaded. -/
def mappedCpu : Cpu :=
  Cpu.switchPgindex ⟨⟨mappedIndex pageSize, ⟨[], [], fun _ => none, 0, none, 0⟩⟩, []⟩ 0x80001000

theorem mappedCpu_reach (Admitted : Cpu → TlbAction → Prop) : TlbReach Admitted mappedCpu :=
  .load (PgIndex.loadable mappedIndex_pgIndex (by decide +kernel) fun _ => rfl)

/-- The entry of that page. -/
def mappedEntry : TlbEntry := ⟨0x200, 0x15f, 0⟩

theorem mappedCpu_miss :
    tlbEntry mappedCpu.vm.pages.mem mappedCpu.getPgindex 0x400000 = some mappedEntry := by
  decide +kernel

/-- The page has been missed and is cached. -/
def cachedCpu : Cpu := { mappedCpu with tlb := [mappedEntry] }

theorem cachedCpu_reach {Admitted : Cpu → TlbAction → Prop}
    (hadm : Admitted mappedCpu (.miss 0x400000)) : TlbReach Admitted cachedCpu :=
  .step (mappedCpu_reach Admitted) hadm (.miss mappedCpu_miss)

/-- After a miss, the flags of a page that is not cached are changed. -/
theorem tlb_coherent_one_page :
    Coherent (after (setPagesPerm 0x80001000 0x402000 pageSize 0) (mappedIndex pageSize)).mem
      0x80001000 [mappedEntry] := by
  have hrun : setPagesPerm 0x80001000 0x402000 pageSize 0 (mappedIndex pageSize) =
      .ok (0, after (setPagesPerm 0x80001000 0x402000 pageSize 0) (mappedIndex pageSize)) :=
    run_after_eq (by decide +kernel)
  have hstep : TlbStep cachedCpu (.setPagesPerm 0x402000 pageSize 0) _ :=
    .setPagesPerm ⟨by decide, by decide⟩ hrun
  refine tlb_coherent (.step (cachedCpu_reach trivial) ?_ hstep)
  rintro ⟨e, he, v, hv, k, hk, rfl⟩
  obtain rfl := List.mem_singleton.mp he
  have hpair : u32 (0x402000 + k * pageSize) / 2 ^ 13 = 0x200 := hv.pair
  unfold u32 at hpair
  unfold pageSize at hk hpair
  omega

/-- The entry is stale once that of the page index is another one. -/
theorem mappedEntry_stale {m : Mem} {pgindex pte : Nat} (hpte : pteAt m pgindex 0x400000 = pte)
    (hne : softPte pte ≠ 0x15f) : ¬ Coherent m pgindex [mappedEntry] := by
  intro h
  have hhalf := h mappedEntry List.mem_cons_self 0x400000 ⟨⟨by decide, by decide⟩, rfl, by decide⟩
  rw [hpte] at hhalf
  exact hne hhalf.symm

/-- `unmap_pages` or `set_pages_perm` of a cached page: the entry still translates it to the frame,
and still lets it be written. -/
theorem stale_after_unmap :
    (∃ s, TlbReach (fun _ _ => True) s ∧ mappedEntry ∈ s.tlb ∧
        pteAt s.vm.pages.mem s.getPgindex 0x400000 = 0 ∧
        ¬ Coherent s.vm.pages.mem s.getPgindex s.tlb) ∧
      ∃ s, TlbReach (fun _ _ => True) s ∧ mappedEntry ∈ s.tlb ∧
        pteAt s.vm.pages.mem s.getPgindex 0x400000 = 0x5000 ||| pgtablePerm 0 ∧
        ¬ Coherent s.vm.pages.mem s.getPgindex s.tlb := by
  have hreach : TlbReach (fun _ _ => True) cachedCpu := cachedCpu_reach trivial
  have hpage : IsPage 0x400000 := ⟨by decide, by decide⟩
  constructor
  · obtain ⟨_, hrun⟩ := run_after (m := unmapPages 0x80001000 0x400000 pageSize)
      (s := mappedIndex pageSize) (by decide +kernel)
    have hpte : pteAt (after (unmapPages 0x80001000 0x400000 pageSize) (mappedIndex pageSize)).mem
        0x80001000 0x400000 = 0 := by decide +kernel
    exact ⟨_, .step hreach trivial (.unmapPages hpage (by decide) hrun), List.mem_cons_self, hpte,
      mappedEntry_stale hpte (by decide)⟩
  · obtain ⟨_, hrun⟩ := run_after (m := setPagesPerm 0x80001000 0x400000 pageSize 0)
      (s := mappedIndex pageSize) (by decide +kernel)
    have hpte : pteAt (after (setPagesPerm 0x80001000 0x400000 pageSize 0) (mappedIndex pageSize)).mem
        0x80001000 0x400000 = 0x5000 ||| pgtablePerm 0 := by decide +kernel
    exact ⟨_, .step hreach trivial (.setPagesPerm hpage hrun), List.mem_cons_self, hpte,
      mappedEntry_stale hpte (by decide)⟩

end AimKernel
