import AimKernel.Mm.PgTableRange
import AimKernel.Mm.UvmRuns

/-!
# AimKernel.Mm.CopyFill

Copying to and from user memory, and filling it.

`__copy_fill_uvm` follows the page index of the address space from page to page
(`copyFillLoop`), unless that is the loaded one. Then the kernel accesses the user addresses
themselves and the hardware translates them through the same page index; the accesses are
taken together page by page (`userLoop`), and one that the entry does not allow is a fault.

Whatever the arguments are, a call that writes to user memory stays inside the frames that
the entries of its page index name (`Confined`). An entry of zero names the page at physical
address zero. It is followed if the list sentinel passes for a VMA, and what lies there is
the kernel's as long as the page is not handed out.
-/

namespace AimKernel

/-! ### Addresses -/

/-- `PTR_ALIGN_ABOVE(p, PAGE_SIZE)`. -/
def ptrAlignAbove (p : Nat) : Nat := u32 (ptrAlignBelow (u32 (p + (2 ^ 32 - 1))) + pageSize)

/-- `PTR_ALIGN_NEXT(p, PAGE_SIZE)`. -/
def ptrAlignNext (p : Nat) : Nat := ptrAlignAbove (u32 (p + 1))

/-- The length of the piece from `start` to the next page or the end. -/
def pieceLen (start stop : Nat) : Nat := u32 (min (ptrAlignNext start) stop + (2 ^ 32 - start))

/-- A piece does not leave its page, not even the last one of the address space. -/
theorem pieceLen_le {start stop : Nat} (hlt : start < stop) (hstop : stop < 2 ^ 32) :
    start % pageSize + pieceLen start stop ≤ pageSize := by
  unfold pieceLen ptrAlignNext ptrAlignAbove ptrAlignBelow u32 pageSize
  omega

/-! ### The calls -/

/-- What `__copy_fill_uvm` is to do, by its arguments `fill` and `touser`. -/
inductive Access
  | fill (c : UInt8)
  | fromUser
  | toUser
  deriving Repr, DecidableEq

namespace Access

/-- Whether user memory is written. -/
def writes : Access → Bool
  | .fill _ => true
  | .fromUser => false
  | .toUser => true

/-- The `memset` or `memmove` of one piece. -/
def move (acc : Access) (m : Mem) (kuvaddr vaddr l : Nat) : Mem :=
  match acc with
  | .fill c => m.fill kuvaddr c l
  | .fromUser => m.copy vaddr kuvaddr l
  | .toUser => m.copy kuvaddr vaddr l

end Access

/-- The kernel address behind a user address while the page index is loaded: the walk of
`__tlb_entry`, and the check of the entry that the hardware makes. -/
def userAccess (pgindex uaddr : Nat) (write : Bool) : PhysM Nat := do
  let m := (← get).mem
  let pde := m.load32 (entry pgindex (pdx uaddr))
  let pte := m.load32 (entry pde (ptx uaddr))
  if pde = 0 ∨ pte &&& PTE_VALID = 0 ∨ (write = true ∧ pte &&& PTE_DIRTY = 0) then
    throw (.pageFault uaddr)
  else
    return pa2kva (ptePaddr pte ||| uaddr % pageSize)

/-- The `memset` or `memmove` on user addresses of the loaded page index. -/
def userLoop (pgindex : Nat) (acc : Access) (fuel left start vaddr : Nat) : PhysM Int :=
  if left = 0 then
    return 0
  else
    match fuel with
    | 0 => throw .diverge
    | fuel + 1 => do
        let kuvaddr ← userAccess pgindex start acc.writes
        let l := min left (pageSize - start % pageSize)
        modify fun s => { s with mem := acc.move s.mem kuvaddr vaddr l }
        userLoop pgindex acc fuel (left - l) (u32 (start + l)) (u32 (vaddr + l))

/-- The loop of `__copy_fill_uvm` that dives into the page table. -/
def copyFillLoop (pgindex : Nat) (acc : Access) (stop : Nat) (fuel start vaddr : Nat) :
    PhysM Int :=
  if start < stop then
    match fuel with
    | 0 => throw .diverge
    | fuel + 1 => do
        let kuvaddr ← uva2kva pgindex start
        let l := pieceLen start stop
        if kuvaddr = 0 then
          return -EACCES
        else
          modify fun s => { s with mem := acc.move s.mem kuvaddr vaddr l }
          copyFillLoop pgindex acc stop fuel (ptrAlignNext start) (u32 (vaddr + l))
  else
    return 0

/-- `__copy_fill_uvm`. -/
def copyFillUvm (sent : Sentinel) (a uvaddr vaddr : Nat) (acc : Access) (len : Nat) :
    VmM Phys Int := do
  let stop := u32 (uvaddr + len)
  let startPage := ptrAlignBelow uvaddr
  let endPage := ptrAlignAbove stop
  let mm ← getMm a
  match ← findContinuousVma sent mm.vmas startPage (u32 (endPage + (2 ^ 32 - startPage))) with
  | none => return -EFAULT
  | some _ =>
    let desk ← onDesk get
    if desk.currentMm = some a then
      -- the page table is already loaded
      if mm.pgindex ≠ desk.currentPgdir then
        throw (.assertion .loadedPgindex)
      else
        onPages (userLoop mm.pgindex acc (maxPages + 1) len uvaddr vaddr)
    else
      onPages (copyFillLoop mm.pgindex acc stop maxPages uvaddr vaddr)

/-- `copy_to_uvm`. -/
def copyToUvm (sent : Sentinel) (a uvaddr vaddr len : Nat) : VmM Phys Int :=
  copyFillUvm sent a uvaddr vaddr .toUser len

/-- `copy_from_uvm`. -/
def copyFromUvm (sent : Sentinel) (a uvaddr vaddr len : Nat) : VmM Phys Int :=
  copyFillUvm sent a uvaddr vaddr .fromUser len

/-- `fill_uvm`. -/
def fillUvm (sent : Sentinel) (a uvaddr : Nat) (c : UInt8) (len : Nat) : VmM Phys Int :=
  copyFillUvm sent a uvaddr 0 (.fill c) len

/-! ### Where a piece is written -/

theorem pa2kva_or {f o : Nat} (hf : IsFrame f) (ho : o < pageSize) :
    pa2kva (f ||| o) = pa2kva f + o := by
  have hor := entry_or hf (x := o) (by unfold pageSize at ho; omega)
  have hlow := hf.2
  rw [show u32 f = f from Nat.mod_eq_of_lt (by unfold lowramTop at hlow; omega)] at hor
  rw [hor, hf.pa2kva_eq, AimKernel.pa2kva_eq]
  · omega
  · unfold lowramTop pageSize kernBase at *
    omega

section Pieces

variable {p p' : Phys} {pgindex u kva : Nat} {M : PageMap}

/-- `uva2kva` fails where there is no leaf table, and follows the entry elsewhere. -/
theorem run_uva2kva (hshow : Shows p.mem pgindex M) (hu : u < 2 ^ 32)
    (h : uva2kva pgindex u p = .ok (kva, p')) :
    p' = p ∧ (kva = 0 ∨ kva = pa2kva (ptePaddr (M.pte (ptrAlignBelow u)) ||| u % pageSize)) := by
  obtain ⟨rfl, hkva⟩ := wp_run (wp_uva2kva hshow hu) h
  refine ⟨rfl, ?_⟩
  cases hl : M.leaf (pdx u) with
  | none => exact .inl (by rw [hkva, hl])
  | some f => exact .inr (by rw [hkva, hl])

theorem run_userAccess {write : Bool} (hshow : Shows p.mem pgindex M) (hu : u < 2 ^ 32)
    (h : userAccess pgindex u write p = .ok (kva, p')) :
    p' = p ∧ M.pte (ptrAlignBelow u) ≠ 0 ∧
      (write = true → M.pte (ptrAlignBelow u) &&& PTE_DIRTY ≠ 0) ∧
      kva = pa2kva (ptePaddr (M.pte (ptrAlignBelow u)) ||| u % pageSize) := by
  obtain ⟨q, p1, hget, hrest⟩ := run_bind.mp h
  cases hget
  split at hrest
  · cases hrest
  · next hok =>
    obtain ⟨rfl, rfl⟩ := run_pure.mp hrest
    obtain ⟨hpde, hrest⟩ := not_or.mp hok
    obtain ⟨hvalid, hdirty⟩ := not_or.mp hrest
    refine ⟨rfl, ?_⟩
    cases hl : M.leaf (pdx u) with
    | none =>
      exact absurd ((leafAt_eq_none (pdx_lt u)).mp ((congrFun hshow.leaf _).trans hl)) hpde
    | some f =>
      have hkva := hshow.tables.kva ((congrFun hshow.leaf _).trans hl)
      unfold pdeAt at hkva
      rw [hkva, hshow.load_pte hu hl] at hvalid hdirty ⊢
      refine ⟨fun hz => hvalid ?_, fun hw hz => hdirty ⟨hw, hz⟩, rfl⟩
      rw [hz]
      rfl

end Pieces

/-! ### Confinement -/

/-- Only frames in `W` have changed. -/
def Confined (W : Nat → Prop) (m m' : Mem) : Prop := ∀ f, IsFrame f → ¬ W f → Untouched m m' f

theorem Confined.refl (W : Nat → Prop) (m : Mem) : Confined W m m := fun f _ _ => .refl m f

theorem Confined.trans {W : Nat → Prop} {m m' m'' : Mem} (h : Confined W m m')
    (h' : Confined W m' m'') : Confined W m m'' :=
  fun f hf hw => (h f hf hw).trans (h' f hf hw)

/-- A frame that an entry of the page index names. -/
def Named (M : PageMap) (f : Nat) : Prop := ∃ v, ptePaddr (M.pte v) = f

theorem Access.move_confined {acc : Access} (hacc : acc.writes = true) {W : Nat → Prop} {m : Mem}
    {f o vaddr l : Nat} (hf : IsFrame f) (hw : W f) (hl : o + l ≤ pageSize) :
    Confined W m (acc.move m (pa2kva f + o) vaddr l) := by
  intro g hg hout
  have hne : f ≠ g := fun heq => hout (heq ▸ hw)
  have hapart : pa2kva f + o + l ≤ pa2kva g ∨ pa2kva g + pageSize ≤ pa2kva f + o := by
    have := hf.apart hg hne
    omega
  cases acc with
  | fill c => exact (Mem.SameOn.refl m _ _).fill hapart
  | fromUser => cases hacc
  | toUser => exact (Mem.SameOn.refl m _ _).copy hapart

section Loops

variable {pgindex : Nat} {M : PageMap} {acc : Access} {m₀ : Mem} {p p' : Phys} {retcode : Int}

/-- The kernel address behind a user address. -/
def PageMap.kva (M : PageMap) (u : Nat) : Nat :=
  pa2kva (ptePaddr (M.pte (ptrAlignBelow u)) ||| u % pageSize)

variable {I : Mem → Prop} {a fuel len start uvaddr vaddr : Nat} {s s' : Vm Phys} {sent : Sentinel}
  {mm : Mm}

/-- **The loop in the page table.** `I` holds of the memory and `J` of the user and the kernel
address at the head of every round. -/
theorem run_copyFillLoop_inv {J : Nat → Nat → Prop} {stop : Nat} (hstop : stop < 2 ^ 32)
    (hshow : ∀ m, I m → Shows m pgindex M)
    (hpiece : ∀ m u v, I m → J u v → u < stop → I (acc.move m (M.kva u) v (pieceLen u stop)))
    (hnext : ∀ u v, J u v → u < stop → J (ptrAlignNext u) (u32 (v + pieceLen u stop)))
    (hI : I p.mem) (hJ : J start vaddr)
    (hrun : copyFillLoop pgindex acc stop fuel start vaddr p = .ok (retcode, p')) :
    I p'.mem ∧ p' = { p with mem := p'.mem } := by
  induction fuel generalizing p start vaddr with
  | zero =>
    rw [copyFillLoop.eq_def] at hrun
    split at hrun
    · cases hrun
    · obtain ⟨-, rfl⟩ := run_pure.mp hrun
      exact ⟨hI, rfl⟩
  | succ fuel ih =>
    rw [copyFillLoop.eq_def] at hrun
    split at hrun
    · next hlt =>
      obtain ⟨kva, p1, hkva, h1⟩ := run_bind.mp hrun
      obtain ⟨rfl, hwhere⟩ := run_uva2kva (hshow _ hI) (Nat.lt_trans hlt hstop) hkva
      split at h1
      · obtain ⟨-, rfl⟩ := run_pure.mp h1
        exact ⟨hI, rfl⟩
      · next hne =>
        obtain ⟨_, p2, hmove, h2⟩ := run_bind.mp h1
        cases hmove
        rw [hwhere.resolve_left hne] at h2
        obtain ⟨hI', hp'⟩ := ih (hpiece _ _ _ hI hJ hlt) (hnext _ _ hJ hlt) h2
        exact ⟨hI', hp'⟩
    · obtain ⟨-, rfl⟩ := run_pure.mp hrun
      exact ⟨hI, rfl⟩

/-- **The accesses through the loaded page index.** They only get through where the entry is
valid. -/
theorem run_userLoop_inv {J : Nat → Nat → Nat → Prop} {left : Nat}
    (hshow : ∀ m, I m → Shows m pgindex M)
    (hpiece : ∀ m n u v, I m → J n u v → u < 2 ^ 32 → M.pte (ptrAlignBelow u) ≠ 0 →
      I (acc.move m (M.kva u) v (min n (pageSize - u % pageSize))))
    (hnext : ∀ n u v l, l ≤ n → J n u v → J (n - l) (u32 (u + l)) (u32 (v + l)))
    (hstart : start < 2 ^ 32) (hI : I p.mem) (hJ : J left start vaddr)
    (hrun : userLoop pgindex acc fuel left start vaddr p = .ok (retcode, p')) :
    I p'.mem ∧ p' = { p with mem := p'.mem } := by
  induction fuel generalizing p left start vaddr with
  | zero =>
    rw [userLoop.eq_def] at hrun
    split at hrun
    · obtain ⟨-, rfl⟩ := run_pure.mp hrun
      exact ⟨hI, rfl⟩
    · cases hrun
  | succ fuel ih =>
    rw [userLoop.eq_def] at hrun
    split at hrun
    · obtain ⟨-, rfl⟩ := run_pure.mp hrun
      exact ⟨hI, rfl⟩
    · dsimp only at hrun
      obtain ⟨kva, p1, hkva, h1⟩ := run_bind.mp hrun
      obtain ⟨rfl, hvalid, -, hwhere⟩ := run_userAccess (hshow _ hI) hstart hkva
      obtain ⟨_, p2, hmove, h2⟩ := run_bind.mp h1
      cases hmove
      rw [hwhere] at h2
      obtain ⟨hI', hp'⟩ := ih (Nat.mod_lt _ (by decide)) (hpiece _ _ _ _ hI hJ hstart hvalid)
        (hnext _ _ _ _ (Nat.min_le_left _ _) hJ) h2
      exact ⟨hI', hp'⟩

/-- **The whole call**: nothing is done, or one of the loops. -/
theorem run_copyFillUvm_cases (hmm : s.desk.mms a = some mm)
    (hrun : copyFillUvm sent a uvaddr vaddr acc len s = .ok (retcode, s')) :
    s'.desk = s.desk ∧ ∃ found, findContinuousVma sent mm.vmas (ptrAlignBelow uvaddr)
        (u32 (ptrAlignAbove (u32 (uvaddr + len)) + (2 ^ 32 - ptrAlignBelow uvaddr))) = .ok found ∧
      (found = none ∧ retcode = -EFAULT ∧ s' = s ∨
        (found ≠ none ∧ s.desk.currentMm = some a ∧ mm.pgindex = s.desk.currentPgdir ∧
          userLoop mm.pgindex acc (maxPages + 1) len uvaddr vaddr s.pages =
            .ok (retcode, s'.pages)) ∨
        found ≠ none ∧ s.desk.currentMm ≠ some a ∧
          copyFillLoop mm.pgindex acc (u32 (uvaddr + len)) maxPages uvaddr vaddr s.pages =
            .ok (retcode, s'.pages)) := by
  obtain ⟨mm', s1, hget, h1⟩ := run_bind.mp hrun
  obtain ⟨rfl, hmm'⟩ := run_getMm hget
  obtain rfl := Option.some.inj (hmm.symm.trans hmm')
  obtain ⟨found, s2, hfind, h2⟩ := run_bind.mp h1
  obtain ⟨hfound, rfl⟩ := run_lift hfind
  cases found with
  | none =>
    obtain ⟨hcode, rfl⟩ := run_pure.mp h2
    exact ⟨rfl, none, hfound, .inl ⟨rfl, hcode.symm, rfl⟩⟩
  | some k =>
    have hsome : some k ≠ none := Option.some_ne_none k
    obtain ⟨desk, s3, hdesk, h3⟩ := run_bind.mp h2
    cases hdesk
    split at h3
    · next hcur =>
      split at h3
      · cases h3
      · next hloaded =>
        obtain ⟨hloop, hsame⟩ := run_onPages h3
        exact ⟨hsame, some k, hfound, .inr (.inl ⟨hsome, hcur, not_not.mp hloaded, hloop⟩)⟩
    · next hcur =>
      obtain ⟨hloop, hsame⟩ := run_onPages h3
      exact ⟨hsame, some k, hfound, .inr (.inr ⟨hsome, hcur, hloop⟩)⟩

/-- The page index stays as it is while only frames that it names are written, and these
are frames. -/
structure Steady (m₀ : Mem) (pgindex : Nat) (M : PageMap) : Prop where
  shows : ∀ m, Confined (Named M) m₀ m → Shows m pgindex M
  frame : ∀ v, IsFrame (ptePaddr (M.pte v))

theorem Steady.piece (h : Steady m₀ pgindex M) (hacc : acc.writes = true) {m : Mem}
    (hin : Confined (Named M) m₀ m) {l : Nat} (hl : start % pageSize + l ≤ pageSize) :
    Confined (Named M) m₀ (acc.move m (M.kva start) vaddr l) := by
  have hframe := h.frame (ptrAlignBelow start)
  rw [PageMap.kva, pa2kva_or hframe (Nat.mod_lt _ (by decide))]
  exact hin.trans (Access.move_confined hacc hframe ⟨_, rfl⟩ hl)

theorem run_copyFillUvm (h : Steady m₀ mm.pgindex M) (hmm : s.desk.mms a = some mm)
    (hacc : acc.writes = true) (hu : uvaddr < 2 ^ 32) (hin : Confined (Named M) m₀ s.pages.mem)
    (hrun : copyFillUvm sent a uvaddr vaddr acc len s = .ok (retcode, s')) :
    s'.desk = s.desk ∧ Confined (Named M) m₀ s'.pages.mem := by
  obtain ⟨hdesk, found, -, hcases⟩ := run_copyFillUvm_cases hmm hrun
  refine ⟨hdesk, ?_⟩
  have hstop : u32 (uvaddr + len) < 2 ^ 32 := Nat.mod_lt _ (by decide)
  rcases hcases with ⟨-, -, rfl⟩ | ⟨-, -, -, hloop⟩ | ⟨-, -, hloop⟩
  · exact hin
  · refine (run_userLoop_inv (J := fun _ _ _ => True) h.shows ?_ (fun _ _ _ _ _ _ => trivial) hu hin
      trivial hloop).1
    intro m n u v hm _ _ _
    refine h.piece hacc hm ?_
    have := Nat.mod_lt u (show pageSize > 0 by decide)
    omega
  · refine (run_copyFillLoop_inv (J := fun _ _ => True) hstop h.shows ?_ (fun _ _ _ _ => trivial) hin
      trivial hloop).1
    intro m u v hm _ hlt
    exact h.piece hacc hm (pieceLen_le hlt hstop)

end Loops

/-! ### Runs of writes -/

/-- A call that writes to user memory. -/
inductive UserWrite
  | copyTo (sent : Sentinel) (uvaddr : UInt32) (vaddr len : Nat)
  | fill (sent : Sentinel) (uvaddr : UInt32) (c : UInt8) (len : Nat)

/-- What the call does. -/
def UserWrite.run (a : Nat) : UserWrite → VmM Phys Int
  | .copyTo sent uvaddr vaddr len => copyToUvm sent a uvaddr.toNat vaddr len
  | .fill sent uvaddr c len => fillUvm sent a uvaddr.toNat c len

/-- Calls on one address space, one after the other. -/
def writeAll (a : Nat) (ws : List UserWrite) : VmM Phys Unit :=
  ws.forM fun w => do
    let _ ← w.run a
    return ()

theorem run_writeAll {m₀ : Mem} {M : PageMap} {s s' : Vm Phys} {a : Nat} {mm : Mm}
    {ws : List UserWrite} (h : Steady m₀ mm.pgindex M) (hmm : s.desk.mms a = some mm)
    (hin : Confined (Named M) m₀ s.pages.mem) (hrun : writeAll a ws s = .ok ((), s')) :
    Confined (Named M) m₀ s'.pages.mem := by
  induction ws generalizing s with
  | nil =>
    obtain ⟨-, rfl⟩ := run_pure.mp hrun
    exact hin
  | cons w ws ih =>
    obtain ⟨_, s1, hone, hrest⟩ := run_bind.mp hrun
    obtain ⟨retcode, s2, hw, hone⟩ := run_bind.mp hone
    obtain ⟨-, rfl⟩ := run_pure.mp hone
    have hstep : s2.desk = s.desk ∧ Confined (Named M) m₀ s2.pages.mem := by
      cases w with
      | copyTo sent uvaddr vaddr len => exact run_copyFillUvm h hmm rfl uvaddr.toNat_lt hin hw
      | fill sent uvaddr c len => exact run_copyFillUvm h hmm rfl uvaddr.toNat_lt hin hw
    exact ih (hstep.1 ▸ hmm) hstep.2 hrest

/-! ### What others see -/

/-- The byte that a user address reads through a page index. -/
def userByte (m : Mem) (pgindex v : Nat) : Option UInt8 :=
  let pte := pteAt m pgindex (ptrAlignBelow v)
  if pte = 0 then none else some (m (pa2kva (ptePaddr pte ||| v % pageSize)))

section Isolation

variable {base baseObjs : List Nat} {s s' : Vm Phys} {a b : Nat} {mm mm' : Mm}

/-- Frames that back pages of address spaces. -/
theorem Good.backed {t : Vm Books} {M : PageMap} (h : Good base baseObjs t.desk.mms t)
    (hmm : t.desk.mms a = some mm) (hM : t.pages.indexes mm.pgindex = some M) {v : Nat}
    (hv : M.pte v ≠ 0) :
    ∃ x ∈ mm.vmas, x.start = v ∧ ptePaddr (M.pte v) = x.pages.paddr ∧ x.OK ∧
      x.pages.paddr ∈ t.pages.plain := by
  have hok := h.inv.spaces.ok hmm hM
  obtain ⟨x, hx, rfl⟩ := hok.backed v hv
  exact ⟨x, hx, rfl, (hok.mapped x hx).2, hok.vma x hx,
    h.inv.user.mem_of_role (hok.userRole_start hmm hx)⟩

/-- **Isolation.** Writes to the user memory of one address space leave every byte that is
readable through another one as it is. -/
theorem Kempt.isolated {ws : List UserWrite} (h : Kempt base baseObjs s)
    (hmm : s.desk.mms a = some mm) (hmm' : s.desk.mms b = some mm') (hne : a ≠ b)
    (hzero : 0 ∉ s.pages.frames) (hrun : writeAll a ws s = .ok ((), s')) (v : Nat) :
    userByte s'.pages.mem mm'.pgindex v = userByte s.pages.mem mm'.pgindex v := by
  obtain ⟨t, hrel, hgood⟩ := h
  rw [hrel.2] at hmm hmm'
  obtain ⟨M, hM, -⟩ := hgood.inv.spaces.space hmm
  obtain ⟨N, hN, -⟩ := hgood.inv.spaces.space hmm'
  have hzero' : 0 ∉ t.pages.frames := hrel.1.frames ▸ hzero
  -- what the page index names is one of its pages, or the page at zero
  have hnamed : ∀ f, Named M f → f = 0 ∨ ∃ x ∈ mm.vmas, f = x.pages.paddr ∧ x.OK ∧ f ∈ t.pages.plain := by
    rintro f ⟨w, rfl⟩
    by_cases hw : M.pte w = 0
    · rw [hw]
      exact .inl rfl
    · obtain ⟨x, hx, -, hpaddr, hshape, hplain⟩ := hgood.backed hmm hM hw
      exact .inr ⟨x, hx, hpaddr, hshape, hpaddr ▸ hplain⟩
  have htable : ∀ {q slot f}, tableRole t.pages.indexes (q, slot) = some f → ¬ Named M f := by
    intro q slot f hf hw
    rcases hnamed f hw with rfl | ⟨x, -, -, -, hplain⟩
    · exact hzero' (hrel.1.owned.mem_of_role hf)
    · exact hrel.1.owned.apart hf hplain
  have hkeep : ∀ {q L}, t.pages.indexes q = some L → ∀ m, Confined (Named M) s.pages.mem m →
      Shows m q L := by
    intro q L hL m hin
    have hshow := hrel.1.index hL
    refine hshow.keep ?_ fun i f hf => ?_
    · exact hin _ hshow.tables.dir (htable (tableRole_dir hL))
    · exact hin f (hrel.1.leaf_isFrame hL hf) (htable ((tableRole_leaf hL i).trans hf))
  have hframe : ∀ w, IsFrame (ptePaddr (M.pte w)) := by
    intro w
    rcases hnamed _ ⟨w, rfl⟩ with hz | ⟨x, -, hpaddr, hshape, -⟩
    · rw [hz]
      decide
    · rw [hpaddr]
      exact hshape.frame
  have hconf := run_writeAll ⟨hkeep hM, hframe⟩ (hrel.2 ▸ hmm) (.refl _ _) hrun
  -- the other page index, and the frame behind the address
  have hpte : pteAt s'.pages.mem mm'.pgindex = N.pte := (hkeep hN _ hconf).pte
  have hpte0 : pteAt s.pages.mem mm'.pgindex = N.pte := (hrel.1.index hN).pte
  unfold userByte
  rw [hpte, hpte0]
  by_cases hv : N.pte (ptrAlignBelow v) = 0
  · rw [if_pos hv, if_pos hv]
  · obtain ⟨y, hy, -, hpaddr, hshape, hplain⟩ := hgood.backed hmm' hN hv
    have hout : ¬ Named M y.pages.paddr := by
      intro hw
      rcases hnamed _ hw with hz | ⟨x, hx, heq, hxshape, -⟩
      · exact hzero' (hz ▸ hrel.1.plain_mem hplain)
      · refine hne (hgood.unshared a b mm mm' x y y.pages.paddr hmm hmm' hx hy ?_ ?_).1
        · rw [hxshape.psize, block_page, heq]
          exact List.mem_singleton_self _
        · rw [hshape.psize, block_page]
          exact List.mem_singleton_self _
    have hlow : v % pageSize < pageSize := Nat.mod_lt _ (by decide)
    rw [if_neg hv, if_neg hv, hpaddr, pa2kva_or hshape.frame hlow]
    exact congrArg some (hconf _ hshape.frame hout _ (Nat.le_add_right _ _) (by omega))

end Isolation

end AimKernel
