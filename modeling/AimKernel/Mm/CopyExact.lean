import AimKernel.Mm.NoLeak
import AimKernel.Mm.PageIndex
import AimKernel.Mm.UvmPerm

/-!
# AimKernel.Mm.CopyExact

What `copy_to_uvm`, `copy_from_uvm` and `fill_uvm` transfer.

Byte `i` of a range lies at the kernel address that the page index gives for `uvaddr + i`
(`PageMap.kva`). A call transfers each byte to or from there and changes nothing else
(`Transferred`), whether it follows the page index from page to page or lets the hardware do
it. Both loops go through the range in pieces, and each piece is consecutive on both sides;
that the bytes still to be read have not been overwritten and those written stay as they are
is what `Route` is for: the pages have frames of their own, and the kernel's buffer is apart from
them and from the page tables.
-/

namespace AimKernel

/-! ### The transfer -/

namespace Access

/-- Whether the kernel's buffer is used. -/
def buffered : Access → Bool
  | .fill _ => false
  | .fromUser => true
  | .toUser => true

/-- Where byte `i` is written. -/
def dst (acc : Access) (kva : Nat → Nat) (vaddr i : Nat) : Nat :=
  match acc with
  | .fill _ => kva i
  | .fromUser => vaddr + i
  | .toUser => kva i

theorem dst_cases {P : Nat → Prop} (acc : Access) {kva : Nat → Nat} {vaddr i : Nat}
    (hpage : P (kva i)) (hbuf : acc.buffered = true → P (vaddr + i)) : P (acc.dst kva vaddr i) := by
  cases acc with
  | fill c => exact hpage
  | fromUser => exact hbuf rfl
  | toUser => exact hpage

/-- What is written there, in terms of the memory before the call. -/
def byte (acc : Access) (kva : Nat → Nat) (vaddr : Nat) (m : Mem) (i : Nat) : UInt8 :=
  match acc with
  | .fill c => c
  | .fromUser => m (kva i)
  | .toUser => m (vaddr + i)

/-- The call that the access stands for. -/
def call (acc : Access) (sent : Sentinel) (a uvaddr vaddr len : Nat) : VmM Phys Int :=
  match acc with
  | .fill c => fillUvm sent a uvaddr c len
  | .fromUser => copyFromUvm sent a uvaddr vaddr len
  | .toUser => copyToUvm sent a uvaddr vaddr len

end Access

/-- Each of the first `n` bytes of the range has been transferred, and nothing else has
changed. -/
def Transferred (acc : Access) (kva : Nat → Nat) (vaddr n : Nat) (m m' : Mem) : Prop :=
  m.Written (acc.dst kva vaddr) (acc.byte kva vaddr m) n m'

namespace Transferred

variable {kva : Nat → Nat} {v v' n i : Nat} {m m' : Mem}

theorem fromUser_byte (h : Transferred .fromUser kva v n m m') (hi : i < n) :
    m' (v + i) = m (kva i) :=
  h.byte i hi

theorem toUser_byte (h : Transferred .toUser kva v n m m') (hi : i < n) :
    m' (kva i) = m (v + i) :=
  h.byte i hi

theorem fill_vaddr {c : UInt8} (h : Transferred (.fill c) kva v n m m') :
    Transferred (.fill c) kva v' n m m' :=
  ⟨h.byte, h.other⟩

end Transferred

/-- One more piece, consecutive on both sides. -/
theorem Transferred.piece {acc : Access} {kva : Nat → Nat} {vaddr v n l len : Nat} {m m1 : Mem}
    (h : Transferred acc kva vaddr n m m1) (hlen : n + l ≤ len)
    (hinj : ∀ i < len, ∀ j < len, kva i = kva j → i = j)
    (hapart : acc.buffered = true → ∀ i < len, ∀ j < len, kva i ≠ vaddr + j)
    (hv : acc.buffered = true → v = vaddr + n) (hkva : ∀ j < l, kva (n + j) = kva n + j) :
    Transferred acc kva vaddr (n + l) m (acc.move m1 (kva n) v l) := by
  have hfresh : ∀ i < n, ∀ j < l, kva i ≠ kva (n + j) := by
    intro i hi j hj heq
    have := hinj i (by omega) (n + j) (by omega) heq
    omega
  cases acc with
  | fill c => exact Mem.Written.fill h hfresh hkva fun _ _ => rfl
  | toUser =>
    apply Mem.Written.copy h hfresh hkva
    -- the buffer has not been written to
    intro j hj
    rw [hv rfl, Nat.add_assoc]
    exact (h.other _ fun i hi heq => hapart rfl i (by omega) (n + j) (by omega) heq.symm).symm
  | fromUser =>
    apply Mem.Written.copy h
    · intro i hi j hj
      show vaddr + i ≠ vaddr + (n + j)
      omega
    · intro j _
      show vaddr + (n + j) = v + j
      rw [hv rfl, Nat.add_assoc]
    · -- nor have the pages
      intro j hj
      rw [← hkva j hj]
      exact (h.other _ fun i hi heq => hapart rfl (n + j) (by omega) i (by omega) heq).symm

/-- The hardware's walk, where the entry allows the access. -/
theorem wp_userAccess {p : Phys} {pgindex u : Nat} {M : PageMap} {write : Bool}
    (h : Shows p.mem pgindex M) (hu : u < 2 ^ 32) (hleaf : M.leaf (pdx u) ≠ none)
    (hvalid : M.pte (ptrAlignBelow u) &&& PTE_VALID ≠ 0)
    (hdirty : write = true → M.pte (ptrAlignBelow u) &&& PTE_DIRTY ≠ 0) :
    wp (userAccess pgindex u write) (fun kva p' => p' = p ∧ kva = M.kva u) p := by
  obtain ⟨f, hf⟩ := Option.ne_none_iff_exists'.mp hleaf
  have hpde := h.tables.kva ((congrFun h.leaf _).trans hf)
  have hne := h.tables.pde_ne_zero ((congrFun h.leaf _).trans hf)
  unfold pdeAt at hpde hne
  rw [userAccess, wp_bind, wp_get]
  dsimp only
  rw [hpde] at hne ⊢
  rw [h.load_pte hu hf, if_neg, wp_pure]
  · exact ⟨rfl, rfl⟩
  · intro hbad
    rcases hbad with hz | hz | hz
    · exact hne hz
    · exact hvalid hz
    · exact hdirty hz.1 hz.2

/-! ### The two loops -/

/-- What a transfer relies on: the page index does not change while it is made, the pages of
the range have frames, no two bytes of it the same address, and the buffer is apart. -/
structure Route (m₀ : Mem) (pgindex : Nat) (M : PageMap) (acc : Access) (uvaddr vaddr len : Nat) :
    Prop where
  steady : ∀ m, (∀ x, (∀ i < len, x ≠ acc.dst (fun i => M.kva (uvaddr + i)) vaddr i) → m x = m₀ x) →
    Shows m pgindex M
  leaf : ∀ i < len, M.leaf (pdx (uvaddr + i)) ≠ none
  frame : ∀ i < len, IsFrame (ptePaddr (M.pte (ptrAlignBelow (uvaddr + i))))
  inj : ∀ i < len, ∀ j < len, M.kva (uvaddr + i) = M.kva (uvaddr + j) → i = j
  bound : acc.buffered = true → vaddr + len ≤ 2 ^ 32
  apart : acc.buffered = true → ∀ i < len, ∀ j < len, M.kva (uvaddr + i) ≠ vaddr + j

/-- The kernel addresses of a page are consecutive. -/
theorem PageMap.kva_add {M : PageMap} {u j : Nat} (hf : IsFrame (ptePaddr (M.pte (ptrAlignBelow u))))
    (hj : u % pageSize + j < pageSize) : M.kva (u + j) = M.kva u + j := by
  have hpage : ptrAlignBelow (u + j) = ptrAlignBelow u ∧ (u + j) % pageSize = u % pageSize + j := by
    unfold ptrAlignBelow pageSize at *
    omega
  unfold PageMap.kva
  rw [hpage.1, hpage.2, pa2kva_or hf hj, pa2kva_or hf (Nat.lt_of_le_of_lt (Nat.le_add_right _ _) hj),
    Nat.add_assoc]

theorem PageMap.kva_ne_zero {M : PageMap} {u : Nat}
    (hf : IsFrame (ptePaddr (M.pte (ptrAlignBelow u)))) : M.kva u ≠ 0 := by
  unfold PageMap.kva
  rw [pa2kva_or hf (Nat.mod_lt _ (by decide)), hf.pa2kva_eq]
  unfold kernBase
  omega

namespace Route

variable {m₀ : Mem} {pgindex : Nat} {M : PageMap} {acc : Access} {uvaddr vaddr len : Nat}

/-- The tables are as they were, as long as only bytes of the range have been transferred. -/
theorem shows_after (h : Route m₀ pgindex M acc uvaddr vaddr len) {n : Nat} (hn : n ≤ len) {m : Mem}
    (hm : Transferred acc (fun i => M.kva (uvaddr + i)) vaddr n m₀ m) : Shows m pgindex M :=
  h.steady m fun x hx => hm.other x fun i hi => hx i (Nat.lt_of_lt_of_le hi hn)

theorem piece (h : Route m₀ pgindex M acc uvaddr vaddr len) {n l v : Nat} {m : Mem}
    (hm : Transferred acc (fun i => M.kva (uvaddr + i)) vaddr n m₀ m) (hlen : n + l ≤ len)
    (hpage : (uvaddr + n) % pageSize + l ≤ pageSize) (hv : acc.buffered = true → v = vaddr + n) :
    Transferred acc (fun i => M.kva (uvaddr + i)) vaddr (n + l) m₀
      (acc.move m (M.kva (uvaddr + n)) v l) := by
  apply @Transferred.piece acc (fun i => M.kva (uvaddr + i)) _ _ _ _ _ _ _ hm hlen h.inj h.apart hv
  intro j hj
  rw [← Nat.add_assoc]
  exact PageMap.kva_add (h.frame n (by omega)) (by omega)

theorem next_vaddr (h : Route m₀ pgindex M acc uvaddr vaddr len) {n l v : Nat}
    (hlen : n + l < len) (hv : acc.buffered = true → v = vaddr + n) :
    acc.buffered = true → u32 (v + l) = vaddr + (n + l) := by
  intro hbuf
  have := h.bound hbuf
  rw [hv hbuf, u32, Nat.mod_eq_of_lt (by omega), Nat.add_assoc]

variable {p : Phys}

variable {fuel l left n start v : Nat}

/-- The piece of a page that belongs to the range ends with the page or with the range. -/
theorem piece_end {next : Nat} (hup : uvaddr + n < next)
    (hl : l = min next (uvaddr + len) - (uvaddr + n)) (hn : n < len) :
    n + l ≤ len ∧ (next < uvaddr + len ∧ next = uvaddr + (n + l) ∨
      uvaddr + len ≤ next ∧ n + l = len) := by
  omega

theorem copyFillLoop_done {stop : Nat} (h : ¬ start < stop) :
    copyFillLoop pgindex acc stop fuel start v = pure 0 := by
  rw [copyFillLoop.eq_def, if_neg h]

/-- **Page by page.** The loop is at the next byte to transfer, or behind the range, and returns
zero having transferred all of it. -/
theorem wp_copyFillLoop (h : Route m₀ pgindex M acc uvaddr vaddr len)
    (hrange : uvaddr + len + pageSize ≤ 2 ^ 32)
    (hm : Transferred acc (fun i => M.kva (uvaddr + i)) vaddr n m₀ p.mem)
    (hn : start < uvaddr + len ∧ start = uvaddr + n ∨ uvaddr + len ≤ start ∧ n = len)
    (hv : n < len → acc.buffered = true → v = vaddr + n)
    (hfuel : uvaddr + len ≤ ptrAlignBelow start + fuel * pageSize) :
    wp (copyFillLoop pgindex acc (uvaddr + len) fuel start v) (fun r p' => r = 0 ∧ ∃ m',
      p' = { p with mem := m' } ∧
        Transferred acc (fun i => M.kva (uvaddr + i)) vaddr len m₀ m') p := by
  have h32 := lt_of_room hrange
  induction fuel generalizing p start v n with
  | zero =>
    have hbelow : ptrAlignBelow start ≤ start := Nat.div_mul_le_self _ _
    obtain ⟨hge, rfl⟩ := hn.resolve_left fun hlt => by omega
    rw [copyFillLoop_done (Nat.not_lt.mpr hge), wp_pure]
    exact ⟨rfl, p.mem, rfl, hm⟩
  | succ fuel ih =>
    cases hn with
    | inr hend =>
      obtain ⟨hge, rfl⟩ := hend
      rw [copyFillLoop_done (Nat.not_lt.mpr hge), wp_pure]
      exact ⟨rfl, p.mem, rfl, hm⟩
    | inl hin =>
      obtain ⟨hlt, rfl⟩ := hin
      have hnlen : n < len := Nat.lt_of_add_lt_add_left hlt
      have hv' := hv hnlen
      obtain ⟨f, hf⟩ := Option.ne_none_iff_exists'.mp (h.leaf n hnlen)
      obtain ⟨hup, hpiece⟩ := pieceLen_eq hlt hrange
      obtain ⟨hnext, -⟩ := @ptrAlignNext_eq (uvaddr + n)
        (Nat.le_trans (Nat.add_le_add_right hlt pageSize) hrange)
      have hinside := pieceLen_le hlt h32
      rw [copyFillLoop, if_pos hlt, wp_bind]
      apply wp_mono (wp_uva2kva (h.shows_after (Nat.le_of_lt hnlen) hm) (Nat.lt_trans hlt h32))
      intro kva p1 hkva
      obtain ⟨rfl, hkva⟩ := hkva
      rw [hf] at hkva
      have hne : kva ≠ 0 := hkva ▸ PageMap.kva_ne_zero (h.frame n hnlen)
      rw [if_neg hne, wp_bind, wp_modify, hkva]
      generalize pieceLen (uvaddr + n) (uvaddr + len) = l at hpiece hinside ⊢
      obtain ⟨hnl, hcase⟩ := piece_end hup hpiece hnlen
      have hm' := h.piece hm hnl hinside hv'
      refine ih (p := { p1 with mem := acc.move p1.mem (M.kva (uvaddr + n)) v l }) hm' hcase
        (fun hmore => h.next_vaddr hmore hv') ?_
      have hbelow : ptrAlignBelow (ptrAlignNext (uvaddr + n)) = ptrAlignNext (uvaddr + n) := by
        rw [hnext, ptrAlignBelow, ptrAlignBelow, ← Nat.succ_mul,
          Nat.mul_div_cancel _ (by decide)]
      rw [hbelow, hnext, Nat.add_assoc, Nat.add_comm pageSize, ← Nat.succ_mul]
      exact hfuel

/-- Behind the first piece a page begins, and there is one page less to go. -/
theorem user_fuel {u : Nat} (hl : l = min left (pageSize - u % pageSize)) (hmore : left - l ≠ 0)
    (hfuel : u % pageSize + left ≤ (fuel + 1) * pageSize) :
    u32 (u + l) % pageSize + (left - l) ≤ fuel * pageSize := by
  obtain rfl : l = pageSize - u % pageSize := by omega
  have hpage : u32 (u + (pageSize - u % pageSize)) % pageSize = 0 := by
    unfold u32 pageSize
    omega
  rw [hpage, Nat.succ_mul] at *
  omega

/-- **Through the loaded page index.** The accesses get through where the entries are valid and,
for stores, writable. -/
theorem wp_userLoop (h : Route m₀ pgindex M acc uvaddr vaddr len) (hrange : uvaddr + len ≤ 2 ^ 32)
    (hvalid : ∀ i < len, M.pte (ptrAlignBelow (uvaddr + i)) &&& PTE_VALID ≠ 0)
    (hdirty : acc.writes = true → ∀ i < len, M.pte (ptrAlignBelow (uvaddr + i)) &&& PTE_DIRTY ≠ 0)
    (hm : Transferred acc (fun i => M.kva (uvaddr + i)) vaddr n m₀ p.mem) (hleft : n + left = len)
    (hstart : left ≠ 0 → start = uvaddr + n) (hv : left ≠ 0 → acc.buffered = true → v = vaddr + n)
    (hfuel : left ≠ 0 → start % pageSize + left ≤ fuel * pageSize) :
    wp (userLoop pgindex acc fuel left start v) (fun r p' => r = 0 ∧ ∃ m',
      p' = { p with mem := m' } ∧
        Transferred acc (fun i => M.kva (uvaddr + i)) vaddr len m₀ m') p := by
  induction fuel generalizing p start v n left with
  | zero =>
    have hzero : left = 0 := by
      by_contra hne
      omega
    rw [userLoop.eq_def, if_pos hzero, wp_pure]
    rw [hzero] at hleft
    exact ⟨rfl, p.mem, rfl, hleft ▸ hm⟩
  | succ fuel ih =>
    by_cases hzero : left = 0
    · rw [userLoop.eq_def, if_pos hzero, wp_pure]
      rw [hzero] at hleft
      exact ⟨rfl, p.mem, rfl, hleft ▸ hm⟩
    · obtain rfl := hstart hzero
      have hnlen : n < len := by omega
      have hv' := hv hzero
      have hu : uvaddr + n < 2 ^ 32 := Nat.lt_of_lt_of_le (Nat.add_lt_add_left hnlen _) hrange
      rw [userLoop, if_neg hzero, wp_bind]
      apply wp_mono (wp_userAccess (h.shows_after (Nat.le_of_lt hnlen) hm) hu (h.leaf n hnlen)
        (hvalid n hnlen) fun hw => hdirty hw n hnlen)
      intro kva p1 hkva
      obtain ⟨rfl, hkva⟩ := hkva
      rw [wp_bind, wp_modify, hkva]
      have hroom : (uvaddr + n) % pageSize < pageSize := Nat.mod_lt _ (by decide)
      obtain ⟨l, hl⟩ : ∃ l, l = min left (pageSize - (uvaddr + n) % pageSize) := ⟨_, rfl⟩
      rw [← hl]
      have hnl : n + l + (left - l) = len := by omega
      have hfit : n + l ≤ len := by omega
      have hinside : (uvaddr + n) % pageSize + l ≤ pageSize := by omega
      have hm' := h.piece hm hfit hinside hv'
      refine ih (p := { p1 with mem := acc.move p1.mem (M.kva (uvaddr + n)) v l }) hm' hnl ?_ ?_ ?_
      · intro hmore
        have hlt : uvaddr + n + l < 2 ^ 32 := by omega
        rw [← Nat.add_assoc]
        exact Nat.mod_eq_of_lt hlt
      · intro hmore
        exact h.next_vaddr (by omega) hv'
      · exact fun hmore => user_fuel hl hmore (hfuel hzero)

end Route

/-! ### Address spaces and buffers -/

/-- An address space in order: the page index maps exactly the pages of its VMAs, with entries as
`map_pages` makes them, and their frames are neither shared nor page tables. -/
structure UserSpace (s : Vm Phys) (a : Nat) (mm : Mm) : Prop where
  live : s.desk.mms a = some mm
  tables : Tables s.pages.mem mm.pgindex (kva2pa mm.pgindex)
  ok : Mm.OK (viewOf s.pages.mem mm.pgindex) mm.vmas
  entry : ∀ x ∈ mm.vmas, ∃ flags,
    pteAt s.pages.mem mm.pgindex x.start = pteFor x.pages.paddr flags
  unshared : ∀ x ∈ mm.vmas, ∀ y ∈ mm.vmas, x.pages.paddr = y.pages.paddr → x = y
  plain : ∀ x ∈ mm.vmas, x.pages.paddr ≠ kva2pa mm.pgindex ∧
    ∀ i, leafAt s.pages.mem mm.pgindex i ≠ some x.pages.paddr

/-- A buffer of the kernel: apart from the pages of the address space and from its page
tables. -/
structure KernelBuffer (s : Vm Phys) (mm : Mm) (vaddr len : Nat) : Prop where
  bound : vaddr + len ≤ 2 ^ 32
  pages : ∀ x ∈ mm.vmas,
    vaddr + len ≤ pa2kva x.pages.paddr ∨ pa2kva x.pages.paddr + pageSize ≤ vaddr
  dir : vaddr + len ≤ mm.pgindex ∨ mm.pgindex + pageSize ≤ vaddr
  leaf : ∀ i f, leafAt s.pages.mem mm.pgindex i = some f →
    vaddr + len ≤ pa2kva f ∨ pa2kva f + pageSize ≤ vaddr

/-- A frame that holds one of the page tables. -/
def IsTable (s : Vm Phys) (mm : Mm) (g : Nat) : Prop :=
  g = kva2pa mm.pgindex ∨ ∃ i, leafAt s.pages.mem mm.pgindex i = some g

/-- The kernel address of byte `i` of the range. -/
def byteAt (s : Vm Phys) (mm : Mm) (uvaddr i : Nat) : Nat :=
  (viewOf s.pages.mem mm.pgindex).kva (uvaddr + i)

section Spaces

variable {s : Vm Phys} {a : Nat} {mm : Mm} {acc : Access} {uvaddr vaddr len : Nat}

variable {g i : Nat} {s' : Vm Phys}

theorem UserSpace.byteAt_eq (h : UserSpace s a mm) (hcov : mm.Backs uvaddr len) (hi : i < len)
    : ∃ x ∈ mm.vmas, x.start = ptrAlignBelow (uvaddr + i) ∧ IsFrame x.pages.paddr ∧
      ptePaddr (pteAt s.pages.mem mm.pgindex (ptrAlignBelow (uvaddr + i))) = x.pages.paddr ∧
      byteAt s mm uvaddr i = pa2kva x.pages.paddr + (uvaddr + i) % pageSize := by
  obtain ⟨x, hx, hstart⟩ := hcov i hi
  have hframe := (h.ok.vma x hx).frame
  have hpaddr := (h.ok.mapped x hx).2
  rw [hstart] at hpaddr
  refine ⟨x, hx, hstart, hframe, hpaddr, ?_⟩
  rw [byteAt, PageMap.kva, hpaddr, pa2kva_or hframe (Nat.mod_lt _ (by decide))]

/-- Bytes at different offsets of a range are at different addresses. -/
theorem UserSpace.byteAt_inj (h : UserSpace s a mm) (hcov : mm.Backs uvaddr len) {j : Nat}
    (hi : i < len) (hj : j < len) (heq : byteAt s mm uvaddr i = byteAt s mm uvaddr j) : i = j := by
  obtain ⟨x, hx, hxs, hxf, -, hxk⟩ := h.byteAt_eq hcov hi
  obtain ⟨y, hy, hys, hyf, -, hyk⟩ := h.byteAt_eq hcov hj
  rw [hxk, hyk] at heq
  have hi' := Nat.mod_lt (uvaddr + i) (show pageSize > 0 by decide)
  have hj' := Nat.mod_lt (uvaddr + j) (show pageSize > 0 by decide)
  have hsame : x.pages.paddr = y.pages.paddr := by
    by_contra hne
    have := hxf.apart hyf hne
    omega
  obtain rfl := h.unshared x hx y hy hsame
  have hoff : (uvaddr + i) % pageSize = (uvaddr + j) % pageSize := Nat.add_left_cancel heq
  have hpage : ptrAlignBelow (uvaddr + i) = ptrAlignBelow (uvaddr + j) := hxs.symm.trans hys
  have hi'' := Nat.div_add_mod (uvaddr + i) pageSize
  have hj'' := Nat.div_add_mod (uvaddr + j) pageSize
  unfold ptrAlignBelow at hpage
  rw [Nat.mul_comm, hpage, hoff] at hi''
  rw [Nat.mul_comm] at hj''
  omega

theorem outside_page {f off b : Nat} (hf : IsFrame f) (hg : IsFrame g) (hne : f ≠ g)
    (hoff : off < pageSize) (hb : b = pa2kva f + off) :
    b < pa2kva g ∨ pa2kva g + pageSize ≤ b := by
  rw [hb]
  cases hf.apart hg hne with
  | inl hlt => exact .inl (Nat.lt_of_lt_of_le (Nat.add_lt_add_left hoff _) hlt)
  | inr hle => exact .inr (Nat.le_trans hle (Nat.le_add_right _ _))

/-- So does a byte of a buffer that is apart from it. -/
theorem outside_buffer {base vaddr len : Nat} (h : vaddr + len ≤ base ∨ base + pageSize ≤ vaddr)
    (hi : i < len) :
    vaddr + i < base ∨ base + pageSize ≤ vaddr + i :=
  h.imp (Nat.lt_of_lt_of_le (Nat.add_lt_add_left hi _)) fun hle =>
    Nat.le_trans hle (Nat.le_add_right _ _)

/-- The frames of the pages are no page tables. -/
theorem UserSpace.ne_table (h : UserSpace s a mm) {x : Vma} (hx : x ∈ mm.vmas) (hg : IsTable s mm g)
    : x.pages.paddr ≠ g := by
  rintro rfl
  cases hg with
  | inl hdir => exact (h.plain x hx).1 hdir
  | inr hleaf =>
    obtain ⟨i, hi⟩ := hleaf
    exact (h.plain x hx).2 i hi

theorem UserSpace.isFrame (h : UserSpace s a mm) (hg : IsTable s mm g) : IsFrame g := by
  cases hg with
  | inl hdir =>
    rw [hdir]
    exact h.tables.dir
  | inr hleaf =>
    obtain ⟨i, hi⟩ := hleaf
    exact h.tables.frame hi

/-- The buffer is apart from the page tables. -/
theorem UserSpace.buffer_apart (h : UserSpace s a mm) (hb : KernelBuffer s mm vaddr len)
    (hg : IsTable s mm g) : vaddr + len ≤ pa2kva g ∨ pa2kva g + pageSize ≤ vaddr := by
  cases hg with
  | inl hdir =>
    have hindex : mm.pgindex = pa2kva g := by rw [hdir]; exact h.tables.index
    have hdir' := hb.dir
    rw [hindex] at hdir'
    exact hdir'
  | inr hleaf =>
    obtain ⟨i, hi⟩ := hleaf
    exact hb.leaf i g hi

/-- While the page tables are untouched the page index stays as it is. -/
theorem UserSpace.shows (h : UserSpace s a mm) {m : Mem}
    (hkeep : ∀ g, IsTable s mm g → Untouched s.pages.mem m g) :
    Shows m mm.pgindex (viewOf s.pages.mem mm.pgindex) := by
  have hshows : Shows s.pages.mem mm.pgindex (viewOf s.pages.mem mm.pgindex) := ⟨h.tables, rfl, rfl⟩
  exact hshows.keep (hkeep _ (.inl rfl)) fun i f hf => hkeep f (.inr ⟨i, hf⟩)

/-- Nothing that a transfer writes lies in a page table. -/
theorem UserSpace.dst_apart (h : UserSpace s a mm) (hcov : mm.Backs uvaddr len)
    (hbuf : acc.buffered = true → KernelBuffer s mm vaddr len) (hg : IsTable s mm g) (hi : i < len)
    : acc.dst (byteAt s mm uvaddr) vaddr i < pa2kva g ∨
      pa2kva g + pageSize ≤ acc.dst (byteAt s mm uvaddr) vaddr i := by
  apply acc.dst_cases (P := fun b => b < pa2kva g ∨ pa2kva g + pageSize ≤ b)
  · obtain ⟨x, hx, -, hxf, -, hxk⟩ := h.byteAt_eq hcov hi
    exact outside_page hxf (h.isFrame hg) (h.ne_table hx hg) (Nat.mod_lt _ (by decide)) hxk
  · intro hacc
    exact outside_buffer (h.buffer_apart (hbuf hacc) hg) hi

/-- A transfer between an address space in order and a buffer. -/
theorem UserSpace.route (h : UserSpace s a mm) (hcov : mm.Backs uvaddr len)
    (hlt : uvaddr + len ≤ 2 ^ 32) (hbuf : acc.buffered = true → KernelBuffer s mm vaddr len) :
    Route s.pages.mem mm.pgindex (viewOf s.pages.mem mm.pgindex) acc uvaddr vaddr len where
  steady m hm := by
    refine h.shows fun g hg x hlo hhi => hm x fun i hi heq => ?_
    have := h.dst_apart hcov hbuf hg hi
    rw [heq] at hlo hhi
    change pa2kva g ≤ acc.dst (byteAt s mm uvaddr) vaddr i at hlo
    change acc.dst (byteAt s mm uvaddr) vaddr i < pa2kva g + pageSize at hhi
    omega
  leaf i hi := by
    obtain ⟨x, hx, hstart⟩ := hcov i hi
    obtain ⟨-, hslot, -⟩ := @ptrAlignBelow_page (uvaddr + i) (by omega)
    exact (h.ok.leaf _).mpr ⟨x, hx, by rw [hstart, hslot]⟩
  frame i hi := by
    obtain ⟨x, -, -, hframe, hpaddr, -⟩ := h.byteAt_eq hcov hi
    exact hpaddr ▸ hframe
  inj i hi j hj heq := h.byteAt_inj hcov hi hj heq
  bound hacc := (hbuf hacc).bound
  apart hacc i hi j hj heq := by
    obtain ⟨x, hx, -, -, -, hxk⟩ := h.byteAt_eq hcov hi
    have hpages := (hbuf hacc).pages x hx
    have := Nat.mod_lt (uvaddr + i) (show pageSize > 0 by decide)
    change byteAt s mm uvaddr i = vaddr + j at heq
    omega

/-! ### The calls -/

/-- If the address space is the current one, its page index is loaded and lets the access
through. -/
def Admits (s : Vm Phys) (a : Nat) (mm : Mm) (acc : Access) (uvaddr len : Nat) : Prop :=
  s.desk.currentMm = some a → s.desk.currentPgdir = mm.pgindex ∧ (acc.writes = true →
    ∀ i < len, pteAt s.pages.mem mm.pgindex (ptrAlignBelow (uvaddr + i)) &&& PTE_DIRTY ≠ 0)

theorem pteFor_valid (p flags : Nat) : pteFor p flags &&& PTE_VALID ≠ 0 := by
  intro hz
  rw [pteFor, Nat.and_or_distrib_right] at hz
  have hperm := (Nat.or_eq_zero_iff.mp hz).2
  rcases pgtablePerm_eq flags with h | h <;> rw [h] at hperm <;> exact absurd hperm (by decide)

section InRange

variable (sent : Sentinel) (hpos : 0 < len) (hrange : uvaddr + len + pageSize ≤ 2 ^ 32)
  (hsent : sent.Misses (ptrAlignBelow uvaddr)
    (ptrAlignAbove (uvaddr + len) - ptrAlignBelow uvaddr))

include hpos hrange hsent

/-- **A covered range** is transferred, by whichever path. -/
theorem UserSpace.transfers (h : UserSpace s a mm)
    (hbuf : acc.buffered = true → KernelBuffer s mm vaddr len) (hcov : mm.Backs uvaddr len)
    (hadm : Admits s a mm acc uvaddr len) :
    wp (copyFillUvm sent a uvaddr vaddr acc len) (fun r s' => r = 0 ∧ ∃ m',
      s' = { s with pages := { s.pages with mem := m' } } ∧
        Transferred acc (byteAt s mm uvaddr) vaddr len s.pages.mem m') s := by
  have h32 := lt_of_room hrange
  have hroute := h.route hcov (Nat.le_of_lt h32) hbuf
  obtain ⟨found, hfound, hiff⟩ := h.ok.search sent hpos hrange hsent
  obtain ⟨k, rfl⟩ := Option.ne_none_iff_exists'.mp (hiff.mpr hcov)
  have hstart : Transferred acc (byteAt s mm uvaddr) vaddr 0 s.pages.mem s.pages.mem :=
    .zero _ _ _
  have hstop : u32 (uvaddr + len) = uvaddr + len := Nat.mod_eq_of_lt h32
  rw [copyFillUvm, hstop, wp_bind]
  apply wp_getMm h.live
  rw [wp_bind, hull_eq hrange, hfound]
  refine wp_of_run rfl ?_
  rw [wp_bind, onDesk, wp_zoom, wp_get]
  split
  · -- the page table is loaded
    rename_i hcur
    obtain ⟨hloaded, hdirty⟩ := hadm hcur
    rw [if_neg (not_not.mpr hloaded.symm), wp_onPages]
    refine wp_mono (hroute.wp_userLoop (Nat.le_of_lt h32) ?_ hdirty hstart (Nat.zero_add len)
      (fun _ => rfl) (fun _ _ => rfl) ?_) ?_
    · intro i hi
      obtain ⟨x, hx, hxs⟩ := hcov i hi
      obtain ⟨flags, hentry⟩ := h.entry x hx
      rw [hxs] at hentry
      show pteAt s.pages.mem mm.pgindex (ptrAlignBelow (uvaddr + i)) &&& PTE_VALID ≠ 0
      rw [hentry]
      exact pteFor_valid _ flags
    · intro _
      rw [maxPages_val]
      unfold pageSize at *
      omega
    · rintro r p ⟨hr, m', rfl, hm'⟩
      exact ⟨hr, m', rfl, hm'⟩
  · -- page by page
    rw [wp_onPages]
    refine wp_mono (hroute.wp_copyFillLoop hrange hstart (.inl ⟨?_, rfl⟩) (fun _ _ => rfl) ?_) ?_
    · exact Nat.lt_add_of_pos_right hpos
    · rw [maxPages_val]
      unfold pageSize at *
      omega
    · rintro r p ⟨hr, m', rfl, hm'⟩
      exact ⟨hr, m', rfl, hm'⟩

/-- **A range with a page missing** is refused. -/
theorem UserSpace.refuses (h : UserSpace s a mm) (hcov : ¬ mm.Backs uvaddr len) :
    wp (copyFillUvm sent a uvaddr vaddr acc len) (fun r s' => r = -EFAULT ∧ s' = s) s := by
  have h32 := lt_of_room hrange
  obtain ⟨found, hfound, hiff⟩ := h.ok.search sent hpos hrange hsent
  obtain rfl : found = none := not_not.mp fun hne => hcov (hiff.mp hne)
  have hstop : u32 (uvaddr + len) = uvaddr + len := Nat.mod_eq_of_lt h32
  rw [copyFillUvm, hstop, wp_bind]
  apply wp_getMm h.live
  rw [wp_bind, hull_eq hrange, hfound]
  refine wp_of_run rfl ?_
  rw [wp_pure]
  exact ⟨rfl, rfl⟩

theorem UserSpace.call_transfers (h : UserSpace s a mm)
    (hbuf : acc.buffered = true → KernelBuffer s mm vaddr len) (hcov : mm.Backs uvaddr len)
    (hadm : Admits s a mm acc uvaddr len) :
    wp (acc.call sent a uvaddr vaddr len) (fun r s' => r = 0 ∧ ∃ m',
      s' = { s with pages := { s.pages with mem := m' } } ∧
        Transferred acc (byteAt s mm uvaddr) vaddr len s.pages.mem m') s := by
  cases acc with
  | fill c =>
    apply wp_mono (h.transfers sent hpos hrange hsent (by intro hacc; cases hacc) hcov hadm)
    rintro r s' ⟨hr, m', hs', hm'⟩
    exact ⟨hr, m', hs', hm'.fill_vaddr⟩
  | fromUser => exact h.transfers sent hpos hrange hsent hbuf hcov hadm
  | toUser => exact h.transfers sent hpos hrange hsent hbuf hcov hadm

theorem UserSpace.call_refuses (h : UserSpace s a mm) (hcov : ¬ mm.Backs uvaddr len) :
    wp (acc.call sent a uvaddr vaddr len) (fun r s' => r = -EFAULT ∧ s' = s) s := by
  cases acc with
  | fill c => exact h.refuses sent hpos hrange hsent hcov
  | fromUser => exact h.refuses sent hpos hrange hsent hcov
  | toUser => exact h.refuses sent hpos hrange hsent hcov

end InRange

theorem UserSpace.keep (h : UserSpace s a mm) (hcov : mm.Backs uvaddr len)
    (hlt : uvaddr + len ≤ 2 ^ 32) (hbuf : acc.buffered = true → KernelBuffer s mm vaddr len)
    {m' : Mem} (hm : Transferred acc (byteAt s mm uvaddr) vaddr len s.pages.mem m')
    (hs' : s' = { s with pages := { s.pages with mem := m' } }) :
    UserSpace s' a mm ∧ viewOf s'.pages.mem mm.pgindex = viewOf s.pages.mem mm.pgindex := by
  have hshows := (h.route hcov hlt hbuf).shows_after (Nat.le_refl len) hm
  have hleaf : leafAt m' mm.pgindex = leafAt s.pages.mem mm.pgindex := hshows.leaf
  have hpte : pteAt m' mm.pgindex = pteAt s.pages.mem mm.pgindex := hshows.pte
  have hview : viewOf m' mm.pgindex = viewOf s.pages.mem mm.pgindex := by
    rw [viewOf, hleaf, hpte]
    rfl
  subst hs'
  refine ⟨⟨h.live, hshows.tables, ?_, ?_, h.unshared, ?_⟩, hview⟩
  · show Mm.OK (viewOf m' mm.pgindex) mm.vmas
    rw [hview]
    exact h.ok
  · show ∀ x ∈ mm.vmas, ∃ flags, pteAt m' mm.pgindex x.start = pteFor x.pages.paddr flags
    rw [hpte]
    exact h.entry
  · show ∀ x ∈ mm.vmas, x.pages.paddr ≠ kva2pa mm.pgindex ∧
      ∀ i, leafAt m' mm.pgindex i ≠ some x.pages.paddr
    rw [hleaf]
    exact h.plain

/-- Only memory matters, and the list of the address space. -/
theorem UserSpace.withDesk (h : UserSpace s a mm) {desk : Desk} (hdesk : desk.mms a = some mm) :
    UserSpace ⟨s.pages, desk⟩ a mm :=
  ⟨hdesk, h.tables, h.ok, h.entry, h.unshared, h.plain⟩

theorem KernelBuffer.withDesk (h : KernelBuffer s mm vaddr len) (desk : Desk) :
    KernelBuffer ⟨s.pages, desk⟩ mm vaddr len :=
  ⟨h.bound, h.pages, h.dir, h.leaf⟩

theorem KernelBuffer.keep (h : KernelBuffer s mm vaddr len)
    (hview : viewOf s'.pages.mem mm.pgindex = viewOf s.pages.mem mm.pgindex) :
    KernelBuffer s' mm vaddr len := by
  have hleaf : leafAt s'.pages.mem mm.pgindex = leafAt s.pages.mem mm.pgindex :=
    congrArg PageMap.leaf hview
  exact ⟨h.bound, h.pages, h.dir, hleaf ▸ h.leaf⟩

end Spaces

section Main

variable {s : Vm Phys} {a : Nat} {mm : Mm} {base baseObjs : List Nat}

/-- Address spaces built by the calls of the kernel are in order. -/
theorem Attuned.userSpace (h : Attuned base baseObjs s) (hmm : s.desk.mms a = some mm) :
    UserSpace s a mm := by
  obtain ⟨t, hrel, hgood, hagreed⟩ := h
  have hmm' : t.desk.mms a = some mm := hrel.2 ▸ hmm
  obtain ⟨M, hM, hok⟩ := hgood.inv.spaces.space hmm'
  have hshows := hrel.1.index hM
  have hview : viewOf s.pages.mem mm.pgindex = M := by rw [viewOf, hshows.leaf, hshows.pte]
  have hplain : ∀ x ∈ mm.vmas, x.pages.paddr ∈ t.pages.plain := fun x hx =>
    hgood.inv.user.mem_of_role (hok.userRole_start hmm' hx)
  refine ⟨hmm, hshows.tables, hview ▸ hok, ?_, ?_, ?_⟩
  · intro x hx
    rw [hshows.pte]
    exact ⟨x.flags, hagreed a mm M hmm' hM x hx⟩
  · intro x hx y hy heq
    have hrole := hok.userRole_start hmm' hy
    rw [← heq] at hrole
    have hplace := hgood.inv.user.inj (hok.userRole_start hmm' hx) hrole
    have hat := hok.vmaAt_start hmm' hx
    rw [hplace, hok.vmaAt_start hmm' hy] at hat
    exact (Option.some.inj hat).symm
  · intro x hx
    refine ⟨fun heq => ?_, fun i hi => ?_⟩
    · exact hrel.1.owned.apart (tableRole_dir hM) (heq ▸ hplain x hx)
    · rw [hshows.leaf] at hi
      exact hrel.1.owned.apart ((tableRole_leaf hM i).trans hi) (hplain x hx)

/-- Memory that is none of the frames of the address spaces can serve as a buffer. -/
theorem Attuned.kernelBuffer (h : Attuned base baseObjs s) (hmm : s.desk.mms a = some mm)
    {vaddr len : Nat} (hbound : vaddr + len ≤ 2 ^ 32)
    (hframes : ∀ f ∈ s.pages.frames, vaddr + len ≤ pa2kva f ∨ pa2kva f + pageSize ≤ vaddr) :
    KernelBuffer s mm vaddr len := by
  obtain ⟨t, hrel, hgood, -⟩ := h
  have hmm' : t.desk.mms a = some mm := hrel.2 ▸ hmm
  obtain ⟨M, hM, hok⟩ := hgood.inv.spaces.space hmm'
  have hshows := hrel.1.index hM
  rw [hrel.1.frames] at hframes
  refine ⟨hbound, ?_, ?_, ?_⟩
  · intro x hx
    exact hframes _ (hrel.1.plain_mem
      (hgood.inv.user.mem_of_role (hok.userRole_start hmm' hx)))
  · have hdir := hframes _ (hrel.1.dir_mem hM)
    rw [← hshows.tables.index] at hdir
    exact hdir
  · intro i f hf
    rw [hshows.leaf] at hf
    exact hframes _ (hrel.1.leaf_mem hM hf)

/-- **User copy and fill are exact**, and the two paths agree. If a page that the range touches
has no VMA the call refuses and changes nothing. Otherwise each byte is transferred to or from
the address that the page index gives for it and nothing else changes, whatever address space is
the current one; so what was copied in is copied out again. -/
theorem copy_and_fill_exact {uvaddr len : Nat} (sent : Sentinel) (h : UserSpace s a mm)
    (hpos : 0 < len) (hrange : uvaddr + len < 2 ^ 32 - pageSize)
    (hsent : sent.Misses (ptrAlignBelow uvaddr)
      (ptrAlignAbove (uvaddr + len) - ptrAlignBelow uvaddr)) :
    (∀ (acc : Access) vaddr, ¬ mm.Backs uvaddr len →
      acc.call sent a uvaddr vaddr len s = .ok (-EFAULT, s)) ∧
    (∀ acc vaddr, (acc.buffered = true → KernelBuffer s mm vaddr len) → mm.Backs uvaddr len →
      ∃ m', Transferred acc (byteAt s mm uvaddr) vaddr len s.pages.mem m' ∧
        ∀ desk, desk.mms a = some mm → Admits ⟨s.pages, desk⟩ a mm acc uvaddr len →
          acc.call sent a uvaddr vaddr len ⟨s.pages, desk⟩ =
            .ok (0, ⟨{ s.pages with mem := m' }, desk⟩)) ∧
    (∀ vaddr vaddr', KernelBuffer s mm vaddr len → KernelBuffer s mm vaddr' len →
      mm.Backs uvaddr len → Admits s a mm .toUser uvaddr len → ∃ s' s'',
        copyToUvm sent a uvaddr vaddr len s = .ok (0, s') ∧
        copyFromUvm sent a uvaddr vaddr' len s' = .ok (0, s'') ∧
        ∀ i < len, s''.pages.mem (vaddr' + i) = s.pages.mem (vaddr + i)) := by
  have hrange' : uvaddr + len + pageSize ≤ 2 ^ 32 := by
    omega
  have h32 : uvaddr + len ≤ 2 ^ 32 := Nat.le_trans (Nat.le_add_right _ _) hrange'
  refine ⟨?_, ?_, ?_⟩
  · intro acc vaddr hcov
    obtain ⟨r, s', hrun, hr, hs'⟩ := wp_iff.mp
      (@UserSpace.call_refuses s a mm acc uvaddr vaddr len sent hpos hrange' hsent h hcov)
    rw [hrun, hr, hs']
  · intro acc vaddr hbuf hcov
    -- what any of the runs leaves
    have hruns : ∀ desk, desk.mms a = some mm → Admits ⟨s.pages, desk⟩ a mm acc uvaddr len → ∃ m',
        Transferred acc (byteAt s mm uvaddr) vaddr len s.pages.mem m' ∧
        acc.call sent a uvaddr vaddr len ⟨s.pages, desk⟩ =
          .ok (0, ⟨{ s.pages with mem := m' }, desk⟩) := by
      intro desk hdesk hadm
      obtain ⟨r, s', hrun, rfl, m', rfl, hm'⟩ := wp_iff.mp ((h.withDesk hdesk).call_transfers sent hpos
        hrange' hsent (fun hacc => (hbuf hacc).withDesk desk) hcov hadm)
      exact ⟨m', hm', hrun⟩
    obtain ⟨m', hm', -⟩ := hruns { s.desk with currentMm := none } h.live fun hnone => nomatch hnone
    refine ⟨m', hm', fun desk hdesk hadm => ?_⟩
    obtain ⟨m₁, hm₁, hrun⟩ := hruns desk hdesk hadm
    rw [hrun, hm₁.unique hm']
  · intro vaddr vaddr' hbuf hbuf' hcov hadm
    obtain ⟨r, s', hin, rfl, m', hs', hm'⟩ := wp_iff.mp
      (h.call_transfers sent hpos hrange' hsent (fun _ => hbuf) hcov hadm)
    obtain ⟨hspace, hview⟩ := h.keep hcov h32 (fun _ => hbuf) hm' hs'
    have hadm' : Admits s' a mm .fromUser uvaddr len := by
      intro hcur
      rw [hs'] at hcur ⊢
      exact ⟨(hadm hcur).1, fun hw => nomatch hw⟩
    obtain ⟨r, s'', hout, rfl, m'', rfl, hm''⟩ := wp_iff.mp
      (hspace.call_transfers sent hpos hrange' hsent (fun _ => hbuf'.keep hview) hcov hadm')
    refine ⟨s', _, hin, hout, fun i hi => ?_⟩
    have hread : byteAt s' mm uvaddr i = byteAt s mm uvaddr i := by rw [byteAt, hview, byteAt]
    calc m'' (vaddr' + i) = s'.pages.mem (byteAt s' mm uvaddr i) := hm''.fromUser_byte hi
      _ = m' (byteAt s mm uvaddr i) := by rw [hread, hs']
      _ = s.pages.mem (vaddr + i) := hm'.toUser_byte hi

/-- A copy across a page boundary and back, and a fill that runs out of pages. -/
theorem copy_and_fill_exact_two_pages :
    (∃ s' s'', copyToUvm ⟨0, 0⟩ 0x80300000 0x400ff0 0x80300800 0x20 (roomySpace 2) = .ok (0, s') ∧
      copyFromUvm ⟨0, 0⟩ 0x80300000 0x400ff0 0x80300a00 0x20 s' = .ok (0, s'') ∧
      ∀ i < 0x20, s''.pages.mem (0x80300a00 + i) = (roomySpace 2).pages.mem (0x80300800 + i)) ∧
    fillUvm ⟨0, 0⟩ 0x80300000 0x401ff0 7 0x20 (roomySpace 2) = .ok (-EFAULT, roomySpace 2) := by
  have hattuned := (roomySpace_permRun 2 (by decide +kernel)).attuned roomyVm_fresh
  have hmm : (roomySpace 2).desk.mms 0x80300000 = some (roomyMm 2) := by decide +kernel
  have hspace := hattuned.userSpace hmm
  have hsent : ∀ {lo l : Nat}, 0 < lo → Sentinel.Misses ⟨0, 0⟩ lo l := by
    intro lo l hlo j _
    show 0 ≠ _
    omega
  constructor
  · obtain ⟨-, -, hback⟩ := copy_and_fill_exact ⟨0, 0⟩ hspace
      (by decide : 0 < 0x20) (by decide : 0x400ff0 + 0x20 < 2 ^ 32 - pageSize) (hsent (by decide))
    apply hback
    · exact hattuned.kernelBuffer hmm (by decide) (by decide +kernel)
    · exact hattuned.kernelBuffer hmm (by decide) (by decide +kernel)
    · unfold Mm.Backs
      decide +kernel
    · intro hcur
      exact absurd hcur (by decide +kernel)
  · obtain ⟨hrefused, -, -⟩ := copy_and_fill_exact ⟨0, 0⟩ hspace
      (by decide : 0 < 0x20) (by decide : 0x401ff0 + 0x20 < 2 ^ 32 - pageSize) (hsent (by decide))
    apply hrefused (.fill 7) 0
    unfold Mm.Backs
    decide +kernel

end Main

end AimKernel
