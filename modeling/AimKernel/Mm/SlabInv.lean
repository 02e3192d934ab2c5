import AimKernel.Mm.SlabList

/-!
# AimKernel.Mm.SlabInv

The invariant of the simple allocator, and what each piece of `alloc` and `free`
does to the set of objects it has handed out.

A descriptor that has been emptied keeps the address of its former page, and that
page may be handed out again and end up under another descriptor. The search of
`free` is still right because of the order of the list: a descriptor with the page
address of a used descriptor always stands behind it (`Inv.order`).
-/

namespace AimKernel

/-- A page `pgalloc` may hand out: aligned, and with its kernel address (and the
end of it) below the top of the address space. -/
def PhysPage (p : Nat) : Prop := PageBelow (kernBase - 1) p

/-- The kernel address of such a page. -/
structure KernPage (a : Nat) : Prop extends PageBelow (2 ^ 32 - 1) a where
  low : kernBase ≤ a

theorem PhysPage.bound {p : Nat} (h : PhysPage p) : p + pageSize < kernBase :=
  Nat.lt_of_le_of_lt (PageBelow.bound h) (by decide)

theorem KernPage.high {a : Nat} (h : KernPage a) : a + pageSize < 2 ^ 32 :=
  Nat.lt_of_le_of_lt h.bound (by decide)

theorem PhysPage.lt {p : Nat} (h : PhysPage p) : p < kernBase :=
  (h.mono (by decide)).lt

theorem IsFrame.physPage {p : Nat} (h : IsFrame p) : PhysPage p := h.mono (by decide)

theorem PhysPage.kern {p : Nat} (h : PhysPage p) : KernPage (pa2kva p) := by
  have h1 := h.aligned
  have h2 := h.bound
  rw [pa2kva_eq h.lt]
  refine ⟨⟨?_, ?_⟩, ?_⟩
  · unfold pageSize kernBase at *
    omega
  · unfold pageSize kernBase at *
    omega
  · omega

theorem IsFrame.kern {p : Nat} (h : IsFrame p) : KernPage (pa2kva p) := h.physPage.kern

theorem KernPage.ne_zero {a : Nat} (h : KernPage a) : a ≠ 0 :=
  Nat.ne_of_gt (Nat.lt_of_lt_of_le (by decide) h.low)

theorem PhysPage.kva_inj {p q : Nat} (hp : PhysPage p) (hq : PhysPage q)
    (h : pa2kva p = pa2kva q) : p = q := by
  rw [← kva2pa_pa2kva hp.lt, h, kva2pa_pa2kva hq.lt]

theorem KernPage.phys {a : Nat} (h : KernPage a) :
    PhysPage (kva2pa a) ∧ pa2kva (kva2pa a) = a := by
  obtain ⟨⟨h1, h3⟩, h2⟩ := h
  have hval : kva2pa a = a - kernBase := by
    unfold kva2pa u32 kernBase pageSize at *
    omega
  have hphys : PhysPage (a - kernBase) := by
    refine ⟨?_, ?_⟩
    · unfold kernBase pageSize at *
      omega
    · unfold kernBase pageSize at *
      omega
  refine ⟨hval ▸ hphys, ?_⟩
  rw [hval, pa2kva_eq hphys.lt]
  omega

/-- Two different pages do not share an address. -/
theorem KernPage.eq_of_mem {a b x : Nat} (ha : KernPage a) (hb : KernPage b)
    (hax : a ≤ x ∧ x < a + pageSize) (hbx : b ≤ x ∧ x < b + pageSize) : a = b := by
  by_contra hne
  have := ha.apart hb.toPageBelow hne
  omega

/-! ### Descriptors -/

theorem friSize_grid : ∀ c ∈ friSize, 0 < c / bitSize ∧ bitSize * (c / bitSize) = c ∧
    256 / (c / bitSize) * c = pageSize ∧ (c / bitSize) ∣ 256 := by
  decide

namespace Desc

variable {d : Desc} {i : Nat}

theorem ones_fresh (node page size : Nat) : ones (fresh node page size).status = ∅ :=
  ones_zero

/-- A descriptor that describes no page. -/
structure Unused (d : Desc) : Prop where
  size : d.size = pgEmpty
  num : d.num = 0
  status : d.status = 0

/-- The bookkeeping of a page of objects: the count is the number of set bits, and
objects start on multiples of their size only. -/
structure Counted (d : Desc) : Prop where
  cls : d.size ∈ friSize
  num : d.num = (ones d.status).card
  grid : ∀ i ∈ ones d.status, (d.size / bitSize) ∣ i

/-- A descriptor of a page with at least one object. -/
structure InUse (d : Desc) : Prop extends Counted d where
  nonempty : (ones d.status).Nonempty

/-- Every descriptor is unused or in use, and has the address of a page. -/
structure OK (d : Desc) : Prop where
  page : KernPage d.paddr
  use : d.Unused ∨ d.InUse

theorem Counted.size_ne (h : d.Counted) : d.size ≠ pgEmpty := by
  intro heq
  exact Slab.pgEmpty_notMem (heq ▸ h.cls)

theorem OK.inUse (h : d.OK) (hne : d.size ≠ pgEmpty) : d.InUse :=
  h.use.resolve_left fun hu => hne hu.size

theorem OK.unused (h : d.OK) (heq : d.size = pgEmpty) : d.Unused :=
  h.use.resolve_right fun hu => hu.size_ne heq

theorem OK.inUse_of_mem (h : d.OK) (hi : i ∈ ones d.status) : d.InUse := by
  refine h.use.resolve_left ?_
  intro hu
  rw [hu.status] at hi
  simp at hi

/-- The count and the bits agree, in use or not. -/
theorem OK.counts (h : d.OK) :
    d.num = (ones d.status).card ∧ ∀ i ∈ ones d.status, (d.size / bitSize) ∣ i := by
  rcases h.use with hu | hu
  · simp [hu.num, hu.status]
  · exact ⟨hu.num, hu.grid⟩

/-- The address range test of `free`, on a page. -/
theorem covers_iff (h : KernPage d.paddr) (obj : Nat) :
    d.Covers obj ↔ d.paddr ≤ obj ∧ obj < d.paddr + pageSize := by
  have := h.high
  unfold Covers u32
  rw [Nat.mod_eq_of_lt this]

theorem cell_mem (hi : i ∈ ones d.status) :
    d.paddr ≤ d.paddr + bitSize * i ∧ d.paddr + bitSize * i < d.paddr + pageSize := by
  have := lt_of_mem_ones hi
  unfold bitSize pageSize
  omega

/-- A whole object fits between a grid position and the end of the page. -/
theorem Counted.object_fits (h : d.Counted) (hi : i ∈ ones d.status) :
    bitSize * i + d.size ≤ pageSize := by
  obtain ⟨hpos, hmul, -, hdvd⟩ := friSize_grid d.size h.cls
  have hlt := lt_of_mem_ones hi
  have hnext : i + d.size / bitSize ≤ 256 :=
    Nat.le_of_lt_add_of_dvd (by omega) (Nat.dvd_add (h.grid i hi) (Nat.dvd_refl _)) hdvd
  calc bitSize * i + d.size = bitSize * (i + d.size / bitSize) := by rw [Nat.mul_add, hmul]
    _ ≤ bitSize * 256 := Nat.mul_le_mul_left _ hnext
    _ = pageSize := by decide

theorem Counted.objects_apart (h : d.Counted) {j : Nat} (hi : i ∈ ones d.status)
    (hj : j ∈ ones d.status) (hij : i < j) : bitSize * i + d.size ≤ bitSize * j := by
  obtain ⟨hpos, hmul, -, -⟩ := friSize_grid d.size h.cls
  have hnext : i + d.size / bitSize ≤ j :=
    Nat.le_of_lt_add_of_dvd (by omega) (Nat.dvd_add (h.grid i hi) (Nat.dvd_refl _)) (h.grid j hj)
  calc bitSize * i + d.size = bitSize * (i + d.size / bitSize) := by rw [Nat.mul_add, hmul]
    _ ≤ bitSize * j := Nat.mul_le_mul_left _ hnext

/-- The count of a page of objects leaves no room for wrapping, so that the test of
`alloc` is the one meant. -/
theorem Counted.room_iff (h : d.Counted) (size : Nat) :
    d.Room size ↔ size = d.size ∧ (ones d.status).card < 256 / (size / bitSize) := by
  have hcard : (ones d.status).card ≤ 256 := by
    have := Finset.card_filter_le (Finset.range 256) fun i => d.status.getLsbD i
    rwa [Finset.card_range] at this
  have hsize : d.size ≤ pageSize := by
    have : ∀ c ∈ friSize, c ≤ pageSize := by decide
    exact this _ h.cls
  have hnum : (d.num % 2 ^ 32).toNat = (ones d.status).card := by
    rw [h.num]
    omega
  have hmul : (ones d.status).card * d.size < 2 ^ 32 := by
    calc (ones d.status).card * d.size ≤ 256 * pageSize := Nat.mul_le_mul hcard hsize
      _ < 2 ^ 32 := by decide
  unfold Room u32
  rw [hnum, Nat.mod_eq_of_lt hmul]
  refine and_congr_right ?_
  rintro rfl
  obtain ⟨hpos, hgrid, htotal, -⟩ := friSize_grid d.size h.cls
  rw [← htotal]
  have hsz : 0 < d.size := by
    rw [← hgrid]
    exact Nat.mul_pos (by decide) hpos
  exact Nat.mul_lt_mul_right hsz

theorem Counted.taken (h : d.Counted) (hroom : (ones d.status).card < 256 / (d.size / bitSize)) :
    ∃ i, i ∉ ones d.status ∧ (getSpace d.status d.size).1 = bitSize * i ∧
      ones (d.taken d.size).status = insert i (ones d.status) ∧ (d.taken d.size).InUse := by
  obtain ⟨i, hdvd, -, hclear, hoff, hones⟩ :=
    Slab.getSpace_spec (friSize_grid d.size h.cls).1 hroom
  refine ⟨i, hclear, hoff, hones, ⟨h.cls, ?_, ?_⟩, ?_⟩
  · show d.num + 1 = ((ones (getSpace d.status d.size).2).card : Int)
    rw [hones, Finset.card_insert_of_notMem hclear, h.num]
    rfl
  · intro j hj
    rw [show ones (d.taken d.size).status = insert i (ones d.status) from hones,
      Finset.mem_insert] at hj
    rcases hj with rfl | hj
    · exact hdvd
    · exact h.grid j hj
  · exact ⟨i, by rw [show ones (d.taken d.size).status = insert i (ones d.status) from hones]; simp⟩

theorem InUse.released (h : d.InUse) (hi : i ∈ ones d.status) :
    ones (d.released (d.paddr + bitSize * i)).status = (ones d.status).erase i ∧
      (d.num = 1 → (d.released (d.paddr + bitSize * i)).Unused) ∧
      (d.num ≠ 1 → (d.released (d.paddr + bitSize * i)).InUse) := by
  have hpos : (d.paddr + bitSize * i - d.paddr) / bitSize = i := by
    rw [Nat.add_sub_cancel_left, Nat.mul_div_cancel_left _ (by decide)]
  have hstatus : (d.released (d.paddr + bitSize * i)).status = setbit d.status i := by
    simp only [Desc.released, hpos, freeSpace]
    exact if_pos (mem_ones.mp hi)
  have hones : ones (d.released (d.paddr + bitSize * i)).status = (ones d.status).erase i := by
    rw [hstatus]
    exact ones_toggle_set hi
  have hcard : ((ones d.status).erase i).card = (ones d.status).card - 1 :=
    Finset.card_erase_of_mem hi
  have hone : 0 < (ones d.status).card := Finset.card_pos.mpr h.nonempty
  have hnum : d.num - 1 = (((ones d.status).erase i).card : Int) := by
    rw [hcard, h.num]
    omega
  refine ⟨hones, ?_, ?_⟩
  · intro h1
    refine ⟨by simp [Desc.released, h1], by simp [Desc.released, h1], ?_⟩
    -- the last bit is gone
    have hempty : ones (d.released (d.paddr + bitSize * i)).status = ∅ := by
      rw [hones, ← Finset.card_eq_zero]
      omega
    refine BitVec.eq_of_getLsbD_eq ?_
    intro j _
    have hj : j ∉ ones (d.released (d.paddr + bitSize * i)).status := by simp [hempty]
    simpa using hj
  · intro h1
    have hsize : (d.released (d.paddr + bitSize * i)).size = d.size := by simp [Desc.released, h1]
    refine ⟨⟨by rw [hsize]; exact h.cls, by rw [hones]; exact hnum, ?_⟩, ?_⟩
    · intro j hj
      rw [hones] at hj
      rw [hsize]
      exact h.grid j (Finset.mem_of_mem_erase hj)
    · rw [hones, ← Finset.card_pos]
      omega

end Desc

/-! ### The allocator -/

/-- The object at address `a` is marked in the descriptors `ds`, on a page of
objects of size `n`. -/
def Holds (ds : List Desc) (a n : Nat) : Prop :=
  ∃ d ∈ ds, d.size = n ∧ ∃ i ∈ ones d.status, a = d.paddr + bitSize * i

/-- A page in use is not the (former) page of any descriptor before it. -/
def Ordered (ds : List Desc) : Prop :=
  ds.Pairwise fun e d => d.size ≠ pgEmpty → e.paddr ≠ d.paddr

/-- The kernel address `a` is a page in use. -/
def UsesPage (ds : List Desc) (a : Nat) : Prop := ∃ d ∈ ds, d.size ≠ pgEmpty ∧ d.paddr = a

namespace Slab

/-- **The invariant of the simple allocator.** -/
structure Inv (s : Slab) (ds : List Desc) : Prop where
  rep : s.Rep ds
  ok : ∀ d ∈ ds, d.OK
  order : Ordered ds

/-- Between finding or making a descriptor `d` with room and the end of `alloc`. -/
structure Ready (s : Slab) (l : List Desc) (d : Desc) (r : List Desc) : Prop where
  rep : s.Rep (l ++ d :: r)
  ok : ∀ e ∈ l ++ r, e.OK
  page : KernPage d.paddr
  counted : d.Counted
  room : (ones d.status).card < 256 / (d.size / bitSize)
  order : Ordered (l ++ d :: r)

variable {s : Slab} {ds l r : List Desc} {d : Desc}

theorem initLinks_inv (s : Slab) : Inv s.initLinks [] :=
  ⟨initLinks_rep s, by simp, List.Pairwise.nil⟩

theorem Inv.ready (h : Inv s (l ++ d :: r)) {size : Nat} (hroom : d.Room size)
    (hne : d.size ≠ pgEmpty) : Ready s l d r ∧ size = d.size := by
  have hd := h.ok d (by simp)
  obtain ⟨hsize, hcard⟩ := ((hd.inUse hne).room_iff size).mp hroom
  subst hsize
  refine ⟨⟨h.rep, ?_, hd.page, (hd.inUse hne).toCounted, hcard, h.order⟩, rfl⟩
  intro e he
  exact h.ok e (mem_of_mem_rest he)

theorem counted_fresh (node a : Nat) {size : Nat} (hsize : size ∈ friSize) :
    (Desc.fresh node a size).Counted ∧
      (ones (Desc.fresh node a size).status).card < 256 / (size / bitSize) := by
  have hroom : ∀ c ∈ friSize, 0 < 256 / (c / bitSize) := by decide
  rw [Desc.ones_fresh]
  refine ⟨⟨hsize, ?_, ?_⟩, hroom size hsize⟩
  · rw [Desc.ones_fresh]
    rfl
  · rw [Desc.ones_fresh]
    simp

/-- An unused descriptor that gets a page of its own is ready. -/
theorem Inv.install_ready (h : Inv s (l ++ d :: r)) {a size : Nat} (ha : KernPage a)
    (hsize : size ∈ friSize) (hl : ∀ e ∈ l, e.paddr ≠ a) (hnew : ¬ UsesPage r a) :
    Ready (install (.node d.node) a size s) l (.fresh d.node a size) r := by
  obtain ⟨hcount, hroom⟩ := counted_fresh d.node a hsize
  refine ⟨install_rep h.rep a size, ?_, ha, hcount, hroom, ?_⟩
  · intro e he
    exact h.ok e (mem_of_mem_rest he)
  · refine pairwise_middle.mpr ⟨(pairwise_middle.mp h.order).1, fun e he _ => hl e he, ?_⟩
    intro e he hne heq
    exact hnew ⟨e, he, hne, heq.symm⟩

/-- A new descriptor at the front of the list is ready. -/
theorem Inv.link_ready (h : Inv s ds) {a size n : Nat} (ha : KernPage a)
    (hsize : size ∈ friSize) (hn : ∀ d ∈ ds, d.node ≠ n) (hnew : ¬ UsesPage ds a) :
    Ready (install (.node n) a size (link (.node n) s)) [] (.fresh n a size) ds := by
  obtain ⟨hcount, hroom⟩ := counted_fresh n a hsize
  refine ⟨link_install_rep h.rep hn a size, h.ok, ha, hcount, hroom, ?_⟩
  refine List.pairwise_cons.mpr ⟨?_, h.order⟩
  intro e he hne heq
  exact hnew ⟨e, he, hne, heq.symm⟩

/-- Replacing a descriptor by one for the same page that is in use only if the old
one is. -/
theorem ordered_replace {d' : Desc} (h : Ordered (l ++ d :: r)) (hpaddr : d'.paddr = d.paddr)
    (hsize : d'.size ≠ pgEmpty → d.size ≠ pgEmpty) : Ordered (l ++ d' :: r) := by
  obtain ⟨hrest, hl, hr⟩ := pairwise_middle.mp h
  refine pairwise_middle.mpr ⟨hrest, fun e he hne => ?_, ?_⟩
  · rw [hpaddr]
    exact hl e he (hsize hne)
  · rw [hpaddr]
    exact hr

/-- **The end of `alloc`.** A cell that was clear is marked and returned. -/
theorem Ready.take (h : Ready s l d r) :
    ∃ i, i ∉ ones d.status ∧ (take (.node d.node) d.size s).1 = d.paddr + bitSize * i ∧
      ones (d.taken d.size).status = insert i (ones d.status) ∧ (d.taken d.size).InUse ∧
      Inv (take (.node d.node) d.size s).2 (l ++ d.taken d.size :: r) := by
  obtain ⟨i, hclear, hoff, hones, huse⟩ := h.counted.taken h.room
  obtain ⟨hobj, hrep⟩ := take_rep h.rep d.size
  have hi : i ∈ ones (d.taken d.size).status := by rw [hones]; simp
  refine ⟨i, hclear, ?_, hones, huse, hrep, forall_mem_insert h.ok ⟨h.page, Or.inr huse⟩, ?_⟩
  · have h1 := lt_of_mem_ones hi
    have h2 := h.page.high
    rw [hobj, hoff]
    refine Nat.mod_eq_of_lt ?_
    unfold bitSize pageSize at *
    omega
  · exact ordered_replace h.order rfl fun _ => h.counted.size_ne

/-- The search of `free` finds the descriptor in use. -/
theorem Inv.covers_first (h : Inv s (l ++ d :: r)) {i : Nat} (hi : i ∈ ones d.status) :
    d.Covers (d.paddr + bitSize * i) ∧ ∀ e ∈ l, ¬ e.Covers (d.paddr + bitSize * i) := by
  have hd := h.ok d (by simp)
  refine ⟨(Desc.covers_iff hd.page _).mpr (Desc.cell_mem hi), ?_⟩
  intro e he hcov
  have hepage := (h.ok e (by simp [he])).page
  have hpaddr := hepage.eq_of_mem hd.page ((Desc.covers_iff hepage _).mp hcov) (Desc.cell_mem hi)
  have horder := (pairwise_middle.mp h.order).2.1 e he
  exact horder (hd.inUse_of_mem hi).size_ne hpaddr

/-- **`free`** of a marked object: the search ends at the descriptor in use, its
bit is cleared, and the page is given back if this was the last object on it. -/
theorem Inv.free (h : Inv s ds) (hd : d ∈ ds) {i fuel : Nat} (hi : i ∈ ones d.status)
    (hf : ds.length < fuel) :
    ∃ l r s', ds = l ++ d :: r ∧
      (∀ e ∈ l, ¬ e.Covers (d.paddr + bitSize * i)) ∧ d.Covers (d.paddr + bitSize * i) ∧
      freeEnter fuel (d.paddr + bitSize * i) s =
        some (if d.num = 1 then .emptied (kva2pa d.paddr) s' else .kept s') ∧
      Inv s' (l ++ d.released (d.paddr + bitSize * i) :: r) ∧
      s'.nowPlainPage = s.nowPlainPage ∧ s'.offset = s.offset := by
  obtain ⟨l, r, rfl⟩ := List.append_of_mem hd
  have hok := h.ok d hd
  obtain ⟨hcov, hl⟩ := h.covers_first hi
  obtain ⟨hones, hlast, hmore⟩ := (hok.inUse_of_mem hi).released hi
  have hinv : ∀ s', Rep s' (l ++ d.released (d.paddr + bitSize * i) :: r) →
      Inv s' (l ++ d.released (d.paddr + bitSize * i) :: r) := by
    intro s' hrep
    refine ⟨hrep, forall_mem_replace h.ok ⟨hok.page, ?_⟩, ?_⟩
    · by_cases h1 : d.num = 1
      · exact Or.inl (hlast h1)
      · exact Or.inr (hmore h1)
    · exact ordered_replace h.order rfl fun _ => (hok.inUse_of_mem hi).size_ne
  have hlow := hok.page.low
  obtain ⟨res, hres, hspec⟩ := freeEnter_spec (d.paddr + bitSize * i) h.rep hf
  cases hspec with
  | null h0 => unfold kernBase at hlow; omega
  | panic h0 hnone => exact absurd hcov (hnone d hd)
  | @kept l' r' d' s' h0 hds hc hn hnum hrep hp ho =>
    obtain ⟨rfl, rfl, rfl⟩ := first_hit_unique hds hcov hc hl hn
    exact ⟨l', r', s', rfl, hl, hcov, by rw [if_neg hnum]; exact hres, hinv s' hrep, hp, ho⟩
  | @emptied l' r' d' s' h0 hds hc hn hnum hrep hp ho =>
    obtain ⟨rfl, rfl, rfl⟩ := first_hit_unique hds hcov hc hl hn
    exact ⟨l', r', s', rfl, hl, hcov, by rw [if_pos hnum]; exact hres, hinv s' hrep, hp, ho⟩

end Slab

/-! ### Objects and pages -/

section Effects

variable {ds l r : List Desc} {d d' : Desc}

/-- A page is described by one used descriptor only. -/
theorem Ordered.eq_of_page (h : Ordered ds) {e : Desc} (hd : d ∈ ds) (he : e ∈ ds)
    (hds : d.size ≠ pgEmpty) (hes : e.size ≠ pgEmpty) (heq : d.paddr = e.paddr) : d = e := by
  obtain ⟨l, r, rfl⟩ := List.append_of_mem hd
  obtain ⟨-, hl, hr⟩ := pairwise_middle.mp h
  rcases mem_middle.mp he with rfl | he
  · rfl
  · rcases List.mem_append.mp he with he | he
    · exact absurd heq.symm (hl e he hds)
    · exact absurd heq (hr e he hes)

theorem holds_mark {i : Nat} (hpaddr : d'.paddr = d.paddr) (hsize : d'.size = d.size)
    (hones : ones d'.status = insert i (ones d.status)) (a n : Nat) :
    Holds (l ++ d' :: r) a n ↔
      (a = d.paddr + bitSize * i ∧ n = d.size) ∨ Holds (l ++ d :: r) a n := by
  rw [Holds, exists_mem_middle, Holds, exists_mem_middle, ← or_assoc]
  refine or_congr_left ?_
  rw [hpaddr, hsize, hones, Finset.exists_mem_insert, and_or_left, @eq_comm _ n]
  exact or_congr_left and_comm

/-- The address of an object determines its descriptor and its cell. -/
theorem cell_unique (hok : ∀ e ∈ ds, e.OK) (h : Ordered ds) {e : Desc} {i j : Nat}
    (hd : d ∈ ds) (he : e ∈ ds) (hi : i ∈ ones d.status) (hj : j ∈ ones e.status)
    (heq : d.paddr + bitSize * i = e.paddr + bitSize * j) : d = e ∧ i = j := by
  have hmem : e.paddr ≤ d.paddr + bitSize * i ∧ d.paddr + bitSize * i < e.paddr + pageSize := by
    rw [heq]
    exact Desc.cell_mem hj
  have hpage := (hok d hd).page.eq_of_mem (hok e he).page (Desc.cell_mem hi) hmem
  have hde := h.eq_of_page hd he ((hok d hd).inUse_of_mem hi).size_ne
    ((hok e he).inUse_of_mem hj).size_ne hpage
  refine ⟨hde, ?_⟩
  rw [hpage] at heq
  have := Nat.add_left_cancel heq
  unfold bitSize at this
  omega

/-- The page of a used descriptor is used by no other. -/
theorem Ordered.not_usesPage_rest (h : Ordered (l ++ d :: r)) (hsize : d.size ≠ pgEmpty) :
    ¬ UsesPage (l ++ r) d.paddr := by
  rintro ⟨e, he, hne, heq⟩
  obtain ⟨-, hl, hr⟩ := pairwise_middle.mp h
  rcases List.mem_append.mp he with he | he
  · exact hl e he hsize heq
  · exact hr e he hne heq.symm

/-- Clearing a cell takes its object away, and no other. -/
theorem holds_clear {i : Nat} (hok : ∀ e ∈ l ++ d :: r, e.OK) (h : Ordered (l ++ d :: r))
    (hpaddr : d'.paddr = d.paddr) (hsize : d'.size = d.size ∨ ones d'.status = ∅)
    (hi : i ∈ ones d.status) (hones : ones d'.status = (ones d.status).erase i) (a n : Nat) :
    Holds (l ++ d' :: r) a n ↔ a ≠ d.paddr + bitSize * i ∧ Holds (l ++ d :: r) a n := by
  have hne := ((hok d (by simp)).inUse_of_mem hi).size_ne
  -- the cleared cell is marked in no other descriptor
  have hother : ∀ e ∈ l ++ r, ∀ j ∈ ones e.status,
      e.paddr + bitSize * j ≠ d.paddr + bitSize * i := by
    intro e he j hj heq
    obtain ⟨rfl, -⟩ := cell_unique hok h (mem_of_mem_rest he) (by simp) hj hi heq
    exact h.not_usesPage_rest hne ⟨e, he, hne, rfl⟩
  have hsz : ∀ j ∈ ones d'.status, d'.size = d.size := by
    intro j hj
    refine hsize.resolve_right ?_
    intro hempty
    rw [hempty] at hj
    exact absurd hj (Finset.notMem_empty j)
  have hrest : (∃ e ∈ l ++ r, e.size = n ∧ ∃ j ∈ ones e.status, a = e.paddr + bitSize * j) →
      a ≠ d.paddr + bitSize * i := by
    rintro ⟨e, he, -, j, hj, rfl⟩
    exact hother e he j hj
  rw [Holds, exists_mem_middle, Holds, exists_mem_middle, and_or_left, and_iff_right_of_imp hrest]
  refine or_congr_left ?_
  constructor
  · rintro ⟨rfl, j, hj, rfl⟩
    have hs := hsz j hj
    rw [hones, Finset.mem_erase] at hj
    rw [hpaddr]
    refine ⟨?_, hs.symm, j, hj.2, rfl⟩
    intro heq
    unfold bitSize at heq
    omega
  · rintro ⟨hcell, rfl, j, hj, rfl⟩
    have hji : j ≠ i := by
      rintro rfl
      exact hcell rfl
    have hj' : j ∈ ones d'.status := by
      rw [hones]
      exact Finset.mem_erase.mpr ⟨hji, hj⟩
    exact ⟨hsz j hj', j, hj', by rw [hpaddr]⟩

/-- The pages in use depend on sizes and addresses only. -/
theorem usesPage_congr (hpaddr : d'.paddr = d.paddr)
    (hsize : d'.size ≠ pgEmpty ↔ d.size ≠ pgEmpty) (a : Nat) :
    UsesPage (l ++ d' :: r) a ↔ UsesPage (l ++ d :: r) a := by
  rw [UsesPage, exists_mem_middle, UsesPage, exists_mem_middle, hsize, hpaddr]

theorem usesPage_unused (hsize : d.size = pgEmpty) (a : Nat) :
    UsesPage (l ++ d :: r) a ↔ UsesPage (l ++ r) a := by
  rw [UsesPage, exists_mem_middle]
  exact or_iff_right fun h => h.1 hsize

theorem usesPage_used (hsize : d.size ≠ pgEmpty) (a : Nat) :
    UsesPage (l ++ d :: r) a ↔ a = d.paddr ∨ UsesPage (l ++ r) a := by
  rw [UsesPage, exists_mem_middle, and_iff_right hsize, eq_comm]
  exact Iff.rfl

/-- A descriptor without marks holds nothing. -/
theorem holds_unmarked (hones : ones d.status = ∅) (a n : Nat) :
    Holds (l ++ d :: r) a n ↔ Holds (l ++ r) a n := by
  rw [Holds, exists_mem_middle]
  refine or_iff_right ?_
  rintro ⟨-, i, hi, -⟩
  rw [hones] at hi
  exact absurd hi (Finset.notMem_empty i)

end Effects

/-- `alloc` has taken the object `obj` of size `n` out of the pages `ds`, to which
it may have added the page `new`. -/
structure Took (s' : Slab) (obj n : Nat) (new : Option Nat) (ds ds' : List Desc) : Prop where
  inv : s'.Inv ds'
  kern : kernBase ≤ obj
  fresh : ∀ m, ¬ Holds ds obj m
  holds : ∀ a m, Holds ds' a m ↔ (a = obj ∧ m = n) ∨ Holds ds a m
  pages : ∀ a, UsesPage ds' a ↔ new = some a ∨ UsesPage ds a

theorem Took.ne_zero {s' : Slab} {obj n : Nat} {new : Option Nat} {ds ds' : List Desc}
    (h : Took s' obj n new ds ds') : obj ≠ 0 :=
  Nat.ne_of_gt (Nat.lt_of_lt_of_le (by decide) h.kern)

namespace Slab

variable {s : Slab} {ds l r : List Desc} {d : Desc}

/-- **The end of `alloc`, by its effect.** -/
theorem Ready.took (h : s.Ready l d r) :
    Took (s.take (.node d.node) d.size).2 (s.take (.node d.node) d.size).1 d.size none
      (l ++ d :: r) (l ++ d.taken d.size :: r) := by
  obtain ⟨i, hclear, hobj, hones, huse, hinv⟩ := h.take
  have hne := h.counted.size_ne
  have hi : i ∈ ones (d.taken d.size).status := by rw [hones]; simp
  rw [hobj]
  refine ⟨hinv, ?_, ?_, ?_, ?_⟩
  · have := h.page.low
    omega
  · -- an object there would be on the page of `d`, hence in the cell `i` of `d`
    rintro m ⟨e, he, -, j, hj, heq⟩
    rcases mem_middle.mp he with rfl | he
    · have hij : i = j := by unfold bitSize at heq; omega
      exact hclear (hij ▸ hj)
    · have hok := h.ok e he
      have hcell : e.paddr ≤ d.paddr + bitSize * i ∧
          d.paddr + bitSize * i < e.paddr + pageSize := by
        rw [heq]
        exact Desc.cell_mem hj
      have hpage := hok.page.eq_of_mem h.page hcell (Desc.cell_mem (d := d.taken d.size) hi)
      exact h.order.not_usesPage_rest hne ⟨e, he, (hok.inUse_of_mem hj).size_ne, hpage⟩
  · exact holds_mark rfl rfl hones
  · intro a
    have huses := @usesPage_congr l r d (d.taken d.size) rfl Iff.rfl a
    rw [huses]
    simp

/-- `alloc` with a new page under an unused descriptor. -/
theorem Inv.reuse (h : Inv s (l ++ d :: r)) (hempty : d.size = pgEmpty) {a size : Nat}
    (ha : KernPage a) (hsize : size ∈ friSize) (hl : ∀ e ∈ l, e.paddr ≠ a)
    (hnew : ¬ UsesPage r a) :
    Took (take (.node d.node) size (install (.node d.node) a size s)).2
      (take (.node d.node) size (install (.node d.node) a size s)).1 size (some a)
      (l ++ d :: r) (l ++ (Desc.fresh d.node a size).taken size :: r) := by
  have hready := h.install_ready ha hsize hl hnew
  have htook := hready.took
  have hones : ones d.status = ∅ := by
    rw [((h.ok d (by simp)).unused hempty).status]
    exact ones_zero
  -- neither descriptor holds an object
  have hback : ∀ b m, Holds (l ++ Desc.fresh d.node a size :: r) b m ↔
      Holds (l ++ d :: r) b m := by
    intro b m
    rw [holds_unmarked (Desc.ones_fresh _ _ _), holds_unmarked hones]
  refine ⟨htook.inv, htook.kern, ?_, ?_, ?_⟩
  · intro m hold
    exact htook.fresh m ((hback _ m).mpr hold)
  · intro b m
    rw [← hback]
    exact htook.holds b m
  · intro b
    have huses := htook.pages b
    rw [usesPage_used hready.counted.size_ne] at huses
    rw [usesPage_unused hempty]
    simpa [eq_comm] using huses

/-- `alloc` with a new page under a new descriptor. -/
theorem Inv.extend (h : Inv s ds) {a size n : Nat} (ha : KernPage a) (hsize : size ∈ friSize)
    (hn : ∀ d ∈ ds, d.node ≠ n) (hnew : ¬ UsesPage ds a) :
    Took (take (.node n) size (install (.node n) a size (link (.node n) s))).2
      (take (.node n) size (install (.node n) a size (link (.node n) s))).1 size (some a)
      ds ((Desc.fresh n a size).taken size :: ds) := by
  have hready := h.link_ready ha hsize hn hnew
  have htook := hready.took
  have hback : ∀ b m, Holds ([] ++ Desc.fresh n a size :: ds) b m ↔ Holds ds b m := by
    intro b m
    rw [holds_unmarked (Desc.ones_fresh _ _ _), List.nil_append]
  refine ⟨htook.inv, htook.kern, ?_, ?_, ?_⟩
  · intro m hold
    exact htook.fresh m ((hback _ m).mpr hold)
  · intro b m
    rw [← hback]
    exact htook.holds b m
  · intro b
    have huses := htook.pages b
    rw [usesPage_used hready.counted.size_ne] at huses
    simpa [eq_comm] using huses

end Slab

/-- `free` has taken the object `obj` off the page of `d`. -/
structure Released (obj : Nat) (d : Desc) (ds ds' : List Desc) : Prop where
  holds : ∀ a m, Holds ds' a m ↔ a ≠ obj ∧ Holds ds a m
  pages : ∀ a, UsesPage ds' a ↔ UsesPage ds a ∧ (d.num = 1 → a ≠ d.paddr)

/-- **`free`, by its effect.** -/
theorem Slab.Inv.released {s : Slab} {l r : List Desc} {d : Desc} (h : s.Inv (l ++ d :: r))
    {i : Nat} (hi : i ∈ ones d.status) :
    Released (d.paddr + bitSize * i) d (l ++ d :: r)
      (l ++ d.released (d.paddr + bitSize * i) :: r) := by
  have huse := (h.ok d (by simp)).inUse_of_mem hi
  obtain ⟨hones, hlast, hmore⟩ := huse.released hi
  refine ⟨?_, ?_⟩
  · refine holds_clear h.ok h.order rfl ?_ hi hones
    by_cases h1 : d.num = 1
    · refine Or.inr ?_
      rw [(hlast h1).status]
      exact ones_zero
    · exact Or.inl (by simp [Desc.released, h1])
  · intro a
    by_cases h1 : d.num = 1
    · rw [usesPage_unused (hlast h1).size, usesPage_used huse.size_ne]
      constructor
      · intro hrest
        refine ⟨Or.inr hrest, fun _ => ?_⟩
        rintro rfl
        exact h.order.not_usesPage_rest huse.size_ne hrest
      · rintro ⟨rfl | hrest, hne⟩
        · exact absurd rfl (hne h1)
        · exact hrest
    · have hsize : (d.released (d.paddr + bitSize * i)).size = d.size := by
        simp [Desc.released, h1]
      have hcongr := @usesPage_congr l r d (d.released (d.paddr + bitSize * i)) rfl (by rw [hsize]) a
      rw [hcongr]
      simp [h1]

end AimKernel
