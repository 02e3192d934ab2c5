import Mathlib.Algebra.Order.BigOperators.Group.List
import Mathlib.Algebra.Order.Ring.Nat
import AimKernel.Lib.Regions
import AimKernel.Mm.Slab

/-!
# AimKernel.Mm.PlainPage

The storage of the slab allocator's descriptors: runs of `get_plain_object` from
`simple_allocator_init` on.

A run records the plain pages so far and the regions handed out. While the requests
fit in the first page, `offset` separates the objects. The call that opens the second
page returns its start and leaves `offset` at zero, so the next call returns the same
address again. The regions are therefore disjoint exactly if the requests before the
last one fit in a single page (`plain_objects_disjoint_iff`).
-/

namespace AimKernel

open Slab

/-- The addresses of the plain page at the physical address `pa`. -/
def plainPage (pa : Nat) : Region := ⟨pa2kva pa, pageSize⟩

/-- A page `pgalloc` can return: aligned, and inside the kernel's linear mapping. -/
def IsPlainPage (pa : Nat) : Prop := PageBelow kernBase pa

instance (pa : Nat) : Decidable (IsPlainPage pa) := inferInstanceAs (Decidable (PageBelow _ _))

theorem IsPlainPage.ne_addrError {pa : Nat} (h : IsPlainPage pa) : pa ≠ addrError :=
  Nat.ne_of_lt (h.mono (by decide)).lt

theorem IsPlainPage.pa2kva_eq {pa : Nat} (h : IsPlainPage pa) : pa2kva pa = pa + kernBase :=
  AimKernel.pa2kva_eq h.lt

/-- A fresh page is disjoint from the others. -/
theorem IsPlainPage.disjoint {pa pb : Nat} (ha : IsPlainPage pa) (hb : IsPlainPage pb)
    (hne : pa ≠ pb) : Disjoint (plainPage pa).bytes (plainPage pb).bytes := by
  rw [Set.disjoint_left]
  intro x hxa hxb
  have := PageBelow.apart ha hb hne
  simp only [plainPage, Region.mem_bytes, Region.stop, ha.pa2kva_eq, hb.pa2kva_eq] at hxa hxb
  omega

/-- The allocator, the plain pages it has obtained, and the regions
`get_plain_object` has returned, oldest first. -/
structure PlainRun where
  slab : Slab
  pages : List Nat
  objs : List Region

namespace PlainRun

/-- `simple_allocator_init`, whose `new_plain_page` gets the page `pa`. -/
def simpleAllocatorInit (s : Slab) (pa : Nat) : PlainRun :=
  let (page, s) := newPlainPage pa (initLinks s)
  ⟨{ s with nowPlainPage := page }, [pa], []⟩

/-- One `get_plain_object(size)`. -/
inductive Step : PlainRun → Nat → PlainRun → Prop
  /-- The object fits in the plain page. -/
  | fits {r : PlainRun} {size a : Nat} {s : Slab} (h : plainEnter size r.slab = .obj a s) :
      Step r size ⟨s, r.pages, r.objs ++ [⟨a, size⟩]⟩
  /-- `new_plain_page` gets the fresh page `pa`. -/
  | page {r : PlainRun} {size a : Nat} {s : Slab} (pa : Nat)
      (h : plainEnter size r.slab = .needPage) (hpa : IsPlainPage pa) (hfresh : pa ∉ r.pages)
      (hleave : plainLeave pa r.slab = .obj a s) :
      Step r size ⟨s, r.pages ++ [pa], r.objs ++ [⟨a, size⟩]⟩

/-- The calls `get_plain_object(size)` for the given sizes, one after the other. -/
inductive Calls (r : PlainRun) : List Nat → PlainRun → Prop
  | nil : Calls r [] r
  | snoc {sizes : List Nat} {size : Nat} {r' r'' : PlainRun} (h : Calls r sizes r')
      (hstep : Step r' size r'') : Calls r (sizes ++ [size]) r''

/-- The regions are pairwise disjoint. -/
def ObjsDisjoint (r : PlainRun) : Prop :=
  r.objs.Pairwise fun a b => Disjoint a.bytes b.bytes

/-- Each region lies inside one plain page. -/
def ObjsInside (r : PlainRun) : Prop :=
  ∀ o ∈ r.objs, ∃ pa ∈ r.pages, o.bytes ⊆ (plainPage pa).bytes

/-! ### What a call does -/

variable {r r' : PlainRun} {size pa pa0 : Nat} {s s0 : Slab} {sizes : List Nat}

/-- A call takes the next bytes of the plain page, or the start of a fresh one. -/
theorem Step.cases (hstep : Step r size r') (hsize : size ≤ pageSize) :
    (r.slab.offset + size ≤ pageSize ∧ r'.pages = r.pages ∧
      r'.objs = r.objs ++ [⟨u32 (r.slab.nowPlainPage + r.slab.offset), size⟩] ∧
      r'.slab.nowPlainPage = r.slab.nowPlainPage ∧
      r'.slab.offset = r.slab.offset + size) ∨
    (pageSize < r.slab.offset + size ∧ ∃ pa, IsPlainPage pa ∧ pa ∉ r.pages ∧
      r'.pages = r.pages ++ [pa] ∧ r'.objs = r.objs ++ [⟨pa2kva pa, size⟩] ∧
      r'.slab.nowPlainPage = pa2kva pa ∧ r'.slab.offset = 0) := by
  cases hstep with
  | fits h =>
    rw [plainEnter, if_neg (by omega)] at h
    split at h
    case isFalse => cases h
    case isTrue hroom =>
      cases h
      exact .inl ⟨hroom, rfl, rfl, rfl, rfl⟩
  | page pa h hpa hfresh hleave =>
    rw [plainEnter, if_neg (by omega)] at h
    split at h
    case isTrue => cases h
    case isFalse hroom =>
      simp only [plainLeave, newPlainPage, if_neg hpa.ne_addrError] at hleave
      split at hleave
      · cases hleave
      · obtain ⟨rfl, rfl⟩ := PlainStep.obj.inj hleave
        exact .inr ⟨by omega, pa, hpa, hfresh, rfl, rfl, rfl, rfl⟩

/-- If the request fits, the call goes through. -/
theorem Step.exists_fits (hsize : size ≤ pageSize) (hroom : r.slab.offset + size ≤ pageSize) :
    ∃ r', Step r size r' := by
  have hobj : plainEnter size r.slab = .obj (u32 (r.slab.nowPlainPage + r.slab.offset))
      { r.slab with offset := r.slab.offset + size } := by
    rw [plainEnter, if_neg (by omega), if_pos hroom]
  exact ⟨_, .fits hobj⟩

/-- Otherwise it goes through with any fresh page. -/
theorem Step.exists_page (hsize : size ≤ pageSize) (hroom : pageSize < r.slab.offset + size)
    (hpa : IsPlainPage pa) (hfresh : pa ∉ r.pages) :
    ∃ r', Step r size r' := by
  have hneed : plainEnter size r.slab = .needPage := by
    rw [plainEnter, if_neg (by omega), if_neg (by omega)]
  have hnull : pa2kva pa ≠ 0 := by
    rw [hpa.pa2kva_eq]
    unfold kernBase
    omega
  have hobj : plainLeave pa r.slab =
      .obj (pa2kva pa) { r.slab with offset := 0, nowPlainPage := pa2kva pa } := by
    simp only [plainLeave, newPlainPage, if_neg hpa.ne_addrError, if_neg hnull]
  exact ⟨_, .page pa hneed hpa hfresh hobj⟩

/-! ### The invariant of a run -/

/-- The bump pointer is inside the current plain page, and the regions are inside
plain pages. -/
structure Placed (r : PlainRun) : Prop where
  pages : ∀ pa ∈ r.pages, IsPlainPage pa
  now : ∃ pa ∈ r.pages, r.slab.nowPlainPage = pa2kva pa
  inside : r.ObjsInside

theorem Placed.u32_now (h : Placed r) (hoff : r.slab.offset < pageSize) :
    u32 (r.slab.nowPlainPage + r.slab.offset) = r.slab.nowPlainPage + r.slab.offset := by
  obtain ⟨pa, hpa, hnow⟩ := h.now
  have hle := (h.pages pa hpa).2
  rw [hnow, (h.pages pa hpa).pa2kva_eq]
  refine Nat.mod_eq_of_lt ?_
  unfold kernBase at *
  omega

theorem Step.placed (hstep : Step r size r') (hpos : 0 < size) (hsize : size ≤ pageSize)
    (h : Placed r) : Placed r' := by
  obtain ⟨hroom, hpages, hobjs, hnow, -⟩ | ⟨-, pa, hpa, -, hpages, hobjs, hnow, -⟩ :=
    hstep.cases hsize
  · rw [h.u32_now (by omega)] at hobjs
    refine ⟨?_, ?_, ?_⟩
    · rw [hpages]
      exact h.pages
    · rw [hpages, hnow]
      exact h.now
    · intro o ho
      rw [hpages]
      rw [hobjs] at ho
      rcases List.mem_append.mp ho with ho | ho
      · exact h.inside o ho
      · obtain ⟨pa, hpa, hnow'⟩ := h.now
        refine ⟨pa, hpa, fun x hx => ?_⟩
        rw [List.mem_singleton.mp ho] at hx
        simp only [plainPage, Region.mem_bytes, Region.stop, hnow'] at hx ⊢
        omega
  · refine ⟨?_, ?_, ?_⟩
    · intro p hp
      rw [hpages] at hp
      rcases List.mem_append.mp hp with hp | hp
      · exact h.pages p hp
      · rw [List.mem_singleton.mp hp]
        exact hpa
    · refine ⟨pa, ?_, hnow⟩
      rw [hpages]
      simp
    · intro o ho
      rw [hpages]
      rw [hobjs] at ho
      rcases List.mem_append.mp ho with ho | ho
      · obtain ⟨p, hp, hsub⟩ := h.inside o ho
        exact ⟨p, List.mem_append_left _ hp, hsub⟩
      · refine ⟨pa, by simp, fun x hx => ?_⟩
        rw [List.mem_singleton.mp ho] at hx
        simp only [plainPage, Region.mem_bytes, Region.stop] at hx ⊢
        omega

/-- How far a run with the given requests has come. -/
inductive Phase (r : PlainRun) (sizes : List Nat) : Prop
  /-- Everything lies below `offset` in the first page. -/
  | first (hsum : sizes.sum ≤ pageSize) (hoff : r.slab.offset = sizes.sum)
      (hbelow : ∀ o ∈ r.objs, o.stop ≤ r.slab.nowPlainPage + r.slab.offset)
      (hdisj : r.ObjsDisjoint)
  /-- The last call has opened the second page. -/
  | opened (hlast : sizes.dropLast.sum ≤ pageSize) (hsum : pageSize < sizes.sum)
      (hoff : r.slab.offset = 0)
      (hstart : ∃ o ∈ r.objs, o.base = r.slab.nowPlainPage ∧ 0 < o.len)
      (hdisj : r.ObjsDisjoint)
  /-- The call after that has returned the same object. -/
  | clashed (hlast : pageSize < sizes.dropLast.sum) (hclash : ¬ r.ObjsDisjoint)

/-- Bytes below a new object of positive size are not in it. -/
theorem disjoint_of_stop_le {a b : Region} (h : a.stop ≤ b.base) :
    Disjoint a.bytes b.bytes := by
  rw [Set.disjoint_left]
  intro x hxa hxb
  rw [Region.mem_bytes] at hxa hxb
  omega

theorem ObjsDisjoint.snoc {o : Region} (h : r.ObjsDisjoint) (hobjs : r'.objs = r.objs ++ [o])
    (ho : ∀ p ∈ r.objs, Disjoint p.bytes o.bytes) : r'.ObjsDisjoint := by
  unfold ObjsDisjoint
  rw [hobjs, List.pairwise_append]
  refine ⟨h, List.pairwise_singleton _ _, fun p hp q hq => ?_⟩
  rw [List.mem_singleton.mp hq]
  exact ho p hp

theorem not_disjoint_snoc {o : Region} (h : ¬ r.ObjsDisjoint)
    (hobjs : r'.objs = r.objs ++ [o]) : ¬ r'.ObjsDisjoint := by
  intro hdisj
  unfold ObjsDisjoint at hdisj
  rw [hobjs, List.pairwise_append] at hdisj
  exact h hdisj.1

theorem not_disjoint_of_same_base {o p : Region} (hp : p ∈ r.objs)
    (hobjs : r'.objs = r.objs ++ [o]) (hbase : p.base = o.base) (hp0 : 0 < p.len)
    (ho0 : 0 < o.len) : ¬ r'.ObjsDisjoint := by
  intro hdisj
  unfold ObjsDisjoint at hdisj
  rw [hobjs, List.pairwise_append] at hdisj
  have hpo := (Region.disjoint_iff hp0 ho0).mp
    (hdisj.2.2 p hp o (List.mem_singleton.mpr rfl))
  unfold Region.stop at hpo
  omega

theorem sum_dropLast_le (sizes : List Nat) : sizes.dropLast.sum ≤ sizes.sum :=
  (List.dropLast_sublist sizes).sum_le_sum fun _ _ => Nat.zero_le _

/-- One call moves a run to the phase its requests say. -/
theorem Step.phase (hstep : Step r size r') (hpos : 0 < size) (hsize : size ≤ pageSize)
    (hplaced : Placed r) (h : Phase r sizes) : Phase r' (sizes ++ [size]) := by
  have hsum' : (sizes ++ [size]).sum = sizes.sum + size := by simp
  have hdrop : (sizes ++ [size]).dropLast = sizes := List.dropLast_concat
  obtain ⟨hroom, -, hobjs, hnow, hoff'⟩ | ⟨hroom, pa, hpa, hfresh, -, hobjs, hnow, hoff'⟩ :=
    hstep.cases hsize
  · rw [hplaced.u32_now (by omega)] at hobjs
    cases h with
    | first hsum hoff hbelow hdisj =>
      refine .first (by omega) (by omega) ?_ (hdisj.snoc hobjs fun p hp => ?_)
      · intro o ho
        rw [hobjs] at ho
        rcases List.mem_append.mp ho with ho | ho
        · have := hbelow o ho
          omega
        · rw [List.mem_singleton.mp ho]
          dsimp only [Region.stop]
          omega
      · exact disjoint_of_stop_le (hbelow p hp)
    | opened hlast hsum hoff hstart hdisj =>
      -- `offset` is still zero: the page's first object is returned again
      obtain ⟨o, ho, hbase, hlen⟩ := hstart
      refine .clashed (by rw [hdrop]; exact hsum) ?_
      refine not_disjoint_of_same_base ho hobjs ?_ hlen hpos
      rw [hbase, hoff]
      rfl
    | clashed hlast hclash =>
      refine .clashed ?_ (not_disjoint_snoc hclash hobjs)
      rw [hdrop]
      exact lt_of_lt_of_le hlast (sum_dropLast_le sizes)
  · cases h with
    | first hsum hoff hbelow hdisj =>
      refine .opened (by rw [hdrop]; exact hsum) (by omega) hoff'
        ⟨⟨pa2kva pa, size⟩, ?_, hnow.symm, hpos⟩ (hdisj.snoc hobjs fun p hp => ?_)
      · rw [hobjs]
        simp
      · obtain ⟨pb, hpb, hsub⟩ := hplaced.inside p hp
        have hne : pb ≠ pa := fun heq => hfresh (heq ▸ hpb)
        refine ((hplaced.pages pb hpb).disjoint hpa hne).mono hsub fun x hx => ?_
        simp only [plainPage, Region.mem_bytes, Region.stop] at hx ⊢
        omega
    | opened hlast hsum hoff hstart hdisj => omega
    | clashed hlast hclash =>
      refine .clashed ?_ (not_disjoint_snoc hclash hobjs)
      rw [hdrop]
      exact lt_of_lt_of_le hlast (sum_dropLast_le sizes)

theorem simpleAllocatorInit_eq (s0 : Slab) (hpa : IsPlainPage pa0) :
    (simpleAllocatorInit s0 pa0).slab.nowPlainPage = pa2kva pa0 ∧
      (simpleAllocatorInit s0 pa0).slab.offset = 0 := by
  simp only [simpleAllocatorInit, newPlainPage, if_neg hpa.ne_addrError]
  exact ⟨trivial, trivial⟩

theorem Calls.inv (hrun : Calls (simpleAllocatorInit s0 pa0) sizes r) (hpa : IsPlainPage pa0)
    (hsizes : ∀ z ∈ sizes, 0 < z ∧ z ≤ pageSize) : Placed r ∧ Phase r sizes := by
  induction hrun with
  | nil =>
    obtain ⟨hnow, hoff⟩ := simpleAllocatorInit_eq s0 hpa
    refine ⟨⟨?_, ⟨pa0, ?_, hnow⟩, ?_⟩, .first (Nat.zero_le _) hoff ?_ .nil⟩
    · intro p hp
      rw [List.mem_singleton.mp hp]
      exact hpa
    · exact List.mem_singleton.mpr rfl
    · exact fun o ho => absurd ho List.not_mem_nil
    · exact fun o ho => absurd ho List.not_mem_nil
  | @snoc sizes size r' r'' _ hstep ih =>
    obtain ⟨hplaced, hphase⟩ := ih fun z hz => hsizes z (List.mem_append_left _ hz)
    obtain ⟨hpos, hsize⟩ := hsizes size (by simp)
    exact ⟨hstep.placed hpos hsize hplaced, hstep.phase hpos hsize hplaced hphase⟩

/-- Descriptor storage: the regions returned by any number of calls each lie inside one
plain page, and they are pairwise disjoint exactly if the requests before the last fit
together in one page. -/
theorem plain_objects_disjoint_iff (hpa : IsPlainPage pa0)
    (hsizes : ∀ z ∈ sizes, 0 < z ∧ z ≤ pageSize)
    (hrun : Calls (simpleAllocatorInit s0 pa0) sizes r) :
    r.ObjsDisjoint ∧ r.ObjsInside ↔ sizes.dropLast.sum ≤ pageSize := by
  obtain ⟨hplaced, hphase⟩ := hrun.inv hpa hsizes
  cases hphase with
  | first hsum _ _ hdisj =>
    exact iff_of_true ⟨hdisj, hplaced.inside⟩
      ((sum_dropLast_le sizes).trans hsum)
  | opened hlast _ _ _ hdisj => exact iff_of_true ⟨hdisj, hplaced.inside⟩ hlast
  | clashed hlast hclash => exact iff_of_false (fun h => hclash h.1) (Nat.not_le.mpr hlast)

/-! ### Descriptors until the page is full -/

/-- As long as the requests fit in one page, all calls go through. -/
theorem Calls.exists_of_sum_le (hpa : IsPlainPage pa0)
    (hsizes : ∀ z ∈ sizes, 0 < z ∧ z ≤ pageSize) (hsum : sizes.sum ≤ pageSize) :
    ∃ r, Calls (simpleAllocatorInit s0 pa0) sizes r ∧ r.slab.offset = sizes.sum ∧
      r.pages = [pa0] := by
  induction sizes using List.reverseRecOn with
  | nil => exact ⟨_, .nil, (simpleAllocatorInit_eq s0 hpa).2, rfl⟩
  | append_singleton sizes size ih =>
    have hsum' : (sizes ++ [size]).sum = sizes.sum + size := by simp
    obtain ⟨r, hrun, hoff, hpages⟩ :=
      ih (fun z hz => hsizes z (List.mem_append_left _ hz)) (by omega)
    obtain ⟨-, hsize⟩ := hsizes size (by simp)
    obtain ⟨r', hstep⟩ := Step.exists_fits (r := r) hsize (by omega)
    refine ⟨r', .snoc hrun hstep, ?_⟩
    obtain ⟨-, hpages', -, -, hoff'⟩ | ⟨hfull, -⟩ := hstep.cases hsize
    · exact ⟨by omega, hpages'.trans hpages⟩
    · omega

/-- The first page at `0x100000`, filled with descriptors. -/
theorem plain_objects_disjoint_full_page :
    ∃ r, Calls (simpleAllocatorInit ⟨fun _ => ⟨.null, .null, 0, 0, 0, 0⟩, 0, 0⟩ 0x100000)
      (List.replicate 78 allocedPageSize) r ∧ r.ObjsDisjoint ∧ r.ObjsInside := by
  have hpa : IsPlainPage 0x100000 := by decide
  have hsizes : ∀ z ∈ List.replicate 78 allocedPageSize, 0 < z ∧ z ≤ pageSize := by decide
  obtain ⟨r, hrun, -⟩ := Calls.exists_of_sum_le hpa hsizes (by decide)
  exact ⟨r, hrun, (plain_objects_disjoint_iff hpa hsizes hrun).mpr (by decide)⟩

/-- The eightieth descriptor is the seventy-ninth again. -/
theorem plain_objects_clash :
    ∃ r, Calls (simpleAllocatorInit ⟨fun _ => ⟨.null, .null, 0, 0, 0, 0⟩, 0, 0⟩ 0x100000)
      (List.replicate 78 allocedPageSize ++ [allocedPageSize] ++ [allocedPageSize]) r ∧
      ¬ r.ObjsDisjoint := by
  have hpa : IsPlainPage 0x100000 := by decide
  have hfresh : IsPlainPage 0x101000 := by decide
  have hsize : allocedPageSize ≤ pageSize := by decide
  have hsizes : ∀ z ∈ List.replicate 78 allocedPageSize, 0 < z ∧ z ≤ pageSize := by decide
  obtain ⟨r, hrun, hoff, hpages⟩ := Calls.exists_of_sum_le hpa hsizes (by decide)
  have hfull : pageSize < r.slab.offset + allocedPageSize := by
    rw [hoff]
    decide
  obtain ⟨r', hopen⟩ := Step.exists_page (r := r) hsize hfull hfresh (by rw [hpages]; decide)
  obtain ⟨hroom, -⟩ | ⟨-, pa, -, -, -, -, -, hoff'⟩ := hopen.cases hsize
  · omega
  obtain ⟨r'', hstep⟩ := Step.exists_fits (r := r') hsize (by rw [hoff']; decide)
  have hcalls := (hrun.snoc hopen).snoc hstep
  refine ⟨r'', hcalls, ?_⟩
  obtain ⟨-, hphase⟩ := hcalls.inv hpa (by decide)
  cases hphase with
  | first hsum => exact absurd hsum (by decide)
  | opened hlast => exact absurd hlast (by decide)
  | clashed _ hclash => exact hclash

end PlainRun

end AimKernel
