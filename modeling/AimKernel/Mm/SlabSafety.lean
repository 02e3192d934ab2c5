import AimKernel.Lib.Regions
import AimKernel.Mm.SlabInv
import Mathlib.Logic.Relation

/-!
# AimKernel.Mm.SlabSafety

The simple allocator over whole runs, on top of a page source.

The page source hands out any page that is not held at the moment, a page given
back earlier included, and each new descriptor is stored at an address no
descriptor has been stored at before; neither calls back into the allocator. A
`SlabRun` adds the objects that are live. `AimKernel.Mm.Machine` replaces the page
source by the real one.
-/

namespace AimKernel

/-- The simple allocator, the pages it holds, and the storage its descriptors have
been given. -/
structure SlabSys where
  slab : Slab
  held : List Nat
  stored : List Nat

namespace SlabSys

/-- `pgalloc()` returning `page`. -/
def pgalloc (page : Nat) (s : SlabSys) : SlabSys := { s with held := page :: s.held }

/-- `pgfree(pa)`. -/
def pgfree (pa : Nat) (s : SlabSys) : SlabSys := { s with held := s.held.erase pa }

/-- What `alloc` has called for, given how its first part ends: a page, and storage for a
descriptor. -/
def called (page desc : Nat) (s : SlabSys) : Slab.AllocStep → SlabSys
  | .needPage _ .tail => { s.pgalloc page with stored := desc :: s.stored }
  | .needPage _ _ => s.pgalloc page
  | _ => s

/-- `alloc`, with `page` the answer of its `pgalloc` and `desc` that of its
`get_plain_object`. -/
def alloc (fuel page desc size : Nat) (s : SlabSys) : Option (Nat × SlabSys) :=
  match s.slab.allocEnter fuel size, s.slab.alloc fuel page (.obj desc s.slab) size with
  | some step, some (.ok t) => some (t.1, { s.called page desc step with slab := t.2 })
  | _, _ => none

/-- `free`: a panic message, or the state it leaves. -/
def free (fuel obj : Nat) (s : SlabSys) : Option (Except String SlabSys) :=
  match s.slab.freeEnter fuel obj with
  | none => none
  | some (.panic msg) => some (.error msg)
  | some (.kept slab) => some (.ok { s with slab := slab })
  | some (.emptied pa slab) => some (.ok (pgfree pa { s with slab := slab }))

/-- The allocator's own invariant, and: the pages held are those in use. -/
structure Inv (s : SlabSys) (ds : List Desc) : Prop where
  slab : s.slab.Inv ds
  held : ∀ p, p ∈ s.held ↔ PhysPage p ∧ UsesPage ds (pa2kva p)
  nodup : s.held.Nodup
  stored : ∀ d ∈ ds, d.node ∈ s.stored

variable {s : SlabSys} {ds : List Desc}

theorem Inv.not_uses (h : s.Inv ds) {page : Nat} (hpage : PhysPage page) (hnew : page ∉ s.held) :
    ¬ UsesPage ds (pa2kva page) :=
  fun huse => hnew ((h.held page).mpr ⟨hpage, huse⟩)

/-- The invariant after `alloc` has taken an object from the pages held before and
the new ones. -/
theorem inv_of_took (h : s.Inv ds) {slab : Slab} {held stored : List Nat} {obj n : Nat}
    {new : Option Nat} {ds' : List Desc} (htook : Took slab obj n new ds ds')
    (hheld : ∀ p, p ∈ held ↔ PhysPage p ∧ (new = some (pa2kva p) ∨ p ∈ s.held))
    (hnodup : held.Nodup) (hstored : ∀ d ∈ ds', d.node ∈ stored) :
    Inv ⟨slab, held, stored⟩ ds' := by
  refine ⟨htook.inv, ?_, hnodup, hstored⟩
  intro p
  rw [hheld p, htook.pages, h.held p]
  tauto

theorem Inv.mem_pgalloc (h : s.Inv ds) {page : Nat} (hpage : PhysPage page) (p : Nat) :
    p ∈ page :: s.held ↔ PhysPage p ∧ (some (pa2kva page) = some (pa2kva p) ∨ p ∈ s.held) := by
  rw [List.mem_cons]
  constructor
  · rintro (rfl | hp)
    · exact ⟨hpage, Or.inl rfl⟩
    · exact ⟨((h.held p).mp hp).1, Or.inr hp⟩
  · rintro ⟨hp, heq | hold⟩
    · exact Or.inl (hp.kva_inj hpage (Option.some.inj heq).symm)
    · exact Or.inr hold

section Calls

variable {fuel page desc size c : Nat} {a : Link Nat}

theorem alloc_slot (hres : s.slab.allocEnter fuel size = some (.slot c a)) :
    s.alloc fuel page desc size =
      some ((s.slab.take a c).1, ⟨(s.slab.take a c).2, s.held, s.stored⟩) := by
  simp only [alloc, Slab.alloc, hres, called]

theorem alloc_reuse {n : Nat} (hres : s.slab.allocEnter fuel size = some (.needPage c (.node n)))
    (hkva : pa2kva page ≠ 0) :
    s.alloc fuel page desc size =
      some (((s.slab.install (.node n) (pa2kva page) c).take (.node n) c).1,
        ⟨((s.slab.install (.node n) (pa2kva page) c).take (.node n) c).2, page :: s.held,
          s.stored⟩) := by
  simp only [alloc, Slab.alloc, hres, if_neg hkva, Slab.allocPage,
    if_neg (by simp : ¬ Link.node n = .tail), called, pgalloc, Slab.installTake]

theorem alloc_extend (hres : s.slab.allocEnter fuel size = some (.needPage c .tail))
    (hkva : pa2kva page ≠ 0) :
    s.alloc fuel page desc size =
      some ((((s.slab.link (.node desc)).install (.node desc) (pa2kva page) c).take
          (.node desc) c).1,
        ⟨(((s.slab.link (.node desc)).install (.node desc) (pa2kva page) c).take (.node desc) c).2,
          page :: s.held, desc :: s.stored⟩) := by
  simp only [alloc, Slab.alloc, hres, if_neg hkva, Slab.allocPage, if_true, Slab.allocPlain, called,
    pgalloc, Slab.installTake]

end Calls

/-- **`alloc`.** It returns a new object on a page of the size class asked for. -/
theorem alloc_spec (h : s.Inv ds) (fuel : Nat) {page desc size : Nat} (hpos : 0 < size)
    (hle : size ≤ pageSize) (hpage : PhysPage page) (hnew : page ∉ s.held)
    (hdesc : desc ∉ s.stored) (hf : ds.length < fuel) :
    ∃ obj s' ds', s.alloc fuel page desc size = some (obj, s') ∧ s'.Inv ds' ∧
      (∀ m, ¬ Holds ds obj m) ∧
      ∀ a m, Holds ds' a m ↔ (a = obj ∧ m = sizeClass size) ∨ Holds ds a m := by
  have hcls := (Slab.sizeClass_mem hle).1
  have hkva : pa2kva page ≠ 0 := hpage.kern.ne_zero
  obtain ⟨res, hres, hspec⟩ := Slab.allocEnter_spec size h.slab.rep hf
  cases hspec with
  | null h0 => omega
  | @slot l r d _ _ hds hroom hne =>
    subst hds
    obtain ⟨hready, heq⟩ := h.slab.ready hroom hne
    have htook := hready.took
    rw [heq] at hres ⊢
    refine ⟨_, _, _, alloc_slot hres, inv_of_took h htook ?_ h.nodup ?_, htook.fresh,
      htook.holds⟩
    · intro p
      constructor
      · intro hp
        exact ⟨((h.held p).mp hp).1, Or.inr hp⟩
      · rintro ⟨-, heq | hp⟩
        · exact absurd heq (by simp)
        · exact hp
    · exact forall_mem_replace h.stored (h.stored d (by simp))
  | @unused l r d _ _ hds hempty hl _ =>
    subst hds
    -- every descriptor before the unused one is in use, so none has the new page
    have hrest : ¬ UsesPage (l ++ r) (pa2kva page) := by
      rw [← usesPage_unused hempty]
      exact h.not_uses hpage hnew
    have htook := h.slab.reuse hempty hpage.kern hcls
      (fun e he heq => hrest ⟨e, by simp [he], hl e he, heq⟩)
      (fun ⟨e, he, hne, heq⟩ => hrest ⟨e, by simp [he], hne, heq⟩)
    refine ⟨_, _, _, alloc_reuse hres hkva,
      inv_of_took h htook (h.mem_pgalloc hpage) (List.nodup_cons.mpr ⟨hnew, h.nodup⟩) ?_,
      htook.fresh, htook.holds⟩
    refine forall_mem_replace h.stored ?_
    rw [Desc.taken_node, Desc.fresh_node]
    exact h.stored d (by simp)
  | full _ _ _ _ =>
    have hfresh : ∀ d ∈ ds, d.node ≠ desc := by
      intro d hd heq
      exact hdesc (heq ▸ h.stored d hd)
    have htook := h.slab.extend hpage.kern hcls hfresh (h.not_uses hpage hnew)
    refine ⟨_, _, _, alloc_extend hres hkva,
      inv_of_took h htook (h.mem_pgalloc hpage) (List.nodup_cons.mpr ⟨hnew, h.nodup⟩) ?_,
      htook.fresh, htook.holds⟩
    intro e he
    rcases List.mem_cons.mp he with rfl | he
    · rw [Desc.taken_node, Desc.fresh_node]
      exact List.mem_cons_self
    · exact List.mem_cons_of_mem _ (h.stored e he)

/-- **`free`** of a marked object returns. It finds the descriptor in use that owns
the object, clears the object's bit, and gives the page back if no bit is left. -/
theorem free_spec (h : s.Inv ds) (fuel : Nat) {d : Desc} (hd : d ∈ ds) {i : Nat}
    (hi : i ∈ ones d.status) (hf : ds.length < fuel) :
    ∃ l r s', ds = l ++ d :: r ∧
      (∀ e ∈ l, ¬ e.Covers (d.paddr + bitSize * i)) ∧ d.Covers (d.paddr + bitSize * i) ∧
      s.free fuel (d.paddr + bitSize * i) = some (.ok s') ∧
      s'.Inv (l ++ d.released (d.paddr + bitSize * i) :: r) := by
  obtain ⟨l, r, slab, rfl, hl, hcov, hfree, hinv, -, -⟩ := h.slab.free hd hi hf
  have hrel := h.slab.released hi
  have hstored : ∀ e ∈ l ++ d.released (d.paddr + bitSize * i) :: r, e.node ∈ s.stored :=
    forall_mem_replace h.stored (h.stored d hd)
  obtain ⟨hphys, hkva⟩ := (h.slab.ok d hd).page.phys
  unfold free
  rw [hfree]
  by_cases h1 : d.num = 1
  · refine ⟨l, r, pgfree (kva2pa d.paddr) { s with slab := slab }, rfl, hl, hcov, by simp [h1],
      hinv, ?_, h.nodup.erase _, hstored⟩
    intro p
    show p ∈ s.held.erase (kva2pa d.paddr) ↔ _
    rw [h.nodup.mem_erase_iff, h.held p, hrel.pages]
    constructor
    · rintro ⟨hne, hp, huse⟩
      refine ⟨hp, huse, fun _ heq => hne ?_⟩
      exact hp.kva_inj hphys (heq.trans hkva.symm)
    · rintro ⟨hp, huse, hne⟩
      refine ⟨?_, hp, huse⟩
      intro heq
      refine hne h1 ?_
      rw [heq]
      exact hkva
  · refine ⟨l, r, { s with slab := slab }, rfl, hl, hcov, by simp [h1], hinv, ?_, h.nodup, hstored⟩
    intro p
    rw [h.held p, hrel.pages]
    simp [h1]

theorem alloc_mono {n m page desc size : Nat} {res : Nat × SlabSys}
    (h : s.alloc n page desc size = some res) (hnm : n ≤ m) :
    s.alloc m page desc size = some res := by
  unfold alloc Slab.alloc at h ⊢
  cases hstep : s.slab.allocEnter n size with
  | none => rw [hstep] at h; exact absurd h (by simp)
  | some step =>
    rw [hstep] at h
    rw [Slab.allocEnter_mono hstep hnm]
    exact h

theorem free_mono {n m obj : Nat} {res : Except String SlabSys}
    (h : s.free n obj = some res) (hnm : n ≤ m) : s.free m obj = some res := by
  unfold free at h ⊢
  cases hstep : s.slab.freeEnter n obj with
  | none => rw [hstep] at h; exact absurd h (by simp)
  | some step =>
    rw [hstep] at h
    rw [Slab.freeEnter_mono hstep hnm]
    exact h

end SlabSys

/-! ### Runs -/

/-- A live object: its address and the size that was asked for. -/
structure Obj where
  addr : Nat
  size : Nat
  deriving Repr, DecidableEq

/-- The bytes of an object. -/
def Obj.region (o : Obj) : Region := ⟨o.addr, o.size⟩

/-- A run of the simple allocator: its state, and the objects handed out and not
freed. -/
structure SlabRun where
  sys : SlabSys
  live : List Obj

namespace SlabRun

/-- After `simple_allocator_init`, over whatever the sentinels held before. -/
def start (slab : Slab) : SlabRun :=
  { sys := { slab := slab.initLinks, held := [], stored := [] }, live := [] }

/-- One call of `alloc` or `free`. -/
inductive Step (run : SlabRun) : SlabRun → Prop
  /-- `alloc` of one byte up to a page, over a page source that hands out some page
  not held. -/
  | alloc {fuel page desc size obj : Nat} {sys' : SlabSys} :
      1 ≤ size → size ≤ pageSize → PhysPage page → page ∉ run.sys.held →
      desc ∉ run.sys.stored → run.sys.alloc fuel page desc size = some (obj, sys') →
      Step run { sys := sys', live := ⟨obj, size⟩ :: run.live }
  /-- `free` of a live object. -/
  | free {fuel : Nat} {l r : List Obj} {o : Obj} {sys' : SlabSys} :
      run.live = l ++ o :: r → run.sys.free fuel o.addr = some (.ok sys') →
      Step run { sys := sys', live := l ++ r }

/-- The invariant of a run: the marked objects are the live ones, each on a page of its
size class. -/
structure Inv (run : SlabRun) (ds : List Desc) : Prop where
  sys : run.sys.Inv ds
  nodup : (run.live.map Obj.addr).Nodup
  marked : ∀ o ∈ run.live, 0 < o.size ∧ o.size ≤ pageSize ∧ Holds ds o.addr (sizeClass o.size)
  live : ∀ a n, Holds ds a n → a ∈ run.live.map Obj.addr

theorem start_inv (slab : Slab) : (start slab).Inv [] := by
  refine ⟨⟨Slab.initLinks_inv slab, ?_, List.nodup_nil, by simp⟩, List.nodup_nil, ?_, ?_⟩
  · simp [start, UsesPage]
  · simp [start]
  · rintro a n ⟨d, hd, -⟩
    exact absurd hd List.not_mem_nil

/-- **One call keeps the invariant.** -/
theorem Step.inv {run run' : SlabRun} {ds : List Desc} (hstep : Step run run')
    (h : run.Inv ds) : ∃ ds', run'.Inv ds' := by
  cases hstep with
  | @alloc fuel page desc size obj sys' hpos hle hpage hnew hdesc hcall =>
    -- the call needs no more fuel than the list is long
    obtain ⟨obj', s', ds', hcall', hinv, hfresh, hholds⟩ :=
      SlabSys.alloc_spec h.sys (max fuel (ds.length + 1)) hpos hle hpage hnew hdesc
        (by omega)
    have heq := (SlabSys.alloc_mono hcall (Nat.le_max_left _ _)).symm.trans hcall'
    obtain ⟨rfl, rfl⟩ := Prod.mk.inj (Option.some.inj heq)
    refine ⟨ds', hinv, ?_, ?_, ?_⟩
    · refine List.nodup_cons.mpr ⟨?_, h.nodup⟩
      intro hmem
      obtain ⟨o, ho, heq⟩ := List.mem_map.mp hmem
      obtain ⟨-, -, hold⟩ := h.marked o ho
      rw [heq] at hold
      exact hfresh _ hold
    · intro o ho
      rcases List.mem_cons.mp ho with rfl | ho
      · exact ⟨hpos, hle, (hholds _ _).mpr (Or.inl ⟨rfl, rfl⟩)⟩
      · obtain ⟨hpos', hle', hold⟩ := h.marked o ho
        exact ⟨hpos', hle', (hholds _ _).mpr (Or.inr hold)⟩
    · intro a m hold
      rcases (hholds a m).mp hold with ⟨rfl, -⟩ | hold
      · simp
      · exact List.mem_cons_of_mem _ (h.live a m hold)
  | @free fuel l r o sys' hlive hcall =>
    obtain ⟨-, -, d, hd, -, i, hi, haddr⟩ := h.marked o (by simp [hlive])
    obtain ⟨dl, dr, s', rfl, -, -, hcall', hinv⟩ :=
      SlabSys.free_spec h.sys (max fuel (ds.length + 1)) hd hi (by omega)
    rw [← haddr] at hcall' hinv
    have heq := (SlabSys.free_mono hcall (Nat.le_max_left _ _)).symm.trans hcall'
    obtain rfl := Except.ok.inj (Option.some.inj heq)
    have hrel := (h.sys.slab.released hi).holds
    rw [← haddr] at hrel
    -- the addresses of the other live objects differ from the one freed
    have hnodup := h.nodup
    rw [hlive, List.map_append, List.map_cons, List.nodup_middle, List.nodup_cons] at hnodup
    refine ⟨_, hinv, ?_, ?_, ?_⟩
    · rw [List.map_append]
      exact hnodup.2
    · intro o' ho'
      obtain ⟨hpos', hle', hold⟩ := h.marked o' (by
        rw [hlive]
        exact mem_of_mem_rest ho')
      refine ⟨hpos', hle', (hrel _ _).mpr ⟨?_, hold⟩⟩
      intro heq
      refine hnodup.1 ?_
      rw [← List.map_append, ← heq]
      exact List.mem_map_of_mem ho'
    · intro a m hold
      obtain ⟨hne, hold⟩ := (hrel a m).mp hold
      have hmem := h.live a m hold
      rw [hlive] at hmem
      simp only [List.map_append, List.map_cons, List.mem_append, List.mem_cons] at hmem ⊢
      tauto

/-- **Every reachable state satisfies the invariant.** -/
theorem run_inv {slab : Slab} {run : SlabRun}
    (h : Relation.ReflTransGen Step (start slab) run) : ∃ ds, run.Inv ds := by
  induction h with
  | refl => exact ⟨[], start_inv slab⟩
  | tail _ hstep ih =>
    obtain ⟨ds, hinv⟩ := ih
    exact hstep.inv hinv

/-- The object `o` starts on the page `p`. -/
def OnPage (p : Nat) (o : Obj) : Prop := pa2kva p ≤ o.addr ∧ o.addr < pa2kva p + pageSize

/-- What holds of a run whose descriptors are `ds`. -/
structure Safe (run : SlabRun) (ds : List Desc) : Prop where
  /-- `ds` are the descriptors on the list. -/
  rep : run.sys.slab.Rep ds
  /-- Every live object lies within one page that is held. -/
  fits : ∀ o ∈ run.live, ∃ p ∈ run.sys.held,
    pa2kva p ≤ o.addr ∧ o.addr + o.size ≤ pa2kva p + pageSize
  /-- Live objects do not overlap. -/
  disjoint : run.live.Pairwise fun o o' => Disjoint o.region.bytes o'.region.bytes
  /-- The first descriptor whose page contains a live object is the one in use that
  owns it, and `free` returns with just this object's bit cleared. -/
  owned : ∀ o ∈ run.live, ∃ l d r i, ds = l ++ d :: r ∧
    (∀ e ∈ l, ¬ (e.paddr ≤ o.addr ∧ o.addr < e.paddr + pageSize)) ∧
    (d.paddr ≤ o.addr ∧ o.addr < d.paddr + pageSize) ∧ d.size ≠ pgEmpty ∧ o.size ≤ d.size ∧
    o.addr = d.paddr + bitSize * i ∧ i ∈ ones d.status ∧
    ∃ fuel sys' d', run.sys.free fuel o.addr = some (.ok sys') ∧
      sys'.slab.Rep (l ++ d' :: r) ∧ d'.paddr = d.paddr ∧ d'.num = d.num - 1 ∧
      ones d'.status = (ones d.status).erase i
  /-- `free` of a live object does not panic. -/
  no_panic : ∀ o ∈ run.live, ∀ fuel msg, run.sys.free fuel o.addr ≠ some (.error msg)
  /-- `num` counts the set bits, which are all at multiples of `size / 16`. -/
  counts : ∀ d ∈ ds, d.num = (ones d.status).card ∧ ∀ i ∈ ones d.status, (d.size / bitSize) ∣ i
  /-- No page is held twice. -/
  held_nodup : run.sys.held.Nodup
  /-- The pages held are those with a live object. -/
  held_iff : ∀ p, p ∈ run.sys.held ↔ PhysPage p ∧ ∃ o ∈ run.live, OnPage p o
  /-- A page is given back exactly when its last live object is freed. -/
  gives_back : ∀ l o r fuel sys', run.live = l ++ o :: r →
    run.sys.free fuel o.addr = some (.ok sys') → ∀ p, PhysPage p →
      ((p ∈ run.sys.held ∧ p ∉ sys'.held) ↔ OnPage p o ∧ ∀ o' ∈ l ++ r, ¬ OnPage p o')
  /-- Every request the page source can serve is met. -/
  alloc_returns : ∀ size page desc, 1 ≤ size → size ≤ pageSize → PhysPage page →
    page ∉ run.sys.held → desc ∉ run.sys.stored →
      ∃ fuel obj sys', run.sys.alloc fuel page desc size = some (obj, sys') ∧ obj ≠ 0

namespace Inv

variable {run : SlabRun} {ds : List Desc}

/-- The descriptor and the cell of a live object. -/
theorem owner (h : run.Inv ds) {o : Obj} (ho : o ∈ run.live) :
    ∃ d ∈ ds, ∃ i ∈ ones d.status, o.addr = d.paddr + bitSize * i ∧ 0 < o.size ∧
      o.size ≤ d.size ∧ d.InUse := by
  obtain ⟨hpos, hle, d, hd, hsize, i, hi, haddr⟩ := h.marked o ho
  refine ⟨d, hd, i, hi, haddr, hpos, ?_, (h.sys.slab.ok d hd).inUse_of_mem hi⟩
  rw [hsize]
  exact (Slab.sizeClass_mem hle).2

theorem held_page (h : run.Inv ds) {d : Desc} (hd : d ∈ ds) (hne : d.size ≠ pgEmpty) :
    kva2pa d.paddr ∈ run.sys.held ∧ pa2kva (kva2pa d.paddr) = d.paddr := by
  obtain ⟨hphys, hkva⟩ := (h.sys.slab.ok d hd).page.phys
  refine ⟨(h.sys.held _).mpr ⟨hphys, ?_⟩, hkva⟩
  rw [hkva]
  exact ⟨d, hd, hne, rfl⟩

theorem fits (h : run.Inv ds) : ∀ o ∈ run.live, ∃ p ∈ run.sys.held,
    pa2kva p ≤ o.addr ∧ o.addr + o.size ≤ pa2kva p + pageSize := by
  intro o ho
  obtain ⟨d, hd, i, hi, haddr, -, hsize, huse⟩ := h.owner ho
  obtain ⟨hheld, hkva⟩ := h.held_page hd huse.size_ne
  have hfit := huse.object_fits hi
  refine ⟨_, hheld, ?_, ?_⟩
  · omega
  · omega

theorem disjoint (h : run.Inv ds) :
    run.live.Pairwise fun o o' => Disjoint o.region.bytes o'.region.bytes := by
  refine (List.pairwise_map.mp h.nodup).imp_of_mem ?_
  intro o o' ho ho' hne
  obtain ⟨d, hd, i, hi, haddr, hpos, hsize, huse⟩ := h.owner ho
  obtain ⟨d', hd', i', hi', haddr', hpos', hsize', huse'⟩ := h.owner ho'
  rw [Region.disjoint_iff hpos hpos']
  show o.addr + o.size ≤ o'.addr ∨ o'.addr + o'.size ≤ o.addr
  have hfit := huse.object_fits hi
  have hfit' := huse'.object_fits hi'
  by_cases hpage : d.paddr = d'.paddr
  · -- two cells of one page
    obtain rfl := h.sys.slab.order.eq_of_page hd hd' huse.size_ne huse'.size_ne hpage
    have hij : i ≠ i' := by
      rintro rfl
      exact hne (haddr.trans haddr'.symm)
    rcases Nat.lt_or_gt_of_ne hij with hlt | hlt
    · have := huse.objects_apart hi hi' hlt
      omega
    · have := huse.objects_apart hi' hi hlt
      omega
  · -- two pages
    have h1 := (h.sys.slab.ok d hd).page.aligned
    have h2 := (h.sys.slab.ok d' hd').page.aligned
    unfold pageSize at *
    omega

theorem owned (h : run.Inv ds) : ∀ o ∈ run.live, ∃ l d r i, ds = l ++ d :: r ∧
    (∀ e ∈ l, ¬ (e.paddr ≤ o.addr ∧ o.addr < e.paddr + pageSize)) ∧
    (d.paddr ≤ o.addr ∧ o.addr < d.paddr + pageSize) ∧ d.size ≠ pgEmpty ∧ o.size ≤ d.size ∧
    o.addr = d.paddr + bitSize * i ∧ i ∈ ones d.status ∧
    ∃ fuel sys' d', run.sys.free fuel o.addr = some (.ok sys') ∧
      sys'.slab.Rep (l ++ d' :: r) ∧ d'.paddr = d.paddr ∧ d'.num = d.num - 1 ∧
      ones d'.status = (ones d.status).erase i := by
  intro o ho
  obtain ⟨d, hd, i, hi, haddr, -, hsize, huse⟩ := h.owner ho
  obtain ⟨l, r, sys', rfl, hl, hcov, hcall, hinv⟩ :=
    SlabSys.free_spec h.sys (ds.length + 1) hd hi (by omega)
  have hones := (huse.released hi).1
  rw [← haddr] at hl hcov hcall hinv hones
  refine ⟨l, d, r, i, rfl, ?_, ?_, huse.size_ne, hsize, haddr, hi, _, sys', _, hcall,
    hinv.slab.rep, rfl, rfl, hones⟩
  · intro e he hc
    exact hl e he ((Desc.covers_iff (h.sys.slab.ok e (by simp [he])).page _).mpr hc)
  · exact (Desc.covers_iff (h.sys.slab.ok d hd).page _).mp hcov

theorem no_panic (h : run.Inv ds) :
    ∀ o ∈ run.live, ∀ fuel msg, run.sys.free fuel o.addr ≠ some (.error msg) := by
  intro o ho fuel msg hpanic
  obtain ⟨l, d, r, i, -, -, -, -, -, -, -, n, sys', d', hcall, -⟩ := h.owned o ho
  have h1 := SlabSys.free_mono hpanic (Nat.le_max_left fuel n)
  have h2 := SlabSys.free_mono hcall (Nat.le_max_right fuel n)
  rw [h1] at h2
  exact absurd (Option.some.inj h2) (by simp)

theorem held_iff (h : run.Inv ds) (p : Nat) :
    p ∈ run.sys.held ↔ PhysPage p ∧ ∃ o ∈ run.live, OnPage p o := by
  constructor
  · intro hp
    obtain ⟨hphys, d, hd, hne, hpaddr⟩ := (h.sys.held p).mp hp
    refine ⟨hphys, ?_⟩
    -- a page in use has a marked cell, which is live
    obtain ⟨i, hi⟩ := ((h.sys.slab.ok d hd).inUse hne).nonempty
    obtain ⟨o, ho, haddr⟩ := List.mem_map.mp (h.live _ _ ⟨d, hd, rfl, i, hi, rfl⟩)
    refine ⟨o, ho, ?_⟩
    unfold OnPage
    rw [← hpaddr, haddr]
    exact Desc.cell_mem hi
  · rintro ⟨hphys, o, ho, hon⟩
    obtain ⟨d, hd, i, hi, haddr, -, -, huse⟩ := h.owner ho
    refine (h.sys.held p).mpr ⟨hphys, d, hd, huse.size_ne, ?_⟩
    have hcell := Desc.cell_mem hi
    rw [← haddr] at hcell
    exact (h.sys.slab.ok d hd).page.eq_of_mem hphys.kern hcell hon

theorem gives_back (h : run.Inv ds) {l r : List Obj} {o : Obj} {fuel : Nat} {sys' : SlabSys}
    (hlive : run.live = l ++ o :: r) (hcall : run.sys.free fuel o.addr = some (.ok sys')) {p : Nat}
    (hp : PhysPage p) :
    (p ∈ run.sys.held ∧ p ∉ sys'.held) ↔ OnPage p o ∧ ∀ o' ∈ l ++ r, ¬ OnPage p o' := by
  obtain ⟨ds', hinv'⟩ := (Step.free hlive hcall).inv h
  rw [h.held_iff, hinv'.held_iff p]
  constructor
  · rintro ⟨⟨-, o1, ho1, hon⟩, hnot⟩
    have hrest : ∀ o' ∈ l ++ r, ¬ OnPage p o' := fun o' ho' hon' => hnot ⟨hp, o', ho', hon'⟩
    refine ⟨?_, hrest⟩
    rw [hlive, List.mem_append, List.mem_cons] at ho1
    rcases ho1 with ho1 | rfl | ho1
    · exact absurd hon (hrest o1 (by simp [ho1]))
    · exact hon
    · exact absurd hon (hrest o1 (by simp [ho1]))
  · rintro ⟨hon, hrest⟩
    refine ⟨⟨hp, o, by simp [hlive], hon⟩, ?_⟩
    rintro ⟨-, o', ho', hon'⟩
    exact hrest o' ho' hon'

theorem alloc_returns (h : run.Inv ds) {size page desc : Nat} (hpos : 1 ≤ size)
    (hle : size ≤ pageSize) (hpage : PhysPage page) (hnew : page ∉ run.sys.held)
    (hdesc : desc ∉ run.sys.stored) :
    ∃ fuel obj sys', run.sys.alloc fuel page desc size = some (obj, sys') ∧ obj ≠ 0 := by
  obtain ⟨obj, sys', ds', hcall, hinv, -, hholds⟩ :=
    SlabSys.alloc_spec h.sys (ds.length + 1) hpos hle hpage hnew hdesc (by omega)
  refine ⟨_, obj, sys', hcall, ?_⟩
  obtain ⟨d, hd, -, i, -, haddr⟩ := (hholds obj _).mpr (Or.inl ⟨rfl, rfl⟩)
  have := (hinv.slab.ok d hd).page.ne_zero
  omega

end Inv

/-- **Slab safety.** In every state reached by any sequence of allocations and
frees of live objects, `Safe` holds; in particular no page is held once everything
has been freed. -/
theorem slab_safety {slab : Slab} {run : SlabRun}
    (h : Relation.ReflTransGen Step (start slab) run) :
    (∃ ds, Safe run ds) ∧ (run.live = [] → run.sys.held = []) := by
  obtain ⟨ds, hinv⟩ := run_inv h
  refine ⟨⟨ds, hinv.sys.slab.rep, hinv.fits, hinv.disjoint, hinv.owned, hinv.no_panic,
    fun d hd => (hinv.sys.slab.ok d hd).counts, hinv.sys.nodup, hinv.held_iff, ?_, ?_⟩, ?_⟩
  · intro l o r fuel sys' hlive hcall p hp
    exact hinv.gives_back hlive hcall hp
  · intro size page desc hpos hle hpage hnew hdesc
    exact hinv.alloc_returns hpos hle hpage hnew hdesc
  · intro hnone
    refine List.eq_nil_iff_forall_not_mem.mpr ?_
    intro p hp
    obtain ⟨-, o, ho, -⟩ := (hinv.held_iff p).mp hp
    rw [hnone] at ho
    exact absurd ho List.not_mem_nil

/-- Two objects on one page. -/
theorem slab_safety_two_objects :
    ∃ run, Relation.ReflTransGen Step (start ⟨fun _ => ⟨.null, .null, 0, 0, 0, 0⟩, 0, 0⟩) run ∧
      run.live = [⟨0x80003020, 17⟩, ⟨0x80003000, 24⟩] ∧ run.sys.held = [0x3000] ∧
      ∃ ds, Safe run ds := by
  have hrun : ∃ run, Relation.ReflTransGen Step
      (start ⟨fun _ => ⟨.null, .null, 0, 0, 0, 0⟩, 0, 0⟩) run ∧
      run.live = [⟨0x80003020, 17⟩, ⟨0x80003000, 24⟩] ∧ run.sys.held = [0x3000] := by
    refine ⟨_, .tail (.tail .refl
      (@Step.alloc _ 1 0x3000 0x80002000 24 _ _ (by decide) (by decide) ⟨by decide, by decide⟩
        (by simp [start]) (by simp [start]) (SlabSys.alloc_extend (c := 0x20) rfl (by decide))))
      (@Step.alloc _ 2 0x4000 0x80002034 17 _ _ (by decide) (by decide) ⟨by decide, by decide⟩
        (by decide) (by decide) (SlabSys.alloc_slot (c := 0x20) (a := .node 0x80002000) rfl)),
      rfl, rfl⟩
  obtain ⟨run, hreach, hlive, hheld⟩ := hrun
  exact ⟨run, hreach, hlive, hheld, (slab_safety hreach).1⟩

end SlabRun

end AimKernel
