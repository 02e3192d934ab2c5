import AimKernel.Mm.Coupled

/-!
# AimKernel.Mm.CoupledOps

What each piece of `simple.c` does to the joint invariant, and how `palloc.c` takes
one page.

The lemmas are named after the pieces. Those about `simple.c` change the
descriptors and leave the free list alone.
-/

namespace AimKernel

variable {C : Ctx} {ds l r : List Desc} {d : Desc} {bs : List Blk} {w : World}

namespace Ctx

/-- One more object in flight. -/
def addObj (o : Nat) (C : Ctx) : Ctx := { C with objs := o :: C.objs }

/-- One more page in flight. -/
def addPage (p : Nat) (C : Ctx) : Ctx := { C with pages := p :: C.pages }

/-- One more plain page. -/
def addPlain (q : Nat) (C : Ctx) : Ctx := { C with plain := q :: C.plain }

/-- One more descriptor is picked. -/
def addPick (n p : Nat) (C : Ctx) : Ctx := { C with picks := (n, p) :: C.picks }

end Ctx

/-- A descriptor stands at one place of the list only. -/
theorem split_unique {l' r' : List Desc} (hnd : ((l ++ d :: r).map Desc.node).Nodup)
    (h : l ++ d :: r = l' ++ d :: r') : l = l' ∧ r = r' := by
  have hfirst {l r : List Desc} (hnd : ((l ++ d :: r).map Desc.node).Nodup) : d ∉ l := fun hd =>
    (List.nodup_middle.mp (hnd.of_map _)).notMem (List.mem_append_left _ hd)
  rcases split_cases h with ⟨rfl, -, rfl⟩ | hmem | hmem
  · exact ⟨rfl, rfl⟩
  · exact absurd hmem (hfirst (h ▸ hnd))
  · exact absurd hmem (hfirst hnd)

/-- The object `o` is marked in the descriptor `d`. -/
def Desc.Marks (o : Nat) (d : Desc) : Prop := ∃ i ∈ ones d.status, o = d.paddr + bitSize * i

/-- The object that `alloc` returns is marked in the descriptor it has changed. -/
theorem Took.marks {s : Slab} {o n : Nat} {new : Option Nat} {ds' : List Desc}
    (h : Took s o n new ds ds') (hd : ∀ e ∈ ds', e = d ∨ e ∈ ds) : d.Marks o := by
  obtain ⟨e, he, hsize, hmarks⟩ := (h.holds o n).mpr (Or.inl ⟨rfl, rfl⟩)
  rcases hd e he with rfl | he
  · exact hmarks
  · exact absurd ⟨e, he, rfl, hmarks⟩ (h.fresh e.size)

/-- Only the descriptor in the middle is new. -/
theorem mem_replace {d' : Desc} : ∀ e ∈ l ++ d' :: r, e = d' ∨ e ∈ l ++ d :: r := by
  intro e he
  exact (mem_middle.mp he).imp_right mem_of_mem_rest

/-- `alloc` of one page is refused, or takes the first page of the first block. -/
theorem Palloc.allocEnter_onePage {pa : Palloc} (h : pa.Rep bs) (hok : ∀ b ∈ bs, b.OK) :
    ∃ res, pa.allocEnter bs.length.succ Machine.onePage = some res ∧
      (res = .reject ∧ (pa.freeSize < pageSize ∨ bs = []) ∨
        ∃ b rest pa', bs = b :: rest ∧ pa'.Rep (trim bs) ∧ pa'.freeSize = pa.freeSize ∧
          res = if b.size = pageSize then .emptied (.node b.node) ⟨b.paddr, pageSize, 0⟩ pa'
            else .carved ⟨b.paddr, pageSize, 0⟩ pa') := by
  obtain ⟨res, hres, hspec⟩ := Palloc.allocEnter_spec Machine.onePage h (Nat.lt_succ_self _)
    fun b hb => (hok b hb).bound
  -- every block has a page to give
  have hfirst : ∀ l : List Blk, (∀ c ∈ l, c ∈ bs) → (∀ c ∈ l, c.size < pageSize) → l = [] := by
    intro l hsub hsmall
    refine List.eq_nil_iff_forall_not_mem.mpr fun c hc => ?_
    exact Nat.not_lt.mpr (hok c (hsub c hc)).le_size (hsmall c hc)
  refine ⟨res, hres, ?_⟩
  cases hspec with
  | reject hwhy =>
    refine .inl ⟨rfl, ?_⟩
    rcases hwhy with hmul | hlt | hall
    · exact absurd hmul (by decide)
    · exact .inl hlt
    · exact .inr (hfirst bs (fun _ hc => hc) hall)
  | @carved l r b pa' hbs _ _ hsmall hlt hrep hfs =>
    obtain rfl := hfirst l (fun c hc => by simp [hbs, hc]) hsmall
    obtain rfl : bs = b :: r := hbs
    have hne : b.size ≠ pageSize := Nat.ne_of_gt hlt
    refine .inr ⟨b, r, pa', rfl, ?_, hfs, (if_neg hne).symm⟩
    rw [trim_more hne]
    exact hrep
  | @emptied l r b pa' hbs _ _ hsmall heq hrep hfs =>
    obtain rfl := hfirst l (fun c hc => by simp [hbs, hc]) hsmall
    obtain rfl : bs = b :: r := hbs
    refine .inr ⟨b, r, pa', rfl, ?_, hfs, (if_pos heq.symm).symm⟩
    rw [trim_one heq.symm]
    exact hrep

namespace Coupled

/-! ### `simple.c` -/

variable {a fuel n o p q size : Nat}

/-- `alloc` takes an object from a page with room. -/
theorem take (h : Coupled C (l ++ d :: r) bs w) (hroom : d.Room size) (hne : d.size ≠ pgEmpty) :
    Coupled (C.addObj (w.take (.node d.node) size).1) (l ++ d.taken size :: r) bs
      (w.take (.node d.node) size).2 ∧
    (d.taken size).Marks (w.take (.node d.node) size).1 := by
  obtain ⟨hready, rfl⟩ := h.slab.ready hroom hne
  have htook := hready.took
  refine ⟨⟨h.active, htook.inv, h.rep, h.objs.add htook.fresh htook.holds, ?_, ?_, h.promised,
    h.apart⟩, htook.marks mem_replace⟩
  · refine h.pages.congr ?_
    intro a
    rw [htook.pages]
    simp
  · exact h.descs.update hne (Desc.taken_node _ _) (Desc.taken_paddr _ _)

/-- The pages promised to other suspended `alloc`s differ from an owned one. -/
theorem promised_ne (h : Coupled (C.addPage p) ds bs w) (hpicks : ∀ np ∈ C.picks, np.2 ∈ C.pages) :
    ∀ np ∈ C.picks, pa2kva p ≠ pa2kva np.2 := by
  intro np hnp heq
  have hmem := hpicks np hnp
  have hnodup := h.pages.nodup
  have h1 := (h.pages.owned_apart p (by simp [Ctx.addPage])).1
  have h2 := (h.pages.owned_apart np.2 (by simp [Ctx.addPage, hmem])).1
  obtain rfl := h1.physPage.kva_inj h2.physPage heq
  simp only [Ctx.addPage, List.cons_append, List.nodup_cons] at hnodup
  exact hnodup.1 (by simp [hmem])

/-- The descriptor at a given address is unique. -/
theorem node_eq (h : Coupled C ds bs w) {e : Desc} (hd : d ∈ ds) (he : e ∈ ds)
    (hnode : d.node = e.node) : d = e :=
  List.inj_on_of_nodup_map h.slab.rep.nodup hd he hnode

/-- A picked descriptor is unused, and nothing before it has the page it waits
for. -/
theorem picked (h : Coupled C (l ++ d :: r) bs w) (hpick : (d.node, p) ∈ C.picks) :
    d.size = pgEmpty ∧ ∀ e ∈ l, e.paddr ≠ pa2kva p := by
  obtain ⟨e, he, hnode, hsize⟩ := h.descs.unused _ hpick
  obtain rfl := h.node_eq he (by simp) hnode
  refine ⟨hsize, (h.descs.clear _ hpick).left ?_⟩
  intro f hf
  exact h.slab.rep.node_ne f (by simp [hf])

/-- `alloc` gives its page, at the kernel address `a`, to the descriptor it had
picked. -/
theorem reuse (h : Coupled ((C.addPage p).addPick d.node p) (l ++ d :: r) bs w) (ha : a = pa2kva p)
    (hsize : size ∈ friSize) :
    Coupled (C.addObj (w.installTake (.node d.node) a size).1)
      (l ++ (Desc.fresh d.node a size).taken size :: r) bs
      (w.installTake (.node d.node) a size).2 ∧
    ((Desc.fresh d.node a size).taken size).Marks (w.installTake (.node d.node) a size).1 := by
  obtain ⟨hempty, hclear⟩ := h.picked (p := p) (by simp [Ctx.addPick])
  obtain ⟨hpage, -, hunused⟩ := h.pages.owned_apart p (by simp [Ctx.addPage, Ctx.addPick])
  have hkern := hpage.kern
  rw [← ha] at hclear hunused hkern
  have htook := h.slab.reuse hempty hkern hsize hclear
    (fun ⟨e, he, hne, heq⟩ => hunused ⟨e, by simp [he], hne, heq⟩)
  -- no other `alloc` waits for this page
  have hsnd := List.nodup_cons.mp h.apart
  have hpicks : ∀ np ∈ C.picks, np.2 ∈ C.pages := by
    intro np hnp
    have hmem := h.promised np (by simp [Ctx.addPick, Ctx.addPage, hnp])
    rcases List.mem_cons.mp hmem with heq | hmem
    · exact absurd (List.mem_map.mpr ⟨np, hnp, heq⟩) hsnd.1
    · exact hmem
  have hne : ∀ np ∈ C.picks, ((Desc.fresh d.node a size).taken size).paddr ≠ pa2kva np.2 := by
    intro np hnp heq
    rw [Desc.taken_paddr, Desc.fresh_paddr, ha] at heq
    have h2 := (h.pages.owned_apart np.2 (by simp [Ctx.addPage, Ctx.addPick, hpicks np hnp])).1
    exact hsnd.1 (List.mem_map.mpr ⟨np, hnp, (hpage.physPage.kva_inj h2.physPage heq).symm⟩)
  have hpages := htook.pages
  simp only [show some a = some (pa2kva p) by rw [ha]] at hpages
  exact ⟨⟨h.active, htook.inv, h.rep, h.objs.add htook.fresh htook.holds,
    h.pages.give hpages, h.descs.install (by simp) hne, hpicks, hsnd.2⟩,
    htook.marks mem_replace⟩

/-- `alloc` describes its page, at the kernel address `a`, by a new descriptor
stored at `n`. -/
theorem link (h : Coupled (C.addPage p) ds bs w) (ha : a = pa2kva p) (hsize : size ∈ friSize)
    (hn : ∀ d ∈ ds, d.node ≠ n) (hq : q ∈ C.plain) (hnq : pa2kva q ≤ n ∧ n < pa2kva q + pageSize)
    (hpicks : ∀ np ∈ C.picks, np.2 ∈ C.pages) :
    let w' := { w with slab := w.slab.link (.node n) }
    Coupled (C.addObj (w'.installTake (.node n) a size).1)
      ((Desc.fresh n a size).taken size :: ds) bs (w'.installTake (.node n) a size).2 ∧
    ((Desc.fresh n a size).taken size).Marks (w'.installTake (.node n) a size).1 := by
  obtain ⟨hpage, -, hunused⟩ := h.pages.owned_apart p (by simp [Ctx.addPage])
  have hkern := hpage.kern
  rw [← ha] at hunused hkern
  have htook := h.slab.extend hkern hsize hn hunused
  have hne : ∀ np ∈ C.picks, ((Desc.fresh n a size).taken size).paddr ≠ pa2kva np.2 := by
    intro np hnp
    rw [Desc.taken_paddr, Desc.fresh_paddr, ha]
    exact h.promised_ne hpicks np hnp
  have hpages := htook.pages
  simp only [show some a = some (pa2kva p) by rw [ha]] at hpages
  exact ⟨⟨h.active, htook.inv, h.rep, h.objs.add htook.fresh htook.holds,
    h.pages.give hpages, h.descs.link hq (by simpa using hnq) hne, hpicks, h.apart⟩,
    htook.marks fun e he => List.mem_cons.mp he⟩

theorem plainOffset (h : Coupled C ds bs w) (offset : Nat) :
    Coupled C ds bs { w with slab := { w.slab with offset := offset } } :=
  ⟨h.active, ⟨h.slab.rep.plain rfl, h.slab.ok, h.slab.order⟩, h.rep, h.objs, h.pages, h.descs,
    h.promised, h.apart⟩

/-- A page in flight becomes the plain page, at the kernel address `a`. -/
theorem plainPage (h : Coupled (C.addPage q) ds bs w) (ha : a = pa2kva q)
    (hpicks : ∀ np ∈ C.picks, np.2 ∈ C.pages) :
    Coupled (C.addPlain q) ds bs
      { w with slab := { w.slab with nowPlainPage := a, offset := 0 } } := by
  have hdescs := h.descs.plainPage q
  rw [← ha] at hdescs
  refine ⟨h.active, ⟨h.slab.rep.plain rfl, h.slab.ok, h.slab.order⟩, h.rep, h.objs, ?_,
    hdescs, hpicks, h.apart⟩
  refine h.pages.perm ?_
  simp only [Ctx.addPage, Ctx.addPlain, List.cons_append]
  exact List.perm_middle.symm

/-- `free` finds the descriptor of an object in flight. -/
theorem freeEnter (h : Coupled (C.addObj o) (l ++ d :: r) bs w) (hmarks : d.Marks o)
    (hf : (l ++ d :: r).length < fuel) :
    d.size ≠ pgEmpty ∧ Released o d (l ++ d :: r) (l ++ d.released o :: r) ∧
    ∃ slab, w.slab.freeEnter fuel o =
        some (if d.num = 1 then .emptied (kva2pa d.paddr) slab else .kept slab) ∧
      slab.Inv (l ++ d.released o :: r) ∧
      DescBook (l ++ d.released o :: r) slab.nowPlainPage C.plain C.picks := by
  obtain ⟨i, hi, ho⟩ := hmarks
  obtain ⟨l', r', slab, heq, -, -, hfree, hinv, hplain, -⟩ := h.slab.free (by simp) hi hf
  have hrel := h.slab.released hi
  rw [← ho] at hfree hinv hrel
  obtain ⟨rfl, rfl⟩ := split_unique h.slab.rep.nodup heq
  have huse := (h.slab.ok d (by simp)).inUse_of_mem hi
  refine ⟨huse.size_ne, hrel, slab, hfree, hinv, ?_⟩
  rw [hplain]
  exact h.descs.update huse.size_ne rfl rfl

/-- `free` of an object in flight that is not alone on its page. -/
theorem freeKept (h : Coupled (C.addObj o) (l ++ d :: r) bs w) (hmarks : d.Marks o)
    (hnum : d.num ≠ 1) (hf : (l ++ d :: r).length < fuel) :
    ∃ slab, w.slab.freeEnter fuel o = some (.kept slab) ∧
      Coupled C (l ++ d.released o :: r) bs { w with slab := slab, live := w.live.erase o } := by
  obtain ⟨-, hrel, slab, hfree, hinv, hdescs⟩ := h.freeEnter hmarks hf
  rw [if_neg hnum] at hfree
  refine ⟨slab, hfree, h.active, hinv, h.rep, h.objs.drop hrel.holds, ?_, hdescs, h.promised,
    h.apart⟩
  refine h.pages.congr ?_
  intro a
  rw [hrel.pages]
  simp [hnum]

/-- `free` of an object in flight that is alone on its page: the page is now in
flight. -/
theorem freeEmptied (h : Coupled (C.addObj o) (l ++ d :: r) bs w) (hmarks : d.Marks o)
    (hnum : d.num = 1) (hf : (l ++ d :: r).length < fuel) :
    ∃ slab, w.slab.freeEnter fuel o = some (.emptied (kva2pa d.paddr) slab) ∧
      Coupled (C.addPage (kva2pa d.paddr)) (l ++ d.released o :: r) bs
        { w with slab := slab, live := w.live.erase o } := by
  obtain ⟨hsize, hrel, slab, hfree, hinv, hdescs⟩ := h.freeEnter hmarks hf
  rw [if_pos hnum] at hfree
  obtain ⟨hphys, hkva⟩ := (h.slab.ok d (by simp)).page.phys
  refine ⟨slab, hfree, h.active, hinv, h.rep, h.objs.drop hrel.holds, ?_, hdescs, ?_, h.apart⟩
  · refine h.pages.ungive hphys ⟨d, by simp, hsize, hkva.symm⟩ ?_
    intro a
    rw [hrel.pages, hkva]
    simp [hnum]
  · intro np hnp
    exact List.mem_cons_of_mem _ (h.promised np hnp)

/-! ### `palloc.c` -/

/-- `free_size` is no part of the invariant: it is out of date during nested calls. -/
theorem freeSize (h : Coupled C ds bs w) (n : Nat) :
    Coupled C ds bs { w with pa := { w.pa with freeSize := n } } :=
  ⟨h.active, h.slab, h.rep.freeSize n, h.objs, h.pages, h.descs, h.promised, h.apart⟩

theorem bounds (h : Coupled C ds bs w) : ∀ b ∈ bs, b.paddr + b.size < 2 ^ 64 :=
  fun b hb => (h.pages.low b hb).bound

theorem node_notMem {n : Nat} (h : Coupled (C.addObj n) ds bs w) : n ∉ bs.map Blk.node := by
  have hdist := h.objs.distinct
  simp only [Ctx.addObj, List.cons_append, List.nodup_middle, List.nodup_cons] at hdist
  exact fun hmem => hdist.1 (List.mem_append_left _ hmem)

end Coupled

end AimKernel
