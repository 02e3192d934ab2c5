import AimKernel.Mm.MachineSteps

/-!
# AimKernel.Mm.NodeAlloc

Why the recursion between the allocators stops, part one: the `kmalloc` of a list
node.

`free` of `palloc.c` asks for a list node. If a page of nodes has room, that is the
end of it. If not, all such pages are full, so that the `pgalloc` that follows can
use up a block without emptying the page its node is on: `kmalloc` of a node calls
`pgalloc` at most twice and never comes back to `pgfree` (`unwinds_kmalloc_node`).

A node that is alone on a fresh page may be freed again right away, when the freed
page is merged into the block before it. The page then goes back in front of the
free list, where it touches nothing (`unwinds_pgfree_below`).
-/

namespace AimKernel

open Machine

variable {C : Ctx} {ds l r : List Desc} {d : Desc} {bs : List Blk} {w : World} {K : List Frame}

/-! ### Contexts -/

namespace Ctx

/-- The same, but for the plain pages. -/
def replain (plain : List Nat) (C : Ctx) : Ctx := { C with plain := plain }

/-- One more page in flight, on its way to the descriptor `pick`. -/
def carry (pick : Option Nat) (p : Nat) (C : Ctx) : Ctx :=
  { C with pages := p :: C.pages, picks := (pick.map fun n => (n, p)).toList ++ C.picks }

/-- The picks of the context are those of suspended `alloc`s of the stack. -/
structure Fits (C : Ctx) (K : List Frame) : Prop where
  promised : ∀ np ∈ C.picks, np.2 ∈ C.pages
  waiting : ∀ np ∈ C.picks, np.1 ∈ picked K

theorem Fits.addPage (h : C.Fits K) (p : Nat) : (C.addPage p).Fits K :=
  ⟨fun np hnp => List.mem_cons_of_mem _ (h.promised np hnp), h.waiting⟩

/-- A frame on top that has picked nothing that matters here. -/
theorem Fits.push (h : C.Fits K) (f : Frame) : C.Fits (f :: K) := by
  refine ⟨h.promised, ?_⟩
  intro np hnp
  have hmem := h.waiting np hnp
  unfold picked
  split
  · exact absurd ‹_› (by simp)
  · rename_i heq
    obtain ⟨-, rfl⟩ := List.cons.inj heq
    exact List.mem_cons_of_mem _ hmem
  · rename_i heq
    obtain ⟨-, rfl⟩ := List.cons.inj heq
    exact hmem

theorem Fits.carry (h : C.Fits K) {pick : Option Nat} (hpick : ∀ n ∈ pick, n ∈ picked K) (p : Nat) :
    (C.carry pick p).Fits K := by
  cases pick with
  | none => exact h.addPage p
  | some n =>
    exact ⟨List.forall_mem_cons.mpr ⟨List.mem_cons_self, (h.addPage p).promised⟩,
      List.forall_mem_cons.mpr ⟨hpick n rfl, h.waiting⟩⟩

end Ctx

/-- The first unused descriptor is at `n`, and no suspended `alloc` has it. -/
structure Pickable (C : Ctx) (ds : List Desc) (n : Nat) : Prop where
  first : ∃ l d r, ds = l ++ d :: r ∧ d.node = n ∧ d.size = pgEmpty ∧ ∀ e ∈ l, e.size ≠ pgEmpty
  new : n ∉ C.picks.map Prod.fst

/-- A page just taken is promised to the descriptor picked for it. -/
theorem Coupled.carry {p : Nat} (h : Coupled (C.addPage p) ds bs w)
    (hC : ∀ np ∈ C.picks, np.2 ∈ C.pages) {pick : Option Nat}
    (hpick : ∀ n ∈ pick, Pickable C ds n) : Coupled (C.carry pick p) ds bs w := by
  cases pick with
  | none => exact h
  | some n =>
    obtain ⟨⟨l, d, r, rfl, rfl, hempty, hl⟩, hnew⟩ := hpick n rfl
    obtain ⟨-, -, hunused⟩ := h.pages.owned_apart p (by simp [Ctx.addPage])
    have hclear : ∀ e ∈ l, e.paddr ≠ pa2kva p := by
      intro e he heq
      exact hunused ⟨e, by simp [he], hl e he, heq⟩
    refine ⟨h.active, h.slab, h.rep, h.objs, h.pages, h.descs.pick hempty hclear hnew, ?_, ?_⟩
    · refine List.forall_mem_cons.mpr ⟨List.mem_cons_self, fun np hnp => ?_⟩
      exact List.mem_cons_of_mem _ (hC np hnp)
    · refine List.nodup_cons.mpr ⟨?_, h.apart⟩
      intro hmem
      obtain ⟨np, hnp, heq⟩ := List.mem_map.mp hmem
      have hnodup := h.pages.nodup
      simp only [Ctx.addPage, List.cons_append, List.nodup_cons] at hnodup
      have hpage := hC np hnp
      rw [show np.2 = p from heq] at hpage
      exact hnodup.1 (List.mem_append_left _ hpage)

/-- The descriptor that `kmalloc` is about to pick is not picked yet. -/
theorem Coupled.pickable (h : Coupled C (l ++ d :: r) bs w) {size : Nat} (hC : C.Fits K)
    (hg : Regular ⟨w, .call (.kmalloc size), K⟩) (hempty : d.size = pgEmpty)
    (hl : ∀ e ∈ l, e.size ≠ pgEmpty) (hroom : ∀ e ∈ l ++ d :: r, ¬ e.Room (sizeClass size)) :
    Pickable C (l ++ d :: r) d.node := by
  refine ⟨⟨l, d, r, rfl, rfl, hempty, hl⟩, ?_⟩
  intro hmem
  obtain ⟨np, hnp, hnode⟩ := List.mem_map.mp hmem
  have hspares := hg.spares size rfl np.1 (hC.waiting np hnp) _ h.slab.rep
  rcases hspares with ⟨e, he, hr⟩ | ⟨l', e, r', heq, hsize, hne, hl'⟩
  · exact hroom e he hr
  · -- the unused descriptor in front of `d` contradicts the search for the first one
    rcases split_cases heq with ⟨-, rfl, -⟩ | hmem | hmem
    · exact hne hnode.symm
    · exact hl' d hmem hnode.symm
    · exact hl e hmem hsize

/-! ### Pages of list nodes -/

/-- Every page of list nodes holds at least `k` of them. -/
def Thick (k : Int) (ds : List Desc) : Prop := ∀ d ∈ ds, d.size = memBlockSize → k ≤ d.num

namespace Thick

variable {k j : Int}

theorem mono (h : Thick k ds) (hjk : j ≤ k) : Thick j ds :=
  fun d hd hsize => le_trans hjk (h d hd hsize)

theorem rest (h : Thick k (l ++ d :: r)) : Thick k (l ++ r) := by
  intro e he
  exact h e (mem_of_mem_rest he)

theorem fill (h : Thick k (l ++ r)) (hd : d.size = memBlockSize → k ≤ d.num) :
    Thick k (l ++ d :: r) :=
  forall_mem_insert h hd

theorem released (h : Thick (k + 1) (l ++ d :: r)) (o : Nat) : Thick k (l ++ d.released o :: r) := by
  refine (h.rest.mono (by omega)).fill ?_
  intro hsize
  have hne : pgEmpty ≠ memBlockSize := by decide
  unfold Desc.released at hsize ⊢
  dsimp only at hsize ⊢
  split at hsize
  · exact absurd hsize hne
  · have := h d (by simp) hsize
    omega

end Thick

variable {n o p : Nat} {k : Int}

/-- A page without room for another node is full. -/
theorem Slab.Inv.thick_of_full {s : Slab} (h : s.Inv ds) (hroom : ∀ e ∈ ds, ¬ e.Room memBlockSize) :
    Thick 128 ds := by
  intro d hd hsize
  have hne : d.size ≠ pgEmpty := by
    rw [hsize]
    decide
  have huse := (h.ok d hd).inUse hne
  have hfull := hroom d hd
  rw [huse.room_iff] at hfull
  have hcard : ¬ (ones d.status).card < 128 := fun hlt => hfull ⟨hsize.symm, hlt⟩
  rw [huse.num]
  omega

/-- The size class of a marked object is that of its descriptor. -/
theorem Coupled.size_of_marks (h : Coupled C ds bs w) (hd : d ∈ ds) (hm : d.Marks o)
    (ho : Holds ds o n) : d.size = n := by
  obtain ⟨i, hi, rfl⟩ := hm
  obtain ⟨e, he, hsize, j, hj, heq⟩ := ho
  obtain ⟨rfl, -⟩ := cell_unique h.slab.ok h.slab.order hd he hi hj heq
  exact hsize

/-- `kfree` of a node from a page that is thick enough. -/
theorem Coupled.runs_kfree_thick (h : Coupled (C.addObj o) ds bs w) (ho : Holds ds o memBlockSize)
    (hk : 1 ≤ k) (hthick : Thick (k + 1) ds) :
    ∃ ds' w', Runs ⟨w, .call (.kfree (.node o)), K⟩ ⟨w', .ret 0, K⟩ ∧ Coupled C ds' bs w' ∧
      Thick k ds' := by
  obtain ⟨l, d, r, rfl, hmarks⟩ := h.cell
  have hnum := hthick d (by simp) (h.size_of_marks (by simp) hmarks ho)
  obtain ⟨w', hruns, hcoupled⟩ := h.runs_kfree_kept (K := K) hmarks (by omega)
  exact ⟨_, w', hruns, hcoupled, hthick.released o⟩

/-! ### `pgalloc` with thick pages -/

/-- Where `pgalloc` arrives if freeing a node empties no page. -/
def PageArrived (C : Ctx) (ds : List Desc) (bs : List Blk) (K : List Frame) (pick : Option Nat)
    (k : Int) (m : Machine) : Prop :=
  ∃ b rest ds' w, bs = b :: rest ∧ m = ⟨w, .ret b.paddr, K⟩ ∧
    Coupled (C.carry pick b.paddr) ds' (trim bs) w ∧ Thick k ds' ∧ (b.size ≠ pageSize → ds' = ds)

theorem unwinds_pgalloc_thick (h : Coupled C ds bs w) (hC : ∀ np ∈ C.picks, np.2 ∈ C.pages)
    (pick : Option Nat) (hpick : ∀ n ∈ pick, Pickable C ds n) (hk : 1 ≤ k)
    (hthick : Thick (k + 1) ds) :
    Unwinds (PageArrived C ds bs K pick k) ⟨w, .call .pgalloc, K⟩ := by
  refine Leads.guarded (h.sound_call _) ?_
  intro hg
  obtain ⟨b, rest, m, rfl, hruns, hstep⟩ := h.runs_pgalloc hg
  refine ⟨m, hruns, ?_⟩
  cases hstep with
  | @ret w1 hsize hc =>
    exact .done ⟨b, rest, ds, w1, rfl, rfl, hc.carry hC hpick, hthick.mono (by omega),
      fun _ => rfl⟩
  | @call w1 hsize hnode hc =>
    have hcarry : Coupled ((C.carry pick b.paddr).addObj b.node) ds (trim (b :: rest)) w1 :=
      Coupled.carry (C := C.addObj b.node) hc hC fun n hn => ⟨(hpick n hn).first, (hpick n hn).new⟩
    obtain ⟨ds', w2, hruns2, hc2, hthick2⟩ := hcarry.runs_kfree_thick hnode hk hthick
    obtain ⟨w3, hruns3, hc3⟩ := hc2.runs_pallocAlloc (v := 0) (K := K) (h.pages.low b (by simp)).page
    refine .next (hcarry.sound_call _) hruns2 (.next (hc2.sound_ret 0 trivial) hruns3 ?_)
    exact .done ⟨b, rest, ds', w3, rfl, rfl, hc3, hthick2, fun hne => absurd hsize hne⟩

/-- The page arrives for the descriptor that was picked, which is still unused. -/
theorem Coupled.unwinds_allocPage {P : Machine → Prop} {size : Nat}
    (h : Coupled (C.carry (some n) p) ds bs w) (hsize : size ∈ friSize)
    (hend : ∀ l d r o w', ds = l ++ d :: r →
      Coupled (C.addObj o) (l ++ (Desc.fresh d.node (pa2kva p) size).taken size :: r) bs w' →
      ((Desc.fresh d.node (pa2kva p) size).taken size).Marks o → P ⟨w', .ret o, K⟩) :
    Unwinds P ⟨w, .ret p, .allocPage size (.node n) :: K⟩ := by
  have hmem : (n, p) ∈ (C.carry (some n) p).picks := List.mem_cons_self
  obtain ⟨d, hd, hnode, -⟩ := h.descs.unused _ hmem
  obtain rfl : d.node = n := hnode
  obtain ⟨l, r, rfl⟩ := List.append_of_mem hd
  obtain ⟨o, w', hruns, hc, hmarks⟩ := Coupled.runs_allocPage_node (C := C) (K := K) h hsize
  exact .next (h.sound_ret _ ⟨_, hmem⟩) hruns (.done (hend l d r o w' rfl hc hmarks))

/-! ### `kmalloc` of a node -/

/-- A node `o`, alone on the first free page: the page of `b`, the first block of
`bs`. -/
structure FreshPage (C : Ctx) (ds : List Desc) (bs : List Blk) (b : Blk) (o : Nat)
    (l : List Desc) (d : Desc) (r : List Desc) (bs' : List Blk) (w : World) : Prop where
  coupled : Coupled (C.addObj o) (l ++ d :: r) bs' w
  size : d.size = memBlockSize
  num : d.num = 1
  page : d.paddr = pa2kva b.paddr
  marks : d.Marks o
  /-- At most two nodes were freed meanwhile. -/
  thick : Thick 126 (l ++ r)
  /-- One page is taken, and no node freed for it if its block is large enough. Or a
  second one is taken, for a new descriptor. -/
  blocks : (bs' = trim bs ∧ (b.size = pageSize ∨ Thick 128 (l ++ r))) ∨
    (bs' = trim (trim bs) ∧ ∀ e ∈ ds, e.size ≠ pgEmpty)

/-- What `kmalloc` of a node `o` does. -/
inductive NodeTaken (C : Ctx) (ds : List Desc) (bs : List Blk) (o : Nat) (w : World) : Prop
  /-- A page of nodes had room. -/
  | slot {l r : List Desc} {d : Desc} : ds = l ++ d :: r → d.Room memBlockSize →
      d.size ≠ pgEmpty → Coupled (C.addObj o) (l ++ d.taken memBlockSize :: r) bs w →
      (d.taken memBlockSize).Marks o → NodeTaken C ds bs o w
  /-- All pages of nodes were full. -/
  | page (plain : List Nat) {l r : List Desc} {d : Desc} {b : Blk} {rest bs' : List Blk} :
      bs = b :: rest → FreshPage (C.replain plain) ds bs b o l d r bs' w →
      NodeTaken C ds bs o w

theorem Desc.taken_num (size : Nat) (d : Desc) : (d.taken size).num = d.num + 1 := rfl

theorem Desc.fresh_taken_num (node page size : Nat) :
    ((Desc.fresh node page size).taken size).num = 1 := rfl

theorem sizeClass_memBlockSize : sizeClass memBlockSize = memBlockSize := by decide

theorem unwinds_kmalloc_node (h : Coupled C ds bs w) (hC : C.Fits K) :
    Unwinds (fun m => ∃ o w', m = ⟨w', .ret o, K⟩ ∧ NodeTaken C ds bs o w')
      ⟨w, .call (.kmalloc memBlockSize), K⟩ := by
  have hcls : memBlockSize ∈ friSize := by decide
  refine Leads.guarded (h.sound_call _) ?_
  intro hg
  obtain ⟨m, hruns, hstep⟩ := h.runs_kmalloc (K := K) memBlockSize
  refine ⟨m, hruns, ?_⟩
  cases hstep with
  | tooLarge hbig => exact absurd hbig (by decide)
  | null hzero => exact absurd hzero (by decide)
  | slot hds hroom hne hc hmarks =>
    rw [sizeClass_memBlockSize] at hroom hc hmarks
    exact .done ⟨_, _, rfl, .slot hds hroom hne hc hmarks⟩
  | @unused l r d _ hds hempty hl hroom =>
    subst hds
    have hpick := h.pickable hC hg hempty hl hroom
    rw [sizeClass_memBlockSize] at hroom ⊢
    have hfull := h.slab.thick_of_full hroom
    refine Leads.bind (unwinds_pgalloc_thick h hC.promised (some d.node)
      (fun n hn => by obtain rfl := Option.some.inj hn; exact hpick) (k := 127) (by omega) hfull) ?_
    rintro _ ⟨b, rest, ds', w1, rfl, rfl, hc, hthick, hsame⟩
    refine Coupled.unwinds_allocPage (C := C) hc hcls fun l' d' r' o w2 hds hc2 hmarks => ?_
    subst hds
    refine ⟨o, w2, rfl, .page C.plain rfl
      ⟨hc2, rfl, rfl, rfl, hmarks, hthick.rest.mono (by omega), Or.inl ⟨rfl, ?_⟩⟩⟩
    by_cases hsize : b.size = pageSize
    · exact Or.inl hsize
    · rw [← hsame hsize] at hfull
      exact Or.inr hfull.rest
  | full _ hroom hall =>
    rw [sizeClass_memBlockSize] at hroom ⊢
    have hfull := h.slab.thick_of_full hroom
    refine Leads.bind (unwinds_pgalloc_thick h hC.promised none (by simp) (k := 127) (by omega)
      hfull) ?_
    rintro _ ⟨b, rest, ds1, w1, rfl, rfl, hc, hthick, hsame⟩
    refine Leads.guarded (hc.sound_ret _ trivial) ?_
    intro hg1
    obtain ⟨m1, hruns1, hstep1⟩ := Coupled.runs_allocPage_tail (C := C) hc hcls hC.promised hg1
    refine ⟨m1, hruns1, ?_⟩
    cases hstep1 with
    | @ret n o w2 hc2 hmarks =>
      refine .done ⟨o, w2, rfl, .page C.plain (l := []) rfl
        ⟨hc2, rfl, rfl, rfl, hmarks, hthick.mono (by omega), Or.inl ⟨rfl, ?_⟩⟩⟩
      by_cases hsize : b.size = pageSize
      · exact Or.inl hsize
      · rw [← hsame hsize] at hfull
        exact Or.inr hfull
    | call =>
      -- the descriptor needs a new plain page
      refine Leads.bind (unwinds_pgalloc_thick (C := C.addPage b.paddr) hc
        (hC.addPage _).promised none (by simp) (k := 126) (by omega) hthick) ?_
      rintro _ ⟨b', rest', ds2, w2, htrim, rfl, hc2, hthick2, -⟩
      obtain ⟨n, o, w3, hruns3, hc3, hmarks⟩ :=
        Coupled.runs_allocPlain (C := C) (K := K) hc2 hcls hC.promised
      refine .next (hc2.sound_ret _ trivial) hruns3 (.done ⟨o, w3, rfl,
        .page (b'.paddr :: C.plain) (l := []) rfl
        ⟨hc3, rfl, rfl, rfl, hmarks, hthick2, Or.inr ⟨rfl, hall⟩⟩⟩)

/-! ### `pgfree` below the free list -/

/-- Only the page of the node `n` may hold a single node. -/
def OnlyNode (n : Nat) (ds : List Desc) : Prop :=
  ∀ d ∈ ds, d.size = memBlockSize → d.num = 1 → d.Marks n

theorem Thick.onlyNode (h : Thick 2 ds) (n : Nat) : OnlyNode n ds := by
  intro d hd hsize hnum
  have := h d hd hsize
  omega

theorem Thick.onlyNode_fill (h : Thick 2 (l ++ r)) (hd : d.Marks n) :
    OnlyNode n (l ++ d :: r) :=
  forall_mem_insert (h.onlyNode n) fun _ _ => hd

theorem OnlyNode.num_ne (h : OnlyNode n ds) (hok : d.OK) (hd : d ∈ ds)
    (hsize : d.size = memBlockSize) (ho : d.Marks o) (hne : o ≠ n) : d.num ≠ 1 := by
  intro hnum
  obtain ⟨i, hi, rfl⟩ := ho
  obtain ⟨j, hj, rfl⟩ := h d hd hsize hnum
  have hcard : (ones d.status).card = 1 := by
    have := hok.counts.1
    omega
  exact hne (by rw [Finset.card_le_one.mp (Nat.le_of_eq hcard) i hi j hj])

/-- A page that lies below all blocks, with a gap, is linked in at the front. -/
theorem Coupled.runs_pallocFree_front (h : Coupled ((C.addPage p).addObj n) ds bs w)
    (hn : Holds ds n memBlockSize) (hpicks : ∀ np ∈ C.picks, np.2 ∈ C.pages)
    (hgap : ∀ b ∈ bs, p + pageSize < b.paddr) :
    ∃ w', Runs ⟨w, .ret n, .pallocFree ⟨p, pageSize, 0⟩ :: K⟩ ⟨w', .ret 0, K⟩ ∧
      Coupled C ds (⟨n, p, pageSize⟩ :: bs) w' := by
  obtain ⟨m, hruns, hstep⟩ := h.runs_pallocFree (K := K) hn hpicks
  cases hstep with
  | @kept l r _ hbs hl _ _ hnext =>
    subst hbs
    -- no block starts below the page
    have hnil : l = [] := by
      cases l with
      | nil => rfl
      | cons c l =>
        have h1 := hl c (by simp)
        have h2 := hgap c (by simp)
        omega
    subst hnil
    cases hnext with
    | ret _ hc => exact ⟨_, hruns, hc⟩
    | @call c r' _ hr htouch _ _ =>
      have := hgap c (by simp [hr])
      unfold Blk.stop at htouch
      dsimp only at htouch
      omega
  | @merged l r c _ hbs _ htouch _ =>
    have h1 := hgap c (by simp [hbs])
    unfold Blk.stop at htouch
    omega

/-- Where `pgfree` of such a page arrives. -/
structure FreedBelow (C : Ctx) (bs : List Blk) (K : List Frame) (p : Nat) (ds' : List Desc)
    (n : Nat) (bs' : List Blk) (w : World) : Prop where
  coupled : Coupled C ds' (⟨n, p, pageSize⟩ :: bs') w
  blocks : bs' = bs ∨ bs' = trim bs
  gap : ∀ b ∈ bs', p + pageSize < b.paddr
  only : OnlyNode n ds'

theorem unwinds_pgfree_below (h : Coupled (C.addPage p) ds bs w) (hC : C.Fits K)
    (hbelow : ∀ b ∈ bs, p + pageSize ≤ b.paddr)
    (hgap : (∀ b ∈ bs, p + pageSize < b.paddr) ∨ Thick 128 ds) (hempty : ∃ e ∈ ds, e.size = pgEmpty)
    (hthick : Thick 2 ds) :
    Unwinds (fun m => ∃ plain ds' n bs' w', m = ⟨w', .ret 0, K⟩ ∧
      FreedBelow (C.replain plain) bs K p ds' n bs' w') ⟨w, .call (.pgfree p), K⟩ := by
  have hp := (h.pages.owned_apart p (by simp [Ctx.addPage])).1
  refine .next (h.sound_call _) (Coupled.runs_pgfree hp) ?_
  refine .next (h.sound_call _) (Coupled.runs_freePages (Nat.mod_self _)) ?_
  refine Leads.bind (unwinds_kmalloc_node h ((hC.addPage p).push _)) ?_
  rintro _ ⟨n, w1, rfl, htaken⟩
  cases htaken with
  | @slot l r d hds hroom hne hc hmarks =>
    subst hds
    have hd := ((h.slab.ok d (by simp)).inUse hne)
    obtain ⟨hsize, hcard⟩ := (hd.room_iff _).mp hroom
    -- not all pages are full
    have hstrict := hgap.resolve_right fun hfull => by
      have hnum := hfull d (by simp) hsize.symm
      rw [hd.num] at hnum
      have : (256 / (memBlockSize / bitSize) : Nat) = 128 := by decide
      omega
    have hthick' : Thick 2 (l ++ d.taken memBlockSize :: r) := by
      refine hthick.rest.fill ?_
      intro _
      have := hthick d (by simp) hsize.symm
      rw [Desc.taken_num]
      omega
    obtain ⟨w2, hruns, hc2⟩ := Coupled.runs_pallocFree_front (C := C) (K := K) hc
      ⟨d.taken memBlockSize, by simp, hsize.symm, hmarks⟩ hC.promised hstrict
    exact .next (hc.sound_ret _ trivial) hruns (.done ⟨C.plain, _, n, bs, w2, rfl, hc2,
      Or.inl rfl, hstrict, hthick'.onlyNode n⟩)
  | @page plain l r d b rest bs' hbs hfresh =>
    subst hbs
    have hblocks : bs' = trim (b :: rest) := by
      rcases hfresh.blocks with ⟨heq, -⟩ | ⟨-, hall⟩
      · exact heq
      · obtain ⟨e, he, hes⟩ := hempty
        exact absurd hes (hall e he)
    have hstrict : ∀ c ∈ bs', p + pageSize < c.paddr := by
      intro c hc
      rw [hblocks] at hc
      have h1 := trim_above (ok_of_low h.pages.low) h.pages.ascending c hc
      have h2 := hbelow b (by simp)
      unfold pageSize at *
      omega
    obtain ⟨w2, hruns, hc2⟩ := Coupled.runs_pallocFree_front (C := C.replain plain) (K := K)
      hfresh.coupled ⟨d, by simp, hfresh.size, hfresh.marks⟩ hC.promised hstrict
    exact .next (hfresh.coupled.sound_ret _ trivial) hruns (.done ⟨plain, _, n, bs', w2, rfl, hc2,
      Or.inr hblocks, hstrict, (hfresh.thick.mono (by omega)).onlyNode_fill hfresh.marks⟩)

end AimKernel
