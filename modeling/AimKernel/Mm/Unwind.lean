import AimKernel.Mm.NodeAlloc

/-!
# AimKernel.Mm.Unwind

Why the recursion between the allocators stops, part two: every call returns, from
a state of the joint invariant to one.

The only loop is `pgfree`, which frees the node of a block it has swallowed, which
may empty the page of that node, which is then passed to `pgfree`. Each time round
there is one page of list nodes less (`nodePages`), unless the `kmalloc` in between
needs a new one; but then all others are full, and freeing a node empties none.
-/

namespace AimKernel

open Machine

variable {C : Ctx} {ds l r : List Desc} {d : Desc} {bs : List Blk} {w : World} {K : List Frame}

/-! ### The free list around a block -/

/-- Taking a page off the front of the list does not disturb a block of more than
one page. -/
theorem CanonAt.trim {l r : List Blk} {b : Blk} (h : CanonAt l b r)
    (hlow : ∀ c ∈ l ++ b :: r, c.Low) (hsize : b.size ≠ pageSize) :
    ∃ l' b', AimKernel.trim (l ++ b :: r) = l' ++ b' :: r ∧ b'.node = b.node ∧ CanonAt l' b' r := by
  cases l with
  | nil =>
    refine ⟨[], b.carve, trim_more hsize, rfl, h.rest, by simp, ?_⟩
    rw [(hlow b (by simp)).carve_stop]
    exact h.right
  | cons c l =>
    have hc := hlow c (by simp)
    by_cases hcs : c.size = pageSize
    · refine ⟨l, b, trim_one hcs, rfl, (List.pairwise_cons.mp h.rest).2, ?_, h.right⟩
      exact fun e he => h.left e (by simp [he])
    · refine ⟨c.carve :: l, b, trim_more hcs, rfl, ?_, ?_, h.right⟩
      · obtain ⟨h1, h2⟩ := List.pairwise_cons.mp h.rest
        refine List.pairwise_cons.mpr ⟨?_, h2⟩
        rw [hc.carve_stop]
        exact h1
      · refine List.forall_mem_cons.mpr ⟨?_, fun e he => h.left e (by simp [he])⟩
        rw [hc.carve_stop]
        exact h.left c (by simp)

theorem CanonAt.cons {l r : List Blk} {b c : Blk} (h : CanonAt l b r)
    (hc : ∀ e ∈ l ++ b :: r, c.stop < e.paddr) : CanonAt (c :: l) b r :=
  ⟨List.pairwise_cons.mpr ⟨fun e he => hc e (mem_of_mem_rest he), h.rest⟩,
    List.forall_mem_cons.mpr ⟨hc b (by simp), h.left⟩, h.right⟩

/-! ### `pgfree` -/

/-- The number of pages of list nodes. -/
def nodePages (ds : List Desc) : Nat := ds.countP fun d => d.size = memBlockSize

theorem nodePages_congr {d' : Desc} (h : d'.size = d.size) :
    nodePages (l ++ d' :: r) = nodePages (l ++ d :: r) := by
  unfold nodePages
  rw [List.countP_append, List.countP_append, List.countP_cons, List.countP_cons, h]

theorem nodePages_released (hsize : d.size = memBlockSize) (hnum : d.num = 1) (o : Nat) :
    nodePages (l ++ d.released o :: r) < nodePages (l ++ d :: r) := by
  have hne : pgEmpty ≠ memBlockSize := by decide
  have hrel : (d.released o).size = pgEmpty := if_pos hnum
  unfold nodePages
  rw [List.countP_append, List.countP_append, List.countP_cons, List.countP_cons, hrel]
  simp [hsize, hne]

/-- Where `pgfree`, and `kfree`, arrive. -/
def Freed (C : Ctx) (K : List Frame) (m : Machine) : Prop :=
  ∃ plain ds bs w, m = ⟨w, .ret 0, K⟩ ∧ Coupled (C.replain plain) ds bs w ∧ Canon bs

/-- `kfree` of an object in flight, given that `pgfree` of its page unwinds. -/
theorem unwinds_kfree_of {o : Nat} (h : Coupled (C.addObj o) ds bs w) (hcanon : Canon bs)
    (hpgfree : ∀ l d r w', ds = l ++ d :: r → d.Marks o → d.num = 1 →
      Coupled (C.addPage (kva2pa d.paddr)) (l ++ d.released o :: r) bs w' →
      Unwinds (Freed C K) ⟨w', .call (.pgfree (kva2pa d.paddr)), K⟩) :
    Unwinds (Freed C K) ⟨w, .call (.kfree (.node o)), K⟩ := by
  obtain ⟨l, d, r, rfl, hmarks⟩ := h.cell
  by_cases hnum : d.num = 1
  · obtain ⟨w', hruns, hc⟩ := h.runs_kfree_emptied (K := K) hmarks hnum
    exact .next (h.sound_call _) hruns (hpgfree l d r w' rfl hmarks hnum hc)
  · obtain ⟨w', hruns, hc⟩ := h.runs_kfree_kept (K := K) hmarks hnum
    exact .next (h.sound_call _) hruns (.done ⟨C.plain, _, bs, w', rfl, hc, hcanon⟩)

/-- `kfree` of a node that is not alone on its page. -/
theorem unwinds_kfree_onlyNode {n o : Nat} (h : Coupled (C.addObj o) ds bs w) (hcanon : Canon bs)
    (hsize : Holds ds o memBlockSize) (honly : OnlyNode n ds) (hne : o ≠ n) :
    Unwinds (Freed C K) ⟨w, .call (.kfree (.node o)), K⟩ := by
  refine unwinds_kfree_of h hcanon ?_
  intro l d r w' hds hmarks hnum
  have hd : d ∈ ds := by simp [hds]
  exact absurd hnum
    (honly.num_ne (h.slab.ok d hd) hd (h.size_of_marks hd hmarks hsize) hmarks hne)

/-- The end of `free`, given that `kfree` of the swallowed block's node unwinds. -/
theorem unwinds_next {l r : List Blk} {b : Blk} {pages : Pages} {m : Machine}
    (hstep : Coupled.NextStep C ds l b r pages K m) (hcanon : CanonAt l b r)
    (hkfree : ∀ n bs' w', n ∈ r.map Blk.node → Coupled (C.addObj n) ds bs' w' → Canon bs' →
      Holds ds n memBlockSize →
      Unwinds (Freed C (.pallocMergeNext pages :: K))
        ⟨w', .call (.kfree (.node n)), .pallocMergeNext pages :: K⟩) :
    Unwinds (Freed C K) m := by
  cases hstep with
  | ret hr hc => exact .done ⟨C.plain, ds, _, _, rfl, hc, hcanon.canon hr⟩
  | @call n r' w' hr htouch hnode hc =>
    subst hr
    refine Leads.bind (hkfree n.node _ w' (by simp) hc (hcanon.canon_merge htouch) hnode) ?_
    rintro _ ⟨plain, ds', bs', w1, rfl, hc1, hcanon1⟩
    obtain ⟨w2, hruns, hc2⟩ := hc1.runs_pallocMergeNext (K := K) 0 pages
    exact .next (hc1.sound_ret 0 trivial) hruns (.done ⟨plain, ds', bs', w2, rfl, hc2, hcanon1⟩)

/-- The freed page, as a block of its own or as the end of the one before it. -/
theorem Coupled.canonAt_kept {n q : Nat} {l r : List Blk} (h : Coupled (C.addPage q) ds (l ++ r) w)
    (hcanon : Canon (l ++ r)) (hl : ∀ c ∈ l, c.paddr < q) (hr : ∀ c ∈ r.head?, q ≤ c.paddr)
    (hlast : ∀ p ∈ l.getLast?, p.stop ≠ q) : CanonAt l ⟨n, q, pageSize⟩ r := by
  obtain ⟨-, hapart, -⟩ := h.pages.owned_apart q (by simp [Ctx.addPage])
  exact canonAt_insert (q := ⟨n, q, pageSize⟩) hcanon hapart hl hr
    (show 0 < pageSize by decide) (fun c hc => (h.pages.low c hc).pos) hlast

theorem Coupled.canonAt_merged {q : Nat} {l r : List Blk} {p : Blk}
    (h : Coupled (C.addPage q) ds (l ++ p :: r) w) (hcanon : Canon (l ++ p :: r))
    (hr : ∀ c ∈ r.head?, q ≤ c.paddr) (htouch : p.stop = q) :
    CanonAt l { p with size := p.size + pageSize } r := by
  obtain ⟨-, hapart, -⟩ := h.pages.owned_apart q (by simp [Ctx.addPage])
  exact canonAt_extend (q := ⟨0, q, pageSize⟩) hcanon hapart hr
    (fun c hc => (h.pages.low c hc).pos) htouch

/-- The block found by the first merge is linked. -/
theorem Coupled.sound_mergePrev {v : Nat} {l r : List Blk} {b : Blk} {pages : Pages}
    (h : Coupled C ds (l ++ b :: r) w) :
    Sound ⟨w, .ret v, .pallocMergePrev pages (.node b.node) :: K⟩ :=
  h.sound_ret v ⟨b, by simp, rfl⟩

/-- `pgfree` unwinds as long as there are less than `N` pages of list nodes. -/
def Unwinding (N : Nat) : Prop :=
  ∀ (C : Ctx) (K : List Frame) (ds : List Desc) (bs : List Blk) (w : World) (q : Nat),
    nodePages ds < N → Coupled (C.addPage q) ds bs w → Canon bs → C.Fits K →
    Unwinds (Freed C K) ⟨w, .call (.pgfree q), K⟩

theorem unwinds_kfree_node {N o : Nat} (hN : Unwinding N) (h : Coupled (C.addObj o) ds bs w)
    (hcanon : Canon bs) (hC : C.Fits K) (ho : Holds ds o memBlockSize) (hle : nodePages ds ≤ N) :
    Unwinds (Freed C K) ⟨w, .call (.kfree (.node o)), K⟩ := by
  refine unwinds_kfree_of h hcanon ?_
  intro l d r w' hds hmarks hnum hc
  subst hds
  have hsize := h.size_of_marks (by simp) hmarks ho
  have hlt : nodePages (l ++ d.released o :: r) < nodePages (l ++ d :: r) :=
    nodePages_released hsize hnum o
  exact hN C K _ bs w' _ (Nat.lt_of_lt_of_le hlt hle) hc hcanon hC

/-- `free` with a node from a page that holds others. -/
theorem unwinds_pallocFree_slot {N n q : Nat} (hN : Unwinding N)
    (h : Coupled ((C.addPage q).addObj n) (l ++ d :: r) bs w) (hcanon : Canon bs) (hC : C.Fits K)
    (hsize : d.size = memBlockSize) (hmarks : d.Marks n) (hnum : d.num ≠ 1)
    (hle : nodePages (l ++ d :: r) ≤ N) :
    Unwinds (Freed C K) ⟨w, .ret n, .pallocFree ⟨q, pageSize, 0⟩ :: K⟩ := by
  obtain ⟨m, hruns, hstep⟩ := h.runs_pallocFree (K := K) ⟨d, by simp, hsize, hmarks⟩ hC.promised
  refine .next (h.sound_ret _ trivial) hruns ?_
  cases hstep with
  | @kept l' r' _ hbs hl hr hlast hnext =>
    subst hbs
    refine unwinds_next hnext (Coupled.canonAt_kept (C := C.addObj n) h hcanon hl hr hlast) ?_
    intro o bs' w' _ hc hcanon' ho
    exact unwinds_kfree_node hN hc hcanon' (hC.push _) ho hle
  | @merged l' r' p w1 hbs hr htouch hc =>
    subst hbs
    obtain ⟨w2, hruns2, hc2⟩ := hc.runs_kfree_kept hmarks hnum
    obtain ⟨m3, hruns3, hnext⟩ := hc2.runs_pallocMergePrev (K := K) 0 ⟨q, pageSize, 0⟩
    refine .next (hc.sound_call _) hruns2 (.next hc2.sound_mergePrev hruns3 ?_)
    refine unwinds_next hnext (Coupled.canonAt_merged (C := C.addObj n) h hcanon hr htouch) ?_
    intro o bs' w' _ hc' hcanon' ho
    refine unwinds_kfree_node hN hc' hcanon' (hC.push _) ho ?_
    have hsame : (d.released n).size = d.size := if_neg hnum
    rw [nodePages_congr hsame]
    exact hle

namespace FreshPage

variable {b : Blk} {rest bs' : List Blk} {o : Nat}

theorem canon (h : FreshPage C ds (b :: rest) b o l d r bs' w) (hcanon : Canon (b :: rest))
    (hlow : ∀ c ∈ b :: rest, c.Low) : Canon bs' := by
  rcases h.blocks with ⟨heq, -⟩ | ⟨heq, -⟩
  · rw [heq]
    exact trim_canon hlow hcanon
  · rw [heq]
    exact trim_canon (trim_low hlow) (trim_canon hlow hcanon)

/-- The fresh page lies below what is left of the free list. -/
theorem below (h : FreshPage C ds (b :: rest) b o l d r bs' w) (hcanon : Canon (b :: rest))
    (hlow : ∀ c ∈ b :: rest, c.Low) : ∀ c ∈ bs', b.paddr + pageSize ≤ c.paddr := by
  have habove := trim_above (ok_of_low hlow) hcanon.ascending
  rcases h.blocks with ⟨heq, -⟩ | ⟨heq, -⟩
  · rw [heq]
    exact habove
  · rw [heq]
    intro c hc
    exact le_trans (Nat.le_add_right _ _)
      (trim_raises (ok_of_low (trim_low hlow)) (trim_canon hlow hcanon).ascending habove c hc)

/-- There is a gap between the two, or no page of nodes has room. -/
theorem gap (h : FreshPage C ds (b :: rest) b o l d r bs' w) (hcanon : Canon (b :: rest))
    (hlow : ∀ c ∈ b :: rest, c.Low) :
    (∀ c ∈ bs', b.paddr + pageSize < c.paddr) ∨ Thick 128 (l ++ r) := by
  have habove := trim_above (ok_of_low hlow) hcanon.ascending
  rcases h.blocks with ⟨heq, hsize | hfull⟩ | ⟨heq, -⟩
  · -- the block is used up, and did not touch the next one
    refine Or.inl ?_
    rw [heq, trim_one hsize]
    intro c hc
    have := (List.pairwise_cons.mp hcanon).1 c hc
    unfold Blk.stop at this
    omega
  · exact Or.inr hfull
  · -- the page in between is gone too
    refine Or.inl ?_
    rw [heq]
    intro c hc
    have := trim_raises (ok_of_low (trim_low hlow)) (trim_canon hlow hcanon).ascending habove c hc
    unfold pageSize at *
    omega

end FreshPage

/-- `free` with a node that is alone on a fresh page. If the node is freed again at
once, its page goes back to the front of the list. -/
theorem unwinds_pallocFree_page {n q : Nat} {b : Blk} {rest bs' : List Blk}
    (h : FreshPage (C.addPage q) ds (b :: rest) b n l d r bs' w) (hcanon : Canon (b :: rest))
    (hlow : ∀ c ∈ b :: rest, c.Low) (hC : C.Fits K) :
    Unwinds (Freed C K) ⟨w, .ret n, .pallocFree ⟨q, pageSize, 0⟩ :: K⟩ := by
  have hcanon' := h.canon hcanon hlow
  have hbelow := h.below hcanon hlow
  have hgap := h.gap hcanon hlow
  have hthick : Thick 2 (l ++ r) := h.thick.mono (by omega)
  obtain ⟨m, hruns, hstep⟩ := Coupled.runs_pallocFree (C := C) (K := K) h.coupled
    ⟨d, by simp, h.size, h.marks⟩ hC.promised
  refine .next (h.coupled.sound_ret _ trivial) hruns ?_
  cases hstep with
  | @kept l' r' _ hbs hl hr hlast hnext =>
    subst hbs
    refine unwinds_next hnext
      (Coupled.canonAt_kept (C := C.addObj n) h.coupled hcanon' hl hr hlast) ?_
    intro o bs'' w' ho hc hcanon'' hsize
    refine unwinds_kfree_onlyNode hc hcanon'' hsize (hthick.onlyNode_fill h.marks) ?_
    rintro rfl
    exact h.coupled.node_notMem (by rw [List.map_append]; exact List.mem_append_right _ ho)
  | @merged l' r' p w1 hbs hr htouch hc =>
    subst hbs
    have hat : CanonAt l' { p with size := p.size + pageSize } r' :=
      Coupled.canonAt_merged (C := C.addObj n) h.coupled hcanon' hr htouch
    have hmem : ∀ c ∈ l' ++ { p with size := p.size + pageSize } :: r',
        ∃ e ∈ l' ++ p :: r', e.paddr = c.paddr :=
      forall_mem_replace (fun c hc => ⟨c, hc, rfl⟩) ⟨p, by simp, rfl⟩
    have hpage : kva2pa d.paddr = b.paddr := by
      rw [h.page]
      exact kva2pa_pa2kva (hlow b (by simp)).page.lt_kernBase
    obtain ⟨w2, hruns2, hc2⟩ := hc.runs_kfree_emptied h.marks h.num
    rw [hpage] at hruns2 hc2
    refine .next (hc.sound_call _) hruns2 ?_
    have hempty : (d.released n).size = pgEmpty := if_pos h.num
    have hne : pgEmpty ≠ memBlockSize := by decide
    have hfill : ∀ {k : Int}, Thick k (l ++ r) → Thick k (l ++ d.released n :: r) := by
      intro k hk
      exact hk.fill fun hsize => absurd (hempty.symm.trans hsize) hne
    refine Leads.bind (unwinds_pgfree_below hc2 (hC.push _) ?_ ?_ ⟨_, by simp, hempty⟩
      (hfill hthick)) ?_
    · intro c hc
      obtain ⟨e, he, heq⟩ := hmem c hc
      rw [← heq]
      exact hbelow e he
    · rcases hgap with hgap | hfull
      · refine Or.inl ?_
        intro c hc
        obtain ⟨e, he, heq⟩ := hmem c hc
        rw [← heq]
        exact hgap e he
      · exact Or.inr (hfill hfull)
    · rintro _ ⟨plain, ds3, n3, bs3, w3, rfl, hfreed⟩
      -- the block that has grown is still there, perhaps without its first page
      obtain ⟨l3, b3, hbs3, hnode, hat3⟩ : ∃ l3 b3, bs3 = l3 ++ b3 :: r' ∧ b3.node = p.node ∧
          CanonAt l3 b3 r' := by
        rcases hfreed.blocks with heq | heq
        · exact ⟨l', _, heq, rfl, hat⟩
        · obtain ⟨l3, b3, htrim, hnode, hat3⟩ := hat.trim hc.pages.low (by
            have := (h.coupled.pages.low p (by simp)).pos
            dsimp only
            omega)
          exact ⟨l3, b3, heq.trans htrim, hnode, hat3⟩
      subst hbs3
      have hc3 : Coupled (C.replain plain) ds3 ((⟨n3, b.paddr, pageSize⟩ :: l3) ++ b3 :: r') w3 :=
        hfreed.coupled
      obtain ⟨m4, hruns4, hnext⟩ := hc3.runs_pallocMergePrev (K := K) 0 ⟨q, pageSize, 0⟩
      rw [← hnode]
      refine .next hc3.sound_mergePrev hruns4 ?_
      refine unwinds_next (C := C.replain plain) hnext
        (hat3.cons (c := ⟨n3, b.paddr, pageSize⟩) hfreed.gap) ?_
      intro o bs'' w' ho hc hcanon'' hsize
      refine unwinds_kfree_onlyNode hc hcanon'' hsize hfreed.only ?_
      rintro rfl
      have hnodup := hfreed.coupled.rep.nodup
      rw [List.map_cons, List.nodup_cons] at hnodup
      exact hnodup.1 (by simp only [List.map_append, List.map_cons]; simp [ho])

/-- **`pgfree` unwinds.** -/
theorem unwinding (N : Nat) : Unwinding N := by
  induction N with
  | zero => exact fun _ _ _ _ _ _ hlt => absurd hlt (Nat.not_lt_zero _)
  | succ N ih =>
    intro C K ds bs w q hlt h hcanon hC
    have hq := (h.pages.owned_apart q (by simp [Ctx.addPage])).1
    refine .next (h.sound_call _) (Coupled.runs_pgfree hq) ?_
    refine .next (h.sound_call _) (Coupled.runs_freePages (Nat.mod_self _)) ?_
    refine Leads.bind (unwinds_kmalloc_node h ((hC.addPage q).push _)) ?_
    rintro _ ⟨n, w1, rfl, htaken⟩
    cases htaken with
    | @slot l r d hds hroom hne hc hmarks =>
      subst hds
      have hd := (h.slab.ok d (by simp)).inUse hne
      have hpos := Finset.card_pos.mpr hd.nonempty
      refine unwinds_pallocFree_slot ih hc hcanon hC hroom.1.symm hmarks ?_ ?_
      · rw [Desc.taken_num, hd.num]
        omega
      · rw [nodePages_congr (Desc.taken_size memBlockSize d)]
        omega
    | page plain hbs hfresh =>
      subst hbs
      exact unwinds_pallocFree_page (C := C.replain plain) hfresh hcanon h.pages.low
        ⟨hC.promised, hC.waiting⟩

theorem unwinds_pgfree {q : Nat} (h : Coupled (C.addPage q) ds bs w) (hcanon : Canon bs)
    (hC : C.Fits K) : Unwinds (Freed C K) ⟨w, .call (.pgfree q), K⟩ :=
  unwinding (nodePages ds + 1) C K ds bs w q (Nat.lt_succ_self _) h hcanon hC

theorem unwinds_kfree {o : Nat} (h : Coupled (C.addObj o) ds bs w) (hcanon : Canon bs)
    (hC : C.Fits K) : Unwinds (Freed C K) ⟨w, .call (.kfree (.node o)), K⟩ :=
  unwinds_kfree_of h hcanon fun _ _ _ _ _ _ _ hc => unwinds_pgfree hc hcanon hC

/-! ### `pgalloc` and `kmalloc` -/

/-- Where `pgalloc` arrives. -/
def Paged (C : Ctx) (K : List Frame) (pick : Option Nat) (m : Machine) : Prop :=
  ∃ plain p ds bs w, m = ⟨w, .ret p, K⟩ ∧ Coupled ((C.replain plain).carry pick p) ds bs w ∧
    Canon bs

theorem unwinds_pgalloc (h : Coupled C ds bs w) (hcanon : Canon bs) (hC : C.Fits K)
    (pick : Option Nat) (hpick : ∀ n ∈ pick, Pickable C ds n) (hK : ∀ n ∈ pick, n ∈ picked K) :
    Unwinds (Paged C K pick) ⟨w, .call .pgalloc, K⟩ := by
  refine Leads.guarded (h.sound_call _) ?_
  intro hg
  obtain ⟨b, rest, m, rfl, hruns, hstep⟩ := h.runs_pgalloc hg
  have hcanon' := trim_canon h.pages.low hcanon
  refine ⟨m, hruns, ?_⟩
  cases hstep with
  | @ret w1 _ hc =>
    exact .done ⟨C.plain, b.paddr, ds, _, w1, rfl, hc.carry hC.promised hpick, hcanon'⟩
  | @call w1 _ _ hc =>
    have hcarry : Coupled ((C.carry pick b.paddr).addObj b.node) ds (trim (b :: rest)) w1 :=
      Coupled.carry (C := C.addObj b.node) hc hC.promised
        fun n hn => ⟨(hpick n hn).first, (hpick n hn).new⟩
    refine Leads.bind (unwinds_kfree hcarry hcanon' ((hC.carry hK b.paddr).push _)) ?_
    rintro _ ⟨plain, ds2, bs2, w2, rfl, hc2, hcanon2⟩
    obtain ⟨w3, hruns3, hc3⟩ :=
      hc2.runs_pallocAlloc (v := 0) (K := K) (h.pages.low b (by simp)).page
    exact .next (hc2.sound_ret 0 trivial) hruns3
      (.done ⟨plain, b.paddr, ds2, bs2, w3, rfl, hc3, hcanon2⟩)

/-- Where `kmalloc(size)` arrives: at `NULL`, at an object, or at its own panic. -/
inductive Allocated (C : Ctx) (w₀ : World) (size : Nat) (K : List Frame) : Machine → Prop
  | null (plain : List Nat) {ds : List Desc} {bs : List Blk} {w : World} :
      Coupled (C.replain plain) ds bs w → Canon bs → Allocated C w₀ size K ⟨w, .ret 0, K⟩
  | obj (plain : List Nat) {ds : List Desc} {bs : List Blk} {w : World} {o : Nat} : o ≠ 0 →
      Coupled ((C.replain plain).addObj o) ds bs w → Canon bs →
      Allocated C w₀ size K ⟨w, .ret o, K⟩
  | tooLarge : pageSize / 2 < size → Allocated C w₀ size K ⟨w₀, .panic tooLarge, K⟩

/-- **`kmalloc` unwinds.** -/
theorem unwinds_kmalloc (h : Coupled C ds bs w) (hcanon : Canon bs) (hC : C.Fits K) (size : Nat) :
    Unwinds (Allocated C w size K) ⟨w, .call (.kmalloc size), K⟩ := by
  refine Leads.guarded (h.sound_call _) ?_
  intro hg
  obtain ⟨m, hruns, hstep⟩ := h.runs_kmalloc (K := K) size
  refine ⟨m, hruns, ?_⟩
  cases hstep with
  | tooLarge hbig => exact .done (.tooLarge hbig)
  | null _ => exact .done (Allocated.null C.plain h hcanon)
  | slot _ _ _ hc _ => exact .done (Allocated.obj C.plain hc.obj_ne_zero hc hcanon)
  | @unused l r d hcls hds hempty hl hroom =>
    subst hds
    have hpick := h.pickable hC hg hempty hl hroom
    refine Leads.bind (unwinds_pgalloc h hcanon (hC.push _) (some d.node)
      (fun n hn => by obtain rfl := Option.some.inj hn; exact hpick)
      (fun n hn => by obtain rfl := Option.some.inj hn; exact List.mem_cons_self)) ?_
    rintro _ ⟨plain, p, ds', bs', w1, rfl, hc, hcanon'⟩
    exact Coupled.unwinds_allocPage (C := C.replain plain) hc hcls
      fun _ _ _ _ _ _ hc2 _ => .obj plain hc2.obj_ne_zero hc2 hcanon'
  | full hcls _ _ =>
    refine Leads.bind (unwinds_pgalloc h hcanon (hC.push _) none (by simp) (by simp)) ?_
    rintro _ ⟨plain, p, ds1, bs1, w1, rfl, hc, hcanon1⟩
    have hC1 : (C.replain plain).Fits K := ⟨hC.promised, hC.waiting⟩
    refine Leads.guarded (hc.sound_ret _ trivial) ?_
    intro hg1
    obtain ⟨m1, hruns1, hstep1⟩ :=
      Coupled.runs_allocPage_tail (C := C.replain plain) hc hcls hC1.promised hg1
    refine ⟨m1, hruns1, ?_⟩
    cases hstep1 with
    | ret hc2 _ => exact .done (.obj plain hc2.obj_ne_zero hc2 hcanon1)
    | call =>
      refine Leads.bind (unwinds_pgalloc (C := (C.replain plain).addPage p) hc hcanon1
        ((hC1.addPage p).push _) none (by simp) (by simp)) ?_
      rintro _ ⟨plain', q, ds2, bs2, w2, rfl, hc2, hcanon2⟩
      obtain ⟨n, o, w3, hruns3, hc3, -⟩ :=
        Coupled.runs_allocPlain (C := C.replain plain') (K := K) hc2 hcls hC.promised
      exact .next (hc2.sound_ret _ trivial) hruns3
        (.done (Allocated.obj (q :: plain') hc3.obj_ne_zero hc3 hcanon2))

end AimKernel
