import AimKernel.Lib.Leads
import AimKernel.Mm.CoupledOps

/-!
# AimKernel.Mm.MachineSteps

One lemma for each step of the coupled allocators: from a state of the joint
invariant, where the machine goes and what the invariant becomes.

Two situations are excluded by `Regular`, because the code does not survive them.
A nested `kmalloc` may pick the unused descriptor that a suspended `alloc` has
already picked. And `get_plain_object` leaves `offset` at zero after it has handed
out the first object of a new plain page, so that the next descriptor would be
stored over it.
-/

namespace AimKernel

namespace Machine

/-! ### Runs of one call -/

/-- One step of a running call, with whatever fuel it takes. -/
def Runs (m m' : Machine) : Prop := ∃ fuel, m.step fuel = some m'

variable {m m' : Machine}

theorem kmalloc_mono {n k size : Nat} (h : m.kmalloc n size = some m') (hnk : n ≤ k) :
    m.kmalloc k size = some m' := by
  unfold kmalloc at h ⊢
  cases hres : m.world.slab.allocEnter n size with
  | none =>
    rw [hres] at h
    split at h
    · rename_i hbig
      rwa [if_pos hbig]
    · rename_i hbig
      rw [if_neg hbig]
      split at h
      · exact h
      · cases h
  | some res =>
    rw [hres] at h
    rw [Slab.allocEnter_mono hres hnk]
    exact h

theorem kfree_mono {n k : Nat} {obj : Link Nat} (h : m.kfree n obj = some m') (hnk : n ≤ k) :
    m.kfree k obj = some m' := by
  unfold kfree at h ⊢
  split at h
  · exact h
  · exact h
  · rename_i o _
    cases hres : m.world.slab.freeEnter n o with
    | none =>
      rw [hres] at h
      cases h
    | some res =>
      rw [hres] at h
      rw [Slab.freeEnter_mono hres hnk]
      exact h
  · exact h

theorem pgalloc_mono {n k : Nat} (h : m.pgalloc n = some m') (hnk : n ≤ k) :
    m.pgalloc k = some m' := by
  unfold pgalloc at h ⊢
  cases hres : m.world.pa.allocEnter n onePage with
  | none =>
    rw [hres] at h
    cases h
  | some res =>
    rw [hres] at h
    rw [Palloc.allocEnter_mono hres hnk]
    exact h

theorem pallocFreeRet_mono {n k v : Nat} {pages : Pages}
    (h : m.pallocFreeRet n v pages = some m') (hnk : n ≤ k) :
    m.pallocFreeRet k v pages = some m' := by
  unfold pallocFreeRet at h ⊢
  cases hres : m.world.pa.freeLink n (.node v) pages with
  | none =>
    rw [hres] at h
    split at h
    · rename_i hv
      rwa [if_pos hv]
    · cases h
  | some res =>
    rw [hres] at h
    rw [Palloc.freeLink_mono hres hnk]
    exact h

theorem step_mono {n k : Nat} (h : m.step n = some m') (hnk : n ≤ k) : m.step k = some m' := by
  unfold step at h ⊢
  split at h
  · cases h
  · cases h
  · rename_i c _
    cases c with
    | kmalloc size => exact kmalloc_mono h hnk
    | kfree obj => exact kfree_mono h hnk
    | pgalloc => exact pgalloc_mono h hnk
    | _ => exact h
  · split at h
    · cases h
    · rename_i f _ _
      unfold stepRet at h ⊢
      cases f with
      | pallocFree pages => exact pallocFreeRet_mono h hnk
      | boot rest => cases rest <;> exact h
      | _ => exact h

theorem Runs.det {m1 m2 : Machine} (h1 : Runs m m1) (h2 : Runs m m2) : m1 = m2 := by
  obtain ⟨n, h1⟩ := h1
  obtain ⟨k, h2⟩ := h2
  have h1' := step_mono h1 (Nat.le_max_left n k)
  have h2' := step_mono h2 (Nat.le_max_right n k)
  rw [h1'] at h2'
  exact Option.some.inj h2'

/-! ### What is asked of a run, and what it then does -/

/-- The descriptors picked by the suspended `alloc`s. -/
def picked : List Frame → List Nat
  | [] => []
  | .allocPage _ (.node n) :: stack => n :: picked stack
  | _ :: stack => picked stack

/-- `kmalloc(size)` does not need the unused descriptor at `n`: there is an object
of the size class, or an unused descriptor further to the front. -/
def Spares (s : Slab) (size n : Nat) : Prop :=
  ∀ ds, s.Rep ds → (∃ d ∈ ds, d.Room (sizeClass size)) ∨
    ∃ l d r, ds = l ++ d :: r ∧ d.size = pgEmpty ∧ d.node ≠ n ∧ ∀ e ∈ l, e.node ≠ n

/-- If another descriptor fits on the plain page, its place is not taken. -/
def PlainClear (s : Slab) : Prop :=
  ∀ ds, s.Rep ds → s.offset + allocedPageSize ≤ pageSize →
    ∀ d ∈ ds, d.node ≠ s.nowPlainPage + s.offset

/-- The condition on the states of a run. -/
structure Regular (m : Machine) : Prop where
  /-- Free pages do not run out. -/
  pages : ¬ m.RunsOut
  /-- No `kmalloc` needs a descriptor that is already picked. -/
  spares : ∀ size, m.ctl = .call (.kmalloc size) → ∀ n ∈ picked m.stack,
    Spares m.world.slab size n
  /-- A new descriptor is not stored over another one. -/
  plain : ∀ v size stack, m.ctl = .ret v → m.stack = .allocPage size .tail :: stack →
    PlainClear m.world.slab

/-- The page an address lies on. -/
def pageOf (a : Nat) : Nat := a / pageSize * pageSize

/-- The object `o` is registered: its page is the page of exactly one descriptor in
use, its bit is set there, and `free` finds it. -/
structure Registered (s : Slab) (o : Nat) : Prop where
  found : ∃ ds, s.Rep ds ∧ ∃ d ∈ ds, d.size ≠ pgEmpty ∧ d.paddr = pageOf o ∧
    bit d.status ((o - d.paddr) / bitSize) = true ∧
    ∀ e ∈ ds, e.size ≠ pgEmpty → e.paddr = pageOf o → e = d
  freed : ∀ fuel msg, s.freeEnter fuel o ≠ some (.panic msg)

/-- What holds in every state of a regular run. -/
structure Sound (m : Machine) : Prop where
  /-- Live objects are registered. -/
  registered : ∀ o ∈ m.world.live, Registered m.world.slab o
  /-- A picked descriptor is still unused when its page arrives. -/
  unused : ∀ v size n stack, m.ctl = .ret v → m.stack = .allocPage size (.node n) :: stack →
    (m.world.slab.mem (.node n)).size = pgEmpty
  /-- The block that survives the first merge is still linked afterwards. -/
  linked : ∀ v pages i stack, m.ctl = .ret v → m.stack = .pallocMergePrev pages i :: stack →
    ∃ bs, m.world.pa.Rep bs ∧ ∃ b ∈ bs, i = .node b.node

/-- The run from `m` is sound and arrives at `P`, as long as it is regular. -/
def Unwinds (P : Machine → Prop) (m : Machine) : Prop := Leads Runs Regular Sound P m

end Machine

open Machine

variable {C : Ctx} {ds l r : List Desc} {d : Desc} {bs : List Blk} {w : World} {K : List Frame}

/-! ### Soundness from the joint invariant -/

theorem pageOf_cell {a : Nat} (ha : KernPage a) {x : Nat} (h : a ≤ x ∧ x < a + pageSize) :
    pageOf x = a := by
  have h1 := ha.aligned
  unfold pageOf pageSize at *
  omega

theorem Slab.Inv.registered {s : Slab} (h : s.Inv ds) {o n : Nat} (ho : Holds ds o n) :
    Registered s o := by
  obtain ⟨d, hd, -, i, hi, rfl⟩ := ho
  have hok := h.ok d hd
  have huse := hok.inUse_of_mem hi
  have hpage : pageOf (d.paddr + bitSize * i) = d.paddr := pageOf_cell hok.page (Desc.cell_mem hi)
  refine ⟨⟨ds, h.rep, d, hd, huse.size_ne, hpage.symm, ?_, ?_⟩, ?_⟩
  · rw [Nat.add_sub_cancel_left, Nat.mul_div_cancel_left _ (by decide)]
    exact mem_ones.mp hi
  · intro e he hne hpaddr
    exact h.order.eq_of_page he hd hne huse.size_ne (hpaddr.trans hpage)
  · intro fuel msg hpanic
    obtain ⟨l, r, s', -, -, -, hfree, -, -, -⟩ :=
      h.free hd hi (Nat.lt_succ_of_le (Nat.le_max_left ds.length fuel))
    have hmore := Slab.freeEnter_mono hpanic
      (Nat.le_succ_of_le (Nat.le_max_right ds.length fuel))
    rw [hmore] at hfree
    split at hfree <;> exact absurd (Option.some.inj hfree) (by simp)

namespace Coupled

theorem registered (h : Coupled C ds bs w) : ∀ o ∈ w.live, Registered w.slab o := by
  intro o ho
  obtain ⟨n, hn⟩ := (h.objs.live_iff o).mp ho
  exact h.slab.registered hn

theorem sound_of_not_ret (h : Coupled C ds bs w) {ctl : Ctl} (hctl : ∀ v, ctl ≠ .ret v) :
    Sound ⟨w, ctl, K⟩ :=
  ⟨h.registered, fun v _ _ _ hv => absurd hv (hctl v), fun v _ _ _ hv => absurd hv (hctl v)⟩

theorem sound_call (h : Coupled C ds bs w) (c : Call) : Sound ⟨w, .call c, K⟩ :=
  h.sound_of_not_ret fun _ => Ctl.noConfusion

/-- What the frame on top of the stack relies on when its call returns. -/
def Relies (C : Ctx) (bs : List Blk) : Frame → Prop
  | .allocPage _ (.node n) => ∃ p, (n, p) ∈ C.picks
  | .pallocMergePrev _ i => ∃ b ∈ bs, i = .node b.node
  | _ => True

/-- A return is a sound state if the frame finds what it relies on. -/
theorem sound_ret (h : Coupled C ds bs w) (v : Nat) {f : Frame} (hf : Relies C bs f) :
    Sound ⟨w, .ret v, f :: K⟩ := by
  refine ⟨h.registered, ?_, ?_⟩
  · intro v' size n stack _ hstack
    obtain ⟨rfl, -⟩ := List.cons.inj hstack
    obtain ⟨p, hp⟩ := hf
    obtain ⟨d, hd, hnode, hsize⟩ := h.descs.unused _ hp
    have heq := h.slab.rep.size_eq hd
    rw [hnode] at heq
    exact heq.trans hsize
  · intro v' pages i stack _ hstack
    obtain ⟨rfl, -⟩ := List.cons.inj hstack
    exact ⟨bs, h.rep, hf⟩

/-! ### `kfree` -/

theorem cell {o : Nat} (h : Coupled (C.addObj o) ds bs w) :
    ∃ l d r, ds = l ++ d :: r ∧ d.Marks o := by
  obtain ⟨n, d, hd, -, hmarks⟩ := (h.objs.live_iff o).mp
    (h.objs.owned_live o (by simp [Ctx.addObj]))
  obtain ⟨l, r, rfl⟩ := List.append_of_mem hd
  exact ⟨l, d, r, rfl, hmarks⟩

theorem obj_ne_zero {o : Nat} (h : Coupled (C.addObj o) ds bs w) : o ≠ 0 := by
  obtain ⟨l, d, r, rfl, i, hi, rfl⟩ := h.cell
  have := (h.slab.ok d (by simp)).page.ne_zero
  omega

theorem runs_kfree_kept {o : Nat} (h : Coupled (C.addObj o) (l ++ d :: r) bs w)
    (hmarks : d.Marks o) (hnum : d.num ≠ 1) :
    ∃ w', Runs ⟨w, .call (.kfree (.node o)), K⟩ ⟨w', .ret 0, K⟩ ∧
      Coupled C (l ++ d.released o :: r) bs w' := by
  obtain ⟨slab, hfree, hcoupled⟩ := h.freeKept hmarks hnum (Nat.lt_succ_self _)
  refine ⟨_, ⟨(l ++ d :: r).length.succ, ?_⟩, hcoupled⟩
  simp only [step, stepCall, kfree, h.active, hfree, doRet]

theorem runs_kfree_emptied {o : Nat} (h : Coupled (C.addObj o) (l ++ d :: r) bs w)
    (hmarks : d.Marks o) (hnum : d.num = 1) :
    ∃ w', Runs ⟨w, .call (.kfree (.node o)), K⟩ ⟨w', .call (.pgfree (kva2pa d.paddr)), K⟩ ∧
      Coupled (C.addPage (kva2pa d.paddr)) (l ++ d.released o :: r) bs w' := by
  obtain ⟨slab, hfree, hcoupled⟩ := h.freeEmptied hmarks hnum (Nat.lt_succ_self _)
  refine ⟨_, ⟨(l ++ d :: r).length.succ, ?_⟩, hcoupled⟩
  simp only [step, stepCall, kfree, h.active, hfree]

/-! ### `pgalloc` -/

theorem runs_pgalloc_carved {fuel p : Nat} {pa : Palloc} (hp : p < kernBase)
    (h : w.pa.allocEnter fuel onePage = some (.carved ⟨p, pageSize, 0⟩ pa)) :
    Runs ⟨w, .call .pgalloc, K⟩
      ⟨{ w with pa := pa.allocLeave ⟨p, pageSize, 0⟩ }, .ret p, K⟩ := by
  refine ⟨fuel, ?_⟩
  simp only [step, stepCall, Machine.pgalloc, h, doRet, premapAddr_eq hp]

theorem runs_pgalloc_emptied {fuel : Nat} {a : Link Nat} {pages : Pages} {pa : Palloc}
    (h : w.pa.allocEnter fuel onePage = some (.emptied a pages pa)) :
    Runs ⟨w, .call .pgalloc, K⟩
      ⟨{ w with pa := pa }, .call (.kfree a), .pallocAlloc pages :: K⟩ := by
  refine ⟨fuel, ?_⟩
  simp only [step, stepCall, Machine.pgalloc, h, doCall]

theorem runs_pallocAlloc_leave {v p : Nat} (hp : p < kernBase) :
    Runs ⟨w, .ret v, .pallocAlloc ⟨p, pageSize, 0⟩ :: K⟩
      ⟨{ w with pa := w.pa.allocLeave ⟨p, pageSize, 0⟩ }, .ret p, K⟩ := by
  refine ⟨0, ?_⟩
  simp only [step, stepRet, doRet, premapAddr_eq hp]

/-- Where `pgalloc` goes from the blocks `b :: rest`. -/
inductive PageStep (C : Ctx) (ds : List Desc) (b : Blk) (rest : List Blk) (K : List Frame) :
    Machine → Prop
  | ret {w : World} : b.size ≠ pageSize →
      Coupled (C.addPage b.paddr) ds (trim (b :: rest)) w →
      PageStep C ds b rest K ⟨w, .ret b.paddr, K⟩
  | call {w : World} : b.size = pageSize → Holds ds b.node memBlockSize →
      Coupled ((C.addPage b.paddr).addObj b.node) ds (trim (b :: rest)) w →
      PageStep C ds b rest K
        ⟨w, .call (.kfree (.node b.node)), .pallocAlloc ⟨b.paddr, pageSize, 0⟩ :: K⟩

theorem runs_pgalloc (h : Coupled C ds bs w) (hg : Regular ⟨w, .call .pgalloc, K⟩) :
    ∃ b rest m, bs = b :: rest ∧ Runs ⟨w, .call .pgalloc, K⟩ m ∧ PageStep C ds b rest K m := by
  obtain ⟨res, hres, ⟨rfl, -⟩ | ⟨b, rest, pa, rfl, hrep, -, rfl⟩⟩ :=
    Palloc.allocEnter_onePage h.rep (ok_of_low h.pages.low)
  · exact absurd ⟨rfl, _, hres⟩ hg.pages
  have hpromised : ∀ np ∈ C.picks, np.2 ∈ (C.addPage b.paddr).pages :=
    fun np hnp => List.mem_cons_of_mem _ (h.promised np hnp)
  by_cases hsize : b.size = pageSize
  · rw [if_pos hsize] at hres
    refine ⟨b, rest, _, rfl, runs_pgalloc_emptied hres, .call hsize (h.objs.node_size _ (by simp))
      ⟨h.active, h.slab, hrep, ?_, h.pages.alloc, h.descs, hpromised, h.apart⟩⟩
    rw [trim_one hsize]
    exact h.objs.delist
  · rw [if_neg hsize] at hres
    refine ⟨b, rest, _, rfl, runs_pgalloc_carved (h.pages.low b (by simp)).page.lt_kernBase hres,
      .ret hsize ⟨h.active, h.slab, hrep.freeSize _, ?_, h.pages.alloc, h.descs, hpromised, h.apart⟩⟩
    rw [trim_more hsize]
    exact h.objs

theorem runs_pallocAlloc (h : Coupled C ds bs w) {v p : Nat} (hp : IsFrame p) :
    ∃ w', Runs ⟨w, .ret v, .pallocAlloc ⟨p, pageSize, 0⟩ :: K⟩ ⟨w', .ret p, K⟩ ∧
      Coupled C ds bs w' :=
  ⟨_, runs_pallocAlloc_leave hp.lt_kernBase, h.freeSize _⟩

/-! ### `pgfree` -/

theorem runs_pgfree {q : Nat} (hq : IsFrame q) :
    Runs ⟨w, .call (.pgfree q), K⟩ ⟨w, .call (.freePages ⟨q, pageSize, 0⟩), K⟩ := by
  refine ⟨0, ?_⟩
  simp only [step, stepCall, premapAddr_eq hq.lt_kernBase]

theorem runs_freePages {pages : Pages} (h : pages.size % pageSize = 0) :
    Runs ⟨w, .call (.freePages pages), K⟩
      ⟨w, .call (.kmalloc memBlockSize), .pallocFree pages :: K⟩ := by
  refine ⟨0, ?_⟩
  simp [step, stepCall, Palloc.freeEnter, h, doCall]

/-- Where `free` goes from its second merge, with the block `b` between `l` and `r`. -/
inductive NextStep (C : Ctx) (ds : List Desc) (l : List Blk) (b : Blk) (r : List Blk)
    (pages : Pages) (K : List Frame) : Machine → Prop
  | ret {w : World} : (∀ n ∈ r.head?, b.stop ≠ n.paddr) → Coupled C ds (l ++ b :: r) w →
      NextStep C ds l b r pages K ⟨w, .ret 0, K⟩
  | call {n : Blk} {r' : List Blk} {w : World} : r = n :: r' → b.stop = n.paddr →
      Holds ds n.node memBlockSize →
      Coupled (C.addObj n.node) ds (l ++ { b with size := b.size + n.size } :: r') w →
      NextStep C ds l b r pages K
        ⟨w, .call (.kfree (.node n.node)), .pallocMergeNext pages :: K⟩

theorem mergeNext {l r : List Blk} {b : Blk} (h : Coupled C ds (l ++ b :: r) w) (ctl : Ctl)
    (pages : Pages) :
    NextStep C ds l b r pages K (Machine.mergeNext (.node b.node) pages ⟨w, ctl, K⟩) := by
  have hspec := Palloc.freeMerge_spec h.rep h.bounds
  unfold Machine.mergeNext
  generalize w.pa.freeMerge (.node b.node) = res at hspec
  cases hspec with
  | kept hr => exact .ret hr (h.freeSize _)
  | @merged n r' pa hr htouch hrep _ =>
    subst hr
    refine .call rfl htouch (h.objs.node_size n.node (by simp))
      ⟨h.active, h.slab, hrep, ?_, h.pages.merge htouch, h.descs, h.promised, h.apart⟩
    refine ObjBook.delist (h.objs.perm ?_ (List.Perm.refl _))
    have hmap : (l ++ b :: n :: r').map Blk.node =
        (l ++ [b]).map Blk.node ++ n.node :: r'.map Blk.node := by simp
    have hmap' : (l ++ { b with size := b.size + n.size } :: r').map Blk.node =
        (l ++ [b]).map Blk.node ++ r'.map Blk.node := by simp
    rw [hmap, hmap']
    exact List.perm_middle

/-- Where `free` goes with its list node `n` and the page `q`. -/
inductive LinkStep (C : Ctx) (ds : List Desc) (bs : List Blk) (n q : Nat) (K : List Frame) :
    Machine → Prop
  | kept {l r : List Blk} {m : Machine} : bs = l ++ r → (∀ c ∈ l, c.paddr < q) →
      (∀ c ∈ r.head?, q ≤ c.paddr) → (∀ p ∈ l.getLast?, p.stop ≠ q) →
      NextStep C ds l ⟨n, q, pageSize⟩ r ⟨q, pageSize, 0⟩ K m →
      LinkStep C ds bs n q K m
  | merged {l r : List Blk} {p : Blk} {w : World} : bs = l ++ p :: r →
      (∀ c ∈ r.head?, q ≤ c.paddr) → p.stop = q →
      Coupled (C.addObj n) ds (l ++ { p with size := p.size + pageSize } :: r) w →
      LinkStep C ds bs n q K
        ⟨w, .call (.kfree (.node n)), .pallocMergePrev ⟨q, pageSize, 0⟩ (.node p.node) :: K⟩

theorem runs_pallocFree {n q : Nat} (h : Coupled ((C.addPage q).addObj n) ds bs w)
    (hn : Holds ds n memBlockSize) (hpicks : ∀ np ∈ C.picks, np.2 ∈ C.pages) :
    ∃ m, Runs ⟨w, .ret n, .pallocFree ⟨q, pageSize, 0⟩ :: K⟩ m ∧ LinkStep C ds bs n q K m := by
  have hn0 := h.obj_ne_zero
  have hfresh : ∀ c ∈ bs, c.node ≠ n :=
    fun c hc heq => h.node_notMem (List.mem_map.mpr ⟨c, hc, heq⟩)
  have hbound : q + pageSize < 2 ^ 64 := by
    have hlow := (h.pages.owned_apart q (by simp [Ctx.addPage, Ctx.addObj])).1.bound
    unfold lowramTop at hlow
    omega
  obtain ⟨res, hres, hspec⟩ := @Palloc.freeLink_spec _ _ _ _ ⟨q, pageSize, 0⟩ h.rep
    (Nat.lt_succ_self _) hfresh hbound h.bounds
  cases hspec with
  | @kept l r pa hbs hl hr hlast hrep _ =>
    subst hbs
    have hlinked : Coupled C ds (l ++ ⟨n, q, pageSize⟩ :: r) { w with pa := pa } := by
      refine ⟨h.active, h.slab, hrep, ?_, h.pages.insert n hl hr, h.descs, hpicks, h.apart⟩
      refine (h.objs.enlist hn).perm ?_ (List.Perm.refl _)
      rw [List.map_append, List.map_append, List.map_cons]
      exact List.perm_middle.symm
    refine ⟨_, ⟨(l ++ r).length.succ, ?_⟩, .kept rfl hl hr hlast (hlinked.mergeNext (.ret n) _)⟩
    simp only [step, stepRet, pallocFreeRet, if_neg hn0, hres]
  | @merged l r p pa hbs hl hr htouch hrep _ =>
    subst hbs
    have hmap : (l ++ { p with size := p.size + pageSize } :: r).map Blk.node =
        (l ++ p :: r).map Blk.node := by simp
    have hmerged : Coupled (C.addObj n) ds (l ++ { p with size := p.size + pageSize } :: r)
        { w with pa := pa } :=
      ⟨h.active, h.slab, hrep, hmap ▸ h.objs, h.pages.extend hl hr htouch, h.descs, hpicks, h.apart⟩
    refine ⟨_, ⟨(l ++ p :: r).length.succ, ?_⟩, .merged rfl hr htouch hmerged⟩
    simp only [step, stepRet, pallocFreeRet, if_neg hn0, hres, doCall]

theorem runs_pallocMergePrev {l r : List Blk} {b : Blk} (h : Coupled C ds (l ++ b :: r) w)
    (v : Nat) (pages : Pages) :
    ∃ m, Runs ⟨w, .ret v, .pallocMergePrev pages (.node b.node) :: K⟩ m ∧
      NextStep C ds l b r pages K m :=
  ⟨_, ⟨0, rfl⟩, h.mergeNext _ _⟩

theorem runs_pallocMergeNext (h : Coupled C ds bs w) (v : Nat) (pages : Pages) :
    ∃ w', Runs ⟨w, .ret v, .pallocMergeNext pages :: K⟩ ⟨w', .ret 0, K⟩ ∧ Coupled C ds bs w' :=
  ⟨_, ⟨0, rfl⟩, h.freeSize _⟩

/-! ### `kmalloc` -/

/-- Where `kmalloc(size)` goes. -/
inductive ObjStep (C : Ctx) (ds : List Desc) (bs : List Blk) (w : World) (size : Nat)
    (K : List Frame) : Machine → Prop
  | tooLarge : pageSize / 2 < size → ObjStep C ds bs w size K ⟨w, .panic tooLarge, K⟩
  | null : size = 0 → ObjStep C ds bs w size K ⟨w, .ret 0, K⟩
  | slot {l r : List Desc} {d : Desc} {o : Nat} {w' : World} : ds = l ++ d :: r →
      d.Room (sizeClass size) → d.size ≠ pgEmpty →
      Coupled (C.addObj o) (l ++ d.taken (sizeClass size) :: r) bs w' →
      (d.taken (sizeClass size)).Marks o →
      ObjStep C ds bs w size K ⟨w', .ret o, K⟩
  | unused {l r : List Desc} {d : Desc} : sizeClass size ∈ friSize → ds = l ++ d :: r →
      d.size = pgEmpty → (∀ e ∈ l, e.size ≠ pgEmpty) → (∀ e ∈ ds, ¬ e.Room (sizeClass size)) →
      ObjStep C ds bs w size K
        ⟨w, .call .pgalloc, .allocPage (sizeClass size) (.node d.node) :: K⟩
  | full : sizeClass size ∈ friSize → (∀ e ∈ ds, ¬ e.Room (sizeClass size)) →
      (∀ e ∈ ds, e.size ≠ pgEmpty) →
      ObjStep C ds bs w size K ⟨w, .call .pgalloc, .allocPage (sizeClass size) .tail :: K⟩

theorem runs_kmalloc (h : Coupled C ds bs w) (size : Nat) :
    ∃ m, Runs ⟨w, .call (.kmalloc size), K⟩ m ∧ ObjStep C ds bs w size K m := by
  by_cases hbig : size > pageSize / 2
  · refine ⟨_, ⟨0, ?_⟩, .tooLarge hbig⟩
    simp only [step, stepCall, kmalloc, if_pos hbig, doPanic]
  obtain ⟨res, hres, hspec⟩ := Slab.allocEnter_spec size h.slab.rep (Nat.lt_succ_self _)
  cases hspec with
  | null hsize =>
    refine ⟨_, ⟨ds.length.succ, ?_⟩, .null (by omega)⟩
    simp only [step, stepCall, kmalloc, if_neg hbig, h.active, hres, doRet]
  | @slot l r d _ _ hds hroom hne =>
    subst hds
    obtain ⟨hcoupled, hmarks⟩ := h.take hroom hne
    refine ⟨_, ⟨(l ++ d :: r).length.succ, ?_⟩, .slot rfl hroom hne hcoupled hmarks⟩
    simp only [step, stepCall, kmalloc, if_neg hbig, h.active, hres, doRet]
  | @unused l r d _ hle hds hempty hl hroom =>
    refine ⟨_, ⟨ds.length.succ, ?_⟩, .unused (Slab.sizeClass_mem hle).1 hds hempty hl hroom⟩
    simp only [step, stepCall, kmalloc, if_neg hbig, h.active, hres, doCall]
  | full _ hle hroom hall =>
    refine ⟨_, ⟨ds.length.succ, ?_⟩, .full (Slab.sizeClass_mem hle).1 hroom hall⟩
    simp only [step, stepCall, kmalloc, if_neg hbig, h.active, hres, doCall]

/-- The page arrives for a picked descriptor. -/
theorem runs_allocPage_node {p size : Nat}
    (h : Coupled ((C.addPage p).addPick d.node p) (l ++ d :: r) bs w) (hsize : size ∈ friSize) :
    ∃ o w', Runs ⟨w, .ret p, .allocPage size (.node d.node) :: K⟩ ⟨w', .ret o, K⟩ ∧
      Coupled (C.addObj o) (l ++ (Desc.fresh d.node (pa2kva p) size).taken size :: r) bs w' ∧
      ((Desc.fresh d.node (pa2kva p) size).taken size).Marks o := by
  have hp := (h.pages.owned_apart p (by simp [Ctx.addPage, Ctx.addPick])).1
  obtain ⟨hcoupled, hmarks⟩ := h.reuse rfl hsize
  refine ⟨_, _, ⟨0, ?_⟩, hcoupled, hmarks⟩
  simp only [step, stepRet, allocPageRet, if_neg hp.kern.ne_zero, Slab.allocPage,
    if_neg (show Link.node d.node ≠ .tail by simp), allocRet, doRet, World.installTake]

/-- Where `alloc` goes when the page arrives for a new descriptor. -/
inductive TailStep (C : Ctx) (ds : List Desc) (bs : List Blk) (w : World) (size p : Nat)
    (K : List Frame) : Machine → Prop
  | ret {n o : Nat} {w' : World} :
      Coupled (C.addObj o) ((Desc.fresh n (pa2kva p) size).taken size :: ds) bs w' →
      ((Desc.fresh n (pa2kva p) size).taken size).Marks o →
      TailStep C ds bs w size p K ⟨w', .ret o, K⟩
  | call : TailStep C ds bs w size p K ⟨w, .call .pgalloc, .allocPlain size (pa2kva p) :: K⟩

theorem runs_allocPage_tail {p size : Nat} (h : Coupled (C.addPage p) ds bs w)
    (hsize : size ∈ friSize) (hpicks : ∀ np ∈ C.picks, np.2 ∈ C.pages)
    (hg : Regular ⟨w, .ret p, .allocPage size .tail :: K⟩) :
    ∃ m, Runs ⟨w, .ret p, .allocPage size .tail :: K⟩ m ∧ TailStep C ds bs w size p K m := by
  have hp := (h.pages.owned_apart p (by simp [Ctx.addPage])).1
  have hsmall : ¬ allocedPageSize > pageSize := by decide
  by_cases hroom : w.slab.offset + allocedPageSize ≤ pageSize
  · -- the next place on the plain page `q`
    obtain ⟨q, hq, hnow⟩ := h.descs.plain_page
    have hqlow := (h.pages.owned_apart q (by simp [Ctx.addPage, show q ∈ C.plain from hq])).1
    have hhigh := hqlow.kern.high
    have hval : u32 (w.slab.nowPlainPage + w.slab.offset) =
        w.slab.nowPlainPage + w.slab.offset := by
      refine Nat.mod_eq_of_lt ?_
      omega
    have hclear : ∀ d ∈ ds, d.node ≠ w.slab.nowPlainPage + w.slab.offset :=
      hg.plain p size K rfl rfl ds h.slab.rep hroom
    obtain ⟨hcoupled, hmarks⟩ :=
      (h.plainOffset (w.slab.offset + allocedPageSize)).link rfl hsize hclear hq (by
        unfold allocedPageSize at hroom
        omega) hpicks
    refine ⟨_, ⟨0, ?_⟩, .ret hcoupled hmarks⟩
    simp only [step, stepRet, allocPageRet, if_neg hp.kern.ne_zero, Slab.allocPage, if_true,
      Slab.plainEnter, if_neg hsmall, if_pos hroom, Slab.allocPlain, allocRet, doRet, hval,
      World.installTake]
  · refine ⟨_, ⟨0, ?_⟩, .call⟩
    simp only [step, stepRet, allocPageRet, if_neg hp.kern.ne_zero, Slab.allocPage, if_true,
      Slab.plainEnter, if_neg hsmall, if_neg hroom, Slab.allocPlain, allocRet, doCall]

theorem runs_allocPlain {p q size : Nat} (h : Coupled ((C.addPage p).addPage q) ds bs w)
    (hsize : size ∈ friSize) (hpicks : ∀ np ∈ C.picks, np.2 ∈ C.pages) :
    ∃ n o w', Runs ⟨w, .ret q, .allocPlain size (pa2kva p) :: K⟩ ⟨w', .ret o, K⟩ ∧
      Coupled ((C.addPlain q).addObj o) ((Desc.fresh n (pa2kva p) size).taken size :: ds) bs w' ∧
      ((Desc.fresh n (pa2kva p) size).taken size).Marks o := by
  have hq := (h.pages.owned_apart q (by simp [Ctx.addPage])).1
  have hplain : Coupled ((C.addPlain q).addPage p) ds bs
      { w with slab := { w.slab with nowPlainPage := pa2kva q, offset := 0 } } :=
    h.plainPage rfl fun np hnp => List.mem_cons_of_mem _ (hpicks np hnp)
  -- descriptors are stored on other plain pages
  have hclear : ∀ d ∈ ds, d.node ≠ pa2kva q := by
    intro d hd heq
    obtain ⟨q', hq', hlo, hhi⟩ := h.descs.stored d hd
    have hq'low := (h.pages.owned_apart q'
      (by simp [Ctx.addPage, show q' ∈ C.plain from hq'])).1
    have hsame := hq'low.kern.eq_of_mem hq.kern ⟨hlo, hhi⟩
      ⟨Nat.le_of_eq heq.symm, by rw [heq]; exact Nat.lt_add_of_pos_right (by decide)⟩
    obtain rfl := hq'low.physPage.kva_inj hq.physPage hsame
    have hnodup := h.pages.nodup
    simp only [Ctx.addPage, List.cons_append, List.nodup_cons] at hnodup
    exact hnodup.1 (by simp [show q' ∈ C.plain from hq'])
  obtain ⟨hcoupled, hmarks⟩ := hplain.link rfl hsize hclear (by simp [Ctx.addPlain])
    ⟨Nat.le_refl _, Nat.lt_add_of_pos_right (by decide)⟩ hpicks
  refine ⟨_, _, _, ⟨0, ?_⟩, hcoupled, hmarks⟩
  simp only [step, stepRet, allocPlainRet, Slab.plainLeave, Slab.newPlainPage, if_neg hq.ne_addrError,
    if_neg (hq.kern.ne_zero), Slab.allocPlain, allocRet, doRet, World.installTake]

end Coupled

end AimKernel
