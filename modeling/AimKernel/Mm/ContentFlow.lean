import AimKernel.Mm.NoLeak

/-!
# AimKernel.Mm.ContentFlow

What an owner leaves in its pages does not reach the next one.

User pages are not cleared when they are handed out, so this rests on what happens when
pages are given back. A `Site` is the memory management state together with the frames that
the direct clients of the page allocator own. Its events are calls, and writes of the owners
to their frames; in two runs of the same events the owners may write different things.

The books do not see what pages hold, so one account serves both runs (`Tied`), and they stay
in lockstep: the same replies, the same frames. What the account says of each of the two
memories is that a frame which was freed holds nothing but `JUNKBYTE` as long as it is free.

The one call that can break this is `alloc_pages` with `GFP_ZERO`: where the allocator fails,
the block is cleared all the same, at the address that the request happens to name.
-/

namespace AimKernel

/-! ### Calls and events -/

section PageOps

variable {P : Type} (B : PageOps P)

/-- `pgalloc`. -/
def PageOps.pgalloc : StateT P (Except Fault) Nat := pgallocBy B.allocPages

/-- `pgfree`. -/
def PageOps.pgfree (paddr : Nat) : StateT P (Except Fault) Unit := pgfreeBy B.freePages paddr

end PageOps

/-- A call on the page allocator or on the user memory interface. -/
inductive PageCall
  | allocPages (pages : Pages)
  | pgalloc
  | freePages (pages : Pages)
  | pgfree (paddr : Nat)
  | uvm (c : UvmCall)
  deriving Repr, DecidableEq

/-- The memory management state, and the frames that the direct clients of the page allocator
own. -/
structure Site where
  vm : Vm Phys
  held : List Nat

namespace Site

/-- The bytes of memory. -/
def mem (s : Site) : Mem := s.vm.pages.mem

/-- The frame was given back at some time. -/
def Freed (s : Site) (f : Nat) : Prop := f ∈ s.vm.pages.freed.map Prod.fst

/-- The frame is a client's, or it backs a page of an address space. -/
def Owns (s : Site) (f : Nat) : Prop :=
  f ∈ s.held ∨ ∃ a mm x, s.vm.desk.mms a = some mm ∧ x ∈ mm.vmas ∧
    f ∈ block x.pages.paddr x.pages.size

end Site

namespace PageCall

/-- What the call does: the return value, and the frames that the caller has got. -/
def run {P : Type} (B : PageOps P) : PageCall → VmM P (Int × List Nat)
  | .allocPages pages => do
      let (result, p) ← onPages (B.allocPages pages)
      return (result, if result < 0 then [] else block p.paddr p.size)
  | .pgalloc => do
      let paddr ← onPages B.pgalloc
      return (paddr, if paddr = addrError then [] else [paddr])
  | .freePages pages => do
      onPages (B.freePages pages)
      return (0, [])
  | .pgfree paddr => do
      onPages (B.pgfree paddr)
      return (0, [])
  | .uvm c => do
      let result ← c.run B
      return (result, [])

/-- The frames that the caller gives back. -/
def returned : PageCall → List Nat
  | .freePages pages => block pages.paddr pages.size
  | .pgfree paddr => [premapAddr paddr]
  | _ => []

/-- What the caller has to see to: it gives back what it owns, without `GFP_UNSAFE`. -/
def Valid (s : Site) : PageCall → Prop
  | .allocPages _ => True
  | .pgalloc => True
  | .freePages pages =>
    pages.flags &&& gfpUnsafe = 0 ∧ ∀ f ∈ block pages.paddr pages.size, f ∈ s.held
  | .pgfree paddr => premapAddr paddr ∈ s.held
  | .uvm c => c.Valid s.vm.desk

/-- A request with `GFP_ZERO` is granted, or the block that it names belongs to the clients. -/
def Harmless (s : Site) : PageCall → Prop
  | .allocPages pages => pages.flags &&& gfpZero = 0 ∨ s.vm.pages.answer pages.size ≠ none ∨
      ∀ f ∈ block pages.paddr pages.size, f ∈ s.held
  | _ => True

/-- The sizes that `pmemset` is given are multiples of a page. -/
def Whole : PageCall → Prop
  | .allocPages pages => pages.flags &&& gfpZero = 0 ∨ pages.size % pageSize = 0
  | .freePages pages => pages.size % pageSize = 0
  | _ => True

/-- The call hands pages to clients, and does not fill them with what others own. -/
def Grants : PageCall → Prop
  | .allocPages _ => True
  | .pgalloc => True
  | .uvm (.createUvm _ _ _ _ _) => True
  | _ => False

end PageCall

/-- What happens at a site. -/
inductive PageEvent
  | call (c : PageCall)
  /-- Owners write to their frames. -/
  | write
  deriving Repr, DecidableEq

namespace Site

/-- One event. The calls are subject to `P`. -/
inductive Step (P : Site → PageCall → Prop) : Site → PageEvent → Site → Prop
  | call {s : Site} {c : PageCall} {result : Int} {new : List Nat} {vm : Vm Phys} : c.Valid s →
      P s c → c.run physOps s.vm = .ok ((result, new), vm) →
      Step P s (.call c) ⟨vm, (new ++ s.held).diff c.returned⟩
  | write {s : Site} {m : Mem} : (∀ f, IsFrame f → ¬ s.Owns f → Untouched s.mem m f) →
      Step P s .write { s with vm.pages.mem := m }

/-- The states that a sequence of events leads to, the latest event first. -/
inductive Run (P : Site → PageCall → Prop) (s₀ : Site) : List PageEvent → Site → Prop
  | start : Run P s₀ [] s₀
  | step {s s' : Site} {e : PageEvent} {l : List PageEvent} : Run P s₀ l s → Step P s e s' →
      Run P s₀ (e :: l) s'

/-- Two sites at boot: what is handed out belongs to clients, and only the bytes of memory
differ. -/
structure Boot (x y : Site) : Prop where
  fresh : x.vm.Fresh
  held : x.held = x.vm.pages.frames
  same : ∃ m, y = { x with vm.pages.mem := m }

end Site

/-! ### One account for both runs -/

section Calls

variable {c : PageCall} {vm vm' : Vm Phys} {reply : Int × List Nat}

variable {s : Site} {paddr : Nat} {p p' : Phys} {pages : Pages}

/-- The call on memory simulates the call on the books. -/
theorem PageCall.sim (hv : c.Valid s) :
    Sim (Vm.Rel Represents) (c.run cleanOps) (c.run Books.ops) := by
  cases c with
  | allocPages pages => exact .bind (sim_allocPages pages).onPages fun _ => .pure _
  | pgalloc =>
    refine .bind (Sim.onPages ?_) fun _ => .pure _
    exact .bind (sim_allocPages _) fun _ => .ite (fun _ => .pure _) fun _ => .pure _
  | freePages pages => exact .bind (sim_freePages pages).onPages fun _ => .pure _
  | pgfree paddr => exact .bind (sim_freePages _).onPages fun _ => .pure _
  | uvm c => exact .bind (c.sim hv) fun _ => .pure _

/-- Where the call returns with the real `map_pages`, it returns the same with the one that
fails without a change. -/
theorem PageCall.run_clean {base baseObjs : List Nat} (h : Kempt base baseObjs s.vm)
    (hv : c.Valid s) (hrun : c.run physOps s.vm = .ok (reply, vm')) :
    c.run cleanOps s.vm = .ok (reply, vm') := by
  cases c with
  | allocPages pages => exact hrun
  | pgalloc => exact hrun
  | freePages pages => exact hrun
  | pgfree paddr => exact hrun
  | uvm c =>
    obtain ⟨result, vm1, hcall, hret⟩ := run_bind.mp hrun
    exact run_bind.mpr ⟨result, vm1, c.run_clean h hv hcall, hret⟩

theorem run_pmemset {size : Nat} {b : UInt8} (h : pmemset paddr b size p = .ok ((), p')) :
    size % pageSize = 0 ∧ p'.mem = fillBlock p.mem paddr b size := by
  unfold pmemset at h
  split at h
  · cases h
  · next hsize =>
    cases h
    exact ⟨not_not.mp hsize, rfl⟩

theorem run_allocatorAlloc {q : Pages} {result : Int}
    (h : allocatorAlloc pages p = .ok ((result, q), p')) :
    q = { pages with paddr := (p.answer pages.size).getD pages.paddr } ∧ p'.mem = p.mem := by
  obtain ⟨p0, p1, hget, hrest⟩ := run_bind.mp h
  cases hget
  cases hans : p.answer pages.size with
  | some f =>
    rw [hans] at hrest
    cases hrest
    exact ⟨rfl, rfl⟩
  | none =>
    rw [hans] at hrest
    cases hrest
    exact ⟨rfl, rfl⟩

/-- What `alloc_pages` writes: nothing, or zeros to the block that the request names then. -/
theorem run_allocPages_mem {result : Int × Pages} (h : allocPages pages p = .ok (result, p')) :
    pages.flags &&& gfpZero = 0 ∧ p'.mem = p.mem ∨ pages.flags &&& gfpZero ≠ 0 ∧
      pages.size % pageSize = 0 ∧
      p'.mem = fillBlock p.mem ((p.answer pages.size).getD pages.paddr) 0 pages.size := by
  obtain ⟨⟨ret, q⟩, p1, halloc, hrest⟩ := run_bind.mp h
  obtain ⟨rfl, hmem⟩ := run_allocatorAlloc halloc
  dsimp only at hrest
  by_cases hz : pages.flags &&& gfpZero = 0
  · rw [if_neg (not_not.mpr hz)] at hrest
    cases hrest
    exact .inl ⟨hz, hmem⟩
  · rw [if_pos hz] at hrest
    obtain ⟨_, p2, hset, hret⟩ := run_bind.mp hrest
    cases hret
    obtain ⟨hwhole, hfill⟩ := run_pmemset hset
    exact .inr ⟨hz, hwhole, hmem ▸ hfill⟩

/-- All that `pgalloc` does to memory is done by `alloc_pages`. -/
theorem run_pgalloc (h : pgalloc p = .ok (paddr, p')) :
    ∃ result, allocPages ⟨0, pageSize, 0⟩ p = .ok (result, p') := by
  obtain ⟨result, p1, halloc, hrest⟩ := run_bind.mp h
  dsimp only at hrest
  split at hrest
  all_goals
    obtain ⟨-, rfl⟩ := run_pure.mp hrest
    exact ⟨result, halloc⟩

/-- Where the call returns, the loops of `pmemset` have ended. -/
theorem PageCall.whole (hv : c.Valid s) (hrun : c.run physOps vm = .ok (reply, vm')) : c.Whole := by
  cases c with
  | allocPages pages =>
    obtain ⟨_, vm1, hcall, -⟩ := run_bind.mp hrun
    exact (run_allocPages_mem (run_onPages hcall).1).imp And.left fun h => h.2.1
  | freePages pages =>
    obtain ⟨_, vm1, hcall, -⟩ := run_bind.mp hrun
    have hfree := (run_onPages hcall).1
    obtain ⟨s1, s2, hget, hrest⟩ := run_bind.mp hfree
    rw [if_pos hv.1] at hrest
    obtain ⟨_, s3, hset, -⟩ := run_bind.mp hrest
    exact (run_pmemset hset).1
  | pgalloc => trivial
  | pgfree paddr => trivial
  | uvm c => trivial

end Calls

section Accounts

variable {base baseObjs : List Nat} {t : Vm Books}

theorem Good.lend {fs : List Nat} {frames : List Nat} {supply : List (Option Nat)}
    (h : Good base baseObjs t.desk.mms t) (hn : base.Nodup) (hfs : fs.Nodup)
    (hfree : ∀ f ∈ fs, f ∉ t.pages.frames)
    (hreal : Books.Real { t.pages with
      frames := frames
      plain := fs ++ t.pages.plain
      supply := supply }) :
    Good (fs ++ base) baseObjs t.desk.mms { t with
      pages := { t.pages with
        frames := frames
        plain := fs ++ t.pages.plain
        supply := supply } } ∧ (fs ++ base).Nodup := by
  have hnew : ∀ f ∈ fs, f ∉ t.pages.plain := fun f hf hmem => hfree f hf (h.real.mem_frames hmem)
  exact ⟨⟨hreal, h.log, h.inv.spaces, h.inv.user.lend hfs hnew, h.inv.object⟩,
    hfs.append hn fun f hf hmem => hnew f hf (h.inv.user.mem_iff.mpr (.inl hmem))⟩

theorem Good.allocPages {pages : Pages} (h : Good base baseObjs t.desk.mms t) (hn : base.Nodup)
    (hok : pages.flags &&& gfpZero = 0 ∨ t.pages.answer pages.size ≠ none ∨
      pages.size % pageSize = 0 ∧ ∀ f ∈ block pages.paddr pages.size, f ∈ base) :
    wp (onPages (Books.ops.allocPages pages)) (fun r t' => ∀ new,
      new = (if r.1 < 0 then [] else block r.2.paddr r.2.size) →
        Good (new ++ base) baseObjs t'.desk.mms t' ∧ (new ++ base).Nodup) t := by
  rw [onPages, wp_zoom]
  have hplain : ∀ f ∈ base, f ∈ t.pages.plain := fun f hf => h.inv.user.mem_iff.mpr (.inl hf)
  cases hans : t.pages.answer pages.size with
  | some f =>
    have hcall : Books.ops.allocPages pages t.pages = .ok ((0, { pages with paddr := f }),
        { t.pages with
          frames := block f pages.size ++ t.pages.frames
          plain := block f pages.size ++ t.pages.plain
          supply := t.pages.supply.tail }) := by
      show Books.allocPages pages t.pages = _
      unfold Books.allocPages
      rw [hans]
    refine h.real.wp (sim_allocPages pages) _ _ hcall fun hreal => ?_
    rintro new rfl
    exact h.lend hn (block_nodup f pages.size) (fun g hg => ((pageAnswer_free hans).2 g hg).2) hreal
  | none =>
    have hcall : Books.ops.allocPages pages t.pages = .ok ((-1, pages),
        { t.pages with supply := t.pages.supply.tail }) := by
      show Books.allocPages pages t.pages = _
      unfold Books.allocPages
      rw [hans]
      refine if_pos (hok.imp id fun hok => ?_)
      obtain ⟨hsize, hheld⟩ := hok.resolve_left (absurd hans)
      exact ⟨hsize, fun f hf => hplain f (hheld f hf)⟩
    refine h.real.wp (sim_allocPages pages) _ _ hcall fun hreal => ?_
    rintro new rfl
    exact ⟨⟨hreal, h.log, h.inv⟩, hn⟩

theorem Good.freePages {pages : Pages} (h : Good base baseObjs t.desk.mms t) (hn : base.Nodup)
    (hsafe : pages.flags &&& gfpUnsafe = 0) (hsize : pages.size % pageSize = 0)
    (hheld : ∀ f ∈ block pages.paddr pages.size, f ∈ base) :
    wp (onPages (Books.ops.freePages pages)) (fun _ t' =>
      Good (base.diff (block pages.paddr pages.size)) baseObjs t'.desk.mms t') t := by
  rw [onPages, wp_zoom]
  have hcall : Books.ops.freePages pages t.pages = .ok ((),
      { t.pages with
        frames := t.pages.frames.diff (block pages.paddr pages.size)
        plain := t.pages.plain.diff (block pages.paddr pages.size)
        freed := (block pages.paddr pages.size).map (fun f => (f, t.pages.indexes)) ++
          t.pages.freed }) := by
    show Books.freePages pages t.pages = _
    exact if_pos ⟨hsafe, hsize, fun f hf => h.inv.user.mem_iff.mpr (.inl (hheld f hf))⟩
  refine h.real.wp (sim_freePages pages) _ _ hcall fun hreal => ?_
  refine ⟨hreal, ?_, h.inv.spaces, h.inv.user.giveBack hn hheld, h.inv.object⟩
  intro x hx
  rcases List.mem_append.mp hx with hx | hx
  · -- what a client holds is mapped nowhere
    obtain ⟨f, hf, rfl⟩ := List.mem_map.mp hx
    exact h.inv.unmapped_of_role fun _ hrole => h.inv.user.apart hrole (hheld f hf)
  · exact h.log x hx

/-- **Every call** on the books returns and keeps the account. -/
theorem PageCall.keeps {c : PageCall} {s : Site} (hrel : Vm.Rel Represents s.vm t)
    (h : Good s.held baseObjs t.desk.mms t) (hn : s.held.Nodup) (hv : c.Valid s)
    (hharm : c.Harmless s) (hwhole : c.Whole) :
    wp (c.run Books.ops) (fun reply t' => ∀ held, held = (reply.2 ++ s.held).diff c.returned →
      Good held baseObjs t'.desk.mms t' ∧ held.Nodup) t := by
  cases c with
  | allocPages pages =>
    rw [run, wp_bind]
    refine wp_mono (h.allocPages hn ?_) ?_
    · rcases hharm with hz | hans | hheld
      · exact .inl hz
      · rw [Phys.answer, hrel.1.frames, hrel.1.supply] at hans
        exact .inr (.inl hans)
      · exact hwhole.imp id fun hsize => .inr ⟨hsize, hheld⟩
    · intro r t' hgood
      rw [wp_pure]
      rintro held rfl
      exact hgood _ rfl
  | pgalloc =>
    rw [run, wp_bind, wp_onPages, PageOps.pgalloc, pgallocBy, wp_bind]
    refine wp_books_allocPages h.real (fun _ hreal => ?_) fun f rest _ hf hfree hreal => ?_
    · dsimp only
      rw [if_pos (by decide), wp_pure, wp_pure]
      rintro held rfl
      exact ⟨⟨hreal, h.log, h.inv⟩, hn⟩
    · dsimp only
      rw [if_neg (not_not.mpr rfl), wp_pure, wp_pure]
      rw [hf.premapAddr_eq, if_neg (mod_cast hf.ne_addrError)]
      rintro held rfl
      exact h.lend hn (List.nodup_singleton f) (fun g hg => List.mem_singleton.mp hg ▸ hfree) hreal
  | freePages pages =>
    rw [run, wp_bind]
    refine wp_mono (h.freePages hn hv.1 hwhole hv.2) ?_
    intro _ t' hgood
    rw [wp_pure]
    rintro held rfl
    exact ⟨hgood, hn.diff⟩
  | pgfree paddr =>
    rw [run, wp_bind]
    have hblock : block (premapAddr paddr) pageSize = [premapAddr paddr] := block_page _
    have hsize : pageSize % pageSize = 0 := Nat.mod_self _
    refine wp_mono (Good.freePages h hn (Nat.zero_and _) hsize ?_) ?_
    · rw [hblock]
      exact fun f hf => List.mem_singleton.mp hf ▸ hv
    · intro _ t' hgood
      rw [hblock] at hgood
      rw [wp_pure]
      rintro held rfl
      exact ⟨hgood, hn.diff⟩
  | uvm c =>
    rw [run, wp_bind]
    refine wp_mono (c.keeps h (hrel.2 ▸ hv)) ?_
    rintro result t' ⟨hgood, -⟩
    rw [wp_pure]
    rintro held rfl
    exact ⟨hgood, hn⟩

end Accounts

namespace Site

/-- One account serves both sites. -/
def Tied (x y : Site) : Prop :=
  y.held = x.held ∧ x.held.Nodup ∧ ∃ t baseObjs, Vm.Rel Represents x.vm t ∧
    Vm.Rel Represents y.vm t ∧ Good x.held baseObjs t.desk.mms t

variable {s x y : Site} {baseObjs : List Nat} {t : Vm Books} {c : PageCall} {vm : Vm Phys}

/-- What is owned is a plain frame of the account. -/
theorem Owns.plain {f : Nat} (h : s.Owns f) (hrel : Vm.Rel Represents s.vm t)
    (hgood : Good s.held baseObjs t.desk.mms t) :
    f ∈ t.pages.plain := by
  rcases h with hheld | ⟨a, mm, x, hmm, hx, hf⟩
  · exact hgood.inv.user.mem_iff.mpr (.inl hheld)
  · rw [hrel.2] at hmm
    obtain ⟨M, -, hok⟩ := hgood.inv.spaces.space hmm
    rw [(hok.vma x hx).psize, block_page, List.mem_singleton] at hf
    rw [hf]
    exact hgood.inv.user.mem_of_role (hok.userRole_start hmm hx)

/-- What a call leads to on memory is what it leads to on the books. -/
theorem call_account {t' : Vm Books} {reply reply' : Int × List Nat}
    (hrel : Vm.Rel Represents s.vm t) (hgood : Good s.held baseObjs t.desk.mms t) (hv : c.Valid s)
    (hrun : c.run physOps s.vm = .ok (reply, vm)) (hbooks : c.run Books.ops t = .ok (reply', t')) :
    reply' = reply ∧ Vm.Rel Represents vm t' := by
  obtain ⟨vm', hclean, hrel'⟩ := PageCall.sim hv s.vm t reply' t' hrel hbooks
  rw [PageCall.run_clean ⟨t, hrel, hgood⟩ hv hrun] at hclean
  cases hclean
  exact ⟨rfl, hrel'⟩

/-- **One call** in both runs, and on the account. -/
theorem Tied.call {result result' : Int} {new new' : List Nat} {vm' : Vm Phys} (h : Tied x y)
    (hv : c.Valid x) (hharm : c.Harmless x) (hrun : c.run physOps x.vm = .ok ((result, new), vm))
    (hv' : c.Valid y) (hrun' : c.run physOps y.vm = .ok ((result', new'), vm')) :
    ∃ t t' baseObjs, Vm.Rel Represents x.vm t ∧ Vm.Rel Represents y.vm t ∧
      Good x.held baseObjs t.desk.mms t ∧ c.run Books.ops t = .ok ((result, new), t') ∧
      Vm.Rel Represents vm t' ∧ Vm.Rel Represents vm' t' ∧
      Good ((new ++ x.held).diff c.returned) baseObjs t'.desk.mms t' ∧
      Tied ⟨vm, (new ++ x.held).diff c.returned⟩ ⟨vm', (new' ++ y.held).diff c.returned⟩ := by
  obtain ⟨hheld, hn, t, baseObjs, hrelx, hrely, hgood⟩ := h
  obtain ⟨reply, t', hbooks, hafter⟩ :=
    wp_iff.mp (PageCall.keeps hrelx hgood hn hv hharm (PageCall.whole hv hrun))
  obtain ⟨rfl, hrelx'⟩ := call_account hrelx hgood hv hrun hbooks
  obtain ⟨hreply, hrely'⟩ := call_account hrely (hheld ▸ hgood) hv' hrun' hbooks
  obtain ⟨-, rfl⟩ := Prod.mk.inj hreply
  obtain ⟨hgood', hn'⟩ := hafter _ rfl
  exact ⟨t, t', baseObjs, hrelx, hrely, hgood, hbooks, hrelx', hrely', hgood', by rw [hheld], hn', t',
    baseObjs, hrelx', hrely', hgood'⟩

/-- **One event** in both runs. -/
theorem Tied.step {x' y' : Site} {e : PageEvent} (h : Tied x y) (hx : Step PageCall.Harmless x e x')
    (hy : Step PageCall.Harmless y e y') : Tied x' y' := by
  cases hx with
  | call hv hharm hrun =>
    cases hy with
    | call hv' _ hrun' =>
      obtain ⟨_, _, _, -, -, -, -, -, -, -, htied⟩ := h.call hv hharm hrun hv' hrun'
      exact htied
  | write hsame =>
    obtain ⟨hheld, hn, t, baseObjs, hrelx, hrely, hgood⟩ := h
    cases hy with
    | write hsame' =>
      refine ⟨hheld, hn, t, baseObjs, ⟨hrelx.1.scribble ?_, hrelx.2⟩, ⟨hrely.1.scribble ?_, hrely.2⟩,
        hgood⟩
      · exact fun f hf hout => hsame f hf fun howns => hout (howns.plain hrelx hgood)
      · exact fun f hf hout => hsame' f hf fun howns => hout (howns.plain hrely (hheld ▸ hgood))

theorem Boot.tied (h : Boot x y) : Tied x y := by
  obtain ⟨hfresh, hheld, m, rfl⟩ := h
  have hfresh' : Vm.Fresh { x.vm with pages.mem := m } :=
    ⟨hfresh.spaces, hfresh.frames, hfresh.isFrame, hfresh.freed, hfresh.objs⟩
  exact ⟨rfl, hheld ▸ hfresh.frames, x.vm.startBooks, x.vm.desk.objs, hfresh.rel, hfresh'.rel,
    hheld ▸ hfresh.good⟩

/-- **Whole runs** of the same events stay tied. -/
theorem Boot.run {x0 y0 : Site} {l : List PageEvent} (h0 : Boot x0 y0)
    (hx : Run PageCall.Harmless x0 l x) (hy : Run PageCall.Harmless y0 l y) : Tied x y := by
  induction hx generalizing y with
  | start =>
    cases hy
    exact h0.tied
  | step _ hstep ih =>
    cases hy with
    | step hrun' hstep' => exact (ih hrun').step hstep hstep'

end Site

/-! ### Contents of what is handed out -/

/-- The frames of owners: what was owned before and still is holds the same bytes; what is new
holds nothing but `JUNKBYTE` if it had been given back before. -/
structure Calm (x x' : Paired) : Prop where
  freed : ∀ f ∈ x.books.freed.map Prod.fst, f ∈ x'.books.freed.map Prod.fst
  plain : ∀ f ∈ x'.books.plain, f ∈ x.books.plain ∧ Untouched x.phys.mem x'.phys.mem f ∨
    (f ∈ x.books.freed.map Prod.fst → Scrubbed x'.phys.mem f)

instance : IsPreorder Paired Calm where
  refl x := ⟨fun _ hf => hf, fun f hf => .inl ⟨hf, .refl _ f⟩⟩
  trans x x' x'' h h' := by
    refine ⟨fun f hf => h'.freed f (h.freed f hf), fun f hf => ?_⟩
    rcases h'.plain f hf with ⟨hf', hsame'⟩ | hjunk'
    · rcases h.plain f hf' with ⟨hf₀, hsame⟩ | hjunk
      · exact .inl ⟨hf₀, hsame.trans hsame'⟩
      · exact .inr fun hfreed => (hjunk hfreed).keep hsame'
    · exact .inr fun hfreed => hjunk' (h.freed f hfreed)

variable {p : Phys} {t : Books} {m m' : Mem} {f : Nat}

theorem Drops.calm {x x' : Paired} (h : Drops x x') (hlogs : Logs x.books x'.books) : Calm x x' :=
  ⟨fun _ hf => hlogs.mem_freed hf, fun f hf => .inl (h f hf)⟩

theorem paired_calm : PlainAlong Calm pairedOps where
  allocPages paddr := by
    intro x result x' hrun
    obtain ⟨hphys, hbooks⟩ := pair_run (sim_allocPages _) hrun
    have hmem : x'.phys.mem = x.phys.mem :=
      wp_run (Q := fun _ p => p.mem = x.phys.mem) (wp_allocPages rfl fun _ _ _ => rfl) hphys
    have hplain : ∀ f ∈ x'.books.plain, f ∈ x.books.plain ∨ f ∉ x.books.frames := by
      refine wp_run (wp_books_allocPages (Q := fun _ t => ∀ f ∈ t.plain,
        f ∈ x.books.plain ∨ f ∉ x.books.frames) ⟨_, x.rel⟩ (fun _ _ f hf => .inl hf)
        fun g _ _ _ hfree _ f hf => ?_) hbooks
      rcases List.mem_cons.mp hf with rfl | hf
      · exact .inr hfree
      · exact .inl hf
    refine ⟨fun f hf => (books_logs.allocPages _ _ _ _ hbooks).mem_freed hf, fun f hf => ?_⟩
    rw [hmem]
    rcases hplain f hf with hold | hfree
    · exact .inl ⟨hold, .refl _ f⟩
    · exact .inr fun hfreed => (x.rel.scrubbed f hfreed).2 hfree
  freePages pages := by
    intro x _ x' hrun
    exact (run_freePages hrun).1.calm
      (books_logs.freePages _ _ _ _ (pair_run (sim_freePages pages) hrun).2)
  mapPages pgindex vaddr paddr size flags := by
    intro x retcode x' hrun
    obtain ⟨hplain, hkeeps⟩ := run_mapPages hrun
    have hdrops : Drops x x' := fun f hf => ⟨hplain ▸ hf, (hkeeps f (hplain ▸ hf)).2⟩
    exact hdrops.calm (books_logs.mapPages _ _ _ _ _ _ _ _
      (pair_run (sim_mapPages pgindex vaddr paddr size flags) hrun).2)
  unmapPages pgindex vaddr size := by
    intro x result x' hrun
    exact (run_unmapPages hrun).calm (books_logs.unmapPages _ _ _ _ _ _
      (pair_run (sim_unmapPages pgindex vaddr size) hrun).2)

theorem Represents.freed_frames (h : Represents p t) :
    p.freed.map Prod.fst = t.freed.map Prod.fst := by
  rw [← List.forall₂_eq_eq_eq, List.forall₂_map_left_iff, List.forall₂_map_right_iff]
  exact h.freed.imp fun _ _ h => h.1

/-- Clearing the same block makes no difference. -/
theorem SameBytes.fillBlock (h : SameBytes m f m' f) (paddr size : Nat) (b : UInt8)
    : SameBytes (fillBlock m paddr b size) f (fillBlock m' paddr b size) f := by
  intro o ho
  rw [fillBlock_apply, fillBlock_apply, h o ho]

theorem Scrubbed.sameBytes (h : Scrubbed m f) (h' : Scrubbed m' f) :
    SameBytes m f m' f := by
  intro o ho
  rw [h _ (Nat.le_add_right _ o) (by omega), h' _ (Nat.le_add_right _ o) (by omega)]

/-- `alloc_pages` with one account for both memories. -/
theorem SameBytes.allocPages {p' q q' : Phys} {pages : Pages} {result result' : Int × Pages}
    (h : SameBytes p.mem f p'.mem f) (hrep : Represents p t) (hrep' : Represents p' t)
    (hrun : allocPages pages p = .ok (result, q)) (hrun' : allocPages pages p' = .ok
    (result', q')) :
    SameBytes q.mem f q'.mem f := by
  rcases run_allocPages_mem hrun with ⟨hz, hmem⟩ | ⟨hz, -, hmem⟩
  · rcases run_allocPages_mem hrun' with ⟨-, hmem'⟩ | ⟨hz', -⟩
    · rw [hmem, hmem']
      exact h
    · exact absurd hz hz'
  · rcases run_allocPages_mem hrun' with ⟨hz', -⟩ | ⟨-, -, hmem'⟩
    · exact absurd hz' hz
    · rw [hmem, hmem', hrep.answer, hrep'.answer]
      exact h.fillBlock _ _ _

/-- `create_uvm` hands out what was given back as it is. -/
theorem run_createUvm_scrubbed {s s' : Vm Phys} {t t' : Vm Books} {sent : Sentinel}
    {a addr len flags : Nat} {retcode retcode' : Int} (hrel : Vm.Rel Represents s t)
    (haddr : addr < 2 ^ 32) (hrun : createUvm cleanOps sent a addr len flags s = .ok (retcode, s'))
    (hbooks : createUvm Books.ops sent a addr len flags t = .ok (retcode', t'))
    (hf : f ∈ t'.pages.plain) (hfreed : f ∈ t.pages.freed.map Prod.fst) (hfree : f ∉ t.pages.frames)
    : Scrubbed s'.pages.mem f := by
  obtain ⟨p, d⟩ := s
  obtain ⟨t, _⟩ := t
  obtain ⟨hrep, rfl⟩ := hrel
  -- the run on memory and on the books, side by side
  obtain ⟨x', hpaired, hbooks', -⟩ := paired_books.createUvm (fun _ _ => trivial) sent a haddr len
    flags ⟨⟨p, t, hrep⟩, d⟩ ⟨t, d⟩ _ _ ⟨rfl, rfl⟩ hbooks
  obtain ⟨s1, hphys, hs1, -⟩ := phys_paired.createUvm (fun _ _ => trivial) sent a haddr len flags
    ⟨p, d⟩ ⟨⟨p, t, hrep⟩, d⟩ _ _ ⟨rfl, rfl⟩ hpaired
  rw [hrun] at hphys
  cases hphys
  have hcalm := paired_calm.createUvm sent a addr len flags _ _ _ hpaired
  rw [hs1]
  rw [← hbooks'] at hf
  rcases hcalm.plain f hf with ⟨hplain, -⟩ | hjunk
  · exact absurd (hrep.plain_mem hplain) hfree
  · exact hjunk hfreed

namespace Site

/-- **What is handed out** to a client and had been given back before holds the same bytes in
both runs. -/
theorem Tied.grants {x y x' y' : Site} {c : PageCall} {f : Nat} (h : Tied x y) (hc : c.Grants)
    (hx : Step PageCall.Harmless x (.call c) x') (hy : Step PageCall.Harmless y (.call c) y')
    (hfreed : x.Freed f) (hfree : f ∉ x.vm.pages.frames) (howns : x'.Owns f) :
    SameBytes x'.mem f y'.mem f := by
  cases hx with
  | call hv hharm hrun =>
  cases hy with
  | call hv' hharm' hrun' =>
  obtain ⟨t, t', baseObjs, hrelx, hrely, hgood, hbooks, hrelx', hrely', hgood', -⟩ :=
    h.call hv hharm hrun hv' hrun'
  have hheld : y.held = x.held := h.1
  have hplain := howns.plain hrelx' hgood'
  rw [Freed, hrelx.1.freed_frames] at hfreed
  rw [hrelx.1.frames] at hfree
  -- before the call both memories hold junk there
  have hsame : SameBytes x.mem f y.mem f :=
    ((hrelx.1.scrubbed f hfreed).2 hfree).sameBytes ((hrely.1.scrubbed f hfreed).2 hfree)
  cases c with
  | allocPages pages =>
    obtain ⟨_, vm1, hcall, hret⟩ := run_bind.mp hrun
    obtain ⟨_, vm1', hcall', hret'⟩ := run_bind.mp hrun'
    cases hret
    cases hret'
    exact hsame.allocPages hrelx.1 hrely.1 (run_onPages hcall).1 (run_onPages hcall').1
  | pgalloc =>
    obtain ⟨_, vm1, hcall, hret⟩ := run_bind.mp hrun
    obtain ⟨_, vm1', hcall', hret'⟩ := run_bind.mp hrun'
    cases hret
    cases hret'
    obtain ⟨_, halloc⟩ := run_pgalloc (run_onPages hcall).1
    obtain ⟨_, halloc'⟩ := run_pgalloc (run_onPages hcall').1
    exact hsame.allocPages hrelx.1 hrely.1 halloc halloc'
  | uvm c =>
    cases c with
    | createUvm sent a addr len flags =>
      have haddr : addr < 2 ^ 32 := Nat.lt_of_le_of_lt (Nat.le_add_right _ _) hv.2
      obtain ⟨_, t1, hbooks1, hret⟩ := run_bind.mp hbooks
      cases hret
      have hclean := PageCall.run_clean ⟨t, hrelx, hgood⟩ hv hrun
      have hclean' := PageCall.run_clean ⟨t, hrely, hheld ▸ hgood⟩ hv' hrun'
      obtain ⟨_, vm1, hcall, hret⟩ := run_bind.mp hclean
      obtain ⟨_, vm1', hcall', hret'⟩ := run_bind.mp hclean'
      cases hret
      cases hret'
      exact (run_createUvm_scrubbed hrelx haddr hcall hbooks1 hplain hfreed hfree).sameBytes
        (run_createUvm_scrubbed hrely haddr hcall' hbooks1 hplain hfreed hfree)
    | mmNew => exact hc.elim
    | mmDestroy a => exact hc.elim
    | destroyUvm sent a addr len => exact hc.elim
    | setUvmPerm sent a addr len flags => exact hc.elim
    | mmClone dst src => exact hc.elim
  | freePages pages => exact hc.elim
  | pgfree paddr => exact hc.elim

/-- **Contents of pages do not flow** from one owner to the next. In two runs of the same calls,
whatever the owners write in between: a frame that was given back holds nothing but `JUNKBYTE`
until it is handed out again, and when it is, then to the same owner in both runs and with the
same bytes. -/
theorem contents_do_not_flow {x₀ y₀ x y : Site} {l : List PageEvent} (h₀ : Boot x₀ y₀)
    (hx : Run PageCall.Harmless x₀ l x) (hy : Run PageCall.Harmless y₀ l y) :
    (∀ f, x.Freed f → f ∉ x.vm.pages.frames → Scrubbed x.mem f) ∧
      ∀ c x' y', c.Grants → Step PageCall.Harmless x (.call c) x' →
        Step PageCall.Harmless y (.call c) y' → y'.held = x'.held ∧ y'.vm.desk = x'.vm.desk ∧
          ∀ f, x.Freed f → f ∉ x.vm.pages.frames → x'.Owns f → SameBytes x'.mem f y'.mem f := by
  have htied := h₀.run hx hy
  constructor
  · intro f hfreed hfree
    obtain ⟨-, -, t, -, hrel, -⟩ := htied
    rw [Freed, hrel.1.freed_frames] at hfreed
    rw [hrel.1.frames] at hfree
    exact (hrel.1.scrubbed f hfreed).2 hfree
  · intro c x' y' hc hstep hstep'
    obtain ⟨hheld, -, t, -, hrel, hrel', -⟩ := htied.step hstep hstep'
    refine ⟨hheld, hrel'.2.trans hrel.2.symm, ?_⟩
    intro f hfreed hfree howns
    exact htied.grants hc hstep hstep' hfreed hfree howns

/-- The site after a call that returns. -/
def callAfter (c : PageCall) (s : Site) : Site :=
  match c.run physOps s.vm with
  | .ok ((_, new), vm) => ⟨vm, (new ++ s.held).diff c.returned⟩
  | .error _ => s

theorem Step.after {P : Site → PageCall → Prop} {c : PageCall} {s : Site} (hv : c.Valid s)
    (hP : P s c) (hok : (c.run physOps s.vm).isOk = true) : Step P s (.call c) (callAfter c s) := by
  unfold callAfter
  cases hrun : c.run physOps s.vm with
  | error e =>
    rw [hrun] at hok
    cases hok
  | ok r => exact .call hv hP hrun

/-- The page `0x200000` is free and `0x201000` belongs to a client. The allocator answers the
first request with the free page and the second with `next`. -/
def clientSite (next : Option Nat) : Site where
  vm := ⟨⟨fun _ => 0, [0x201000], [some 0x200000, next], []⟩, ⟨[], [], fun _ => none, 0, none, 0⟩⟩
  held := [0x201000]

theorem clientSite_boot (next : Option Nat) : Boot (clientSite next) (clientSite next) := by
  refine ⟨⟨fun _ => rfl, List.nodup_singleton _, fun f hf => ?_, rfl, .nil⟩, rfl, fun _ => 0, rfl⟩
  rw [List.mem_singleton.mp hf]
  decide

/-- A client has taken the page. -/
def lent (next : Option Nat) : Site := callAfter (.allocPages ⟨0, pageSize, 0⟩) (clientSite next)

/-- The client has filled the page with `b`. -/
def filled (b : UInt8) (next : Option Nat) : Site :=
  { lent next with vm.pages.mem := (lent next).mem.fill (pa2kva 0x200000) b pageSize }

/-- The client has given the page back. -/
def given (b : UInt8) (next : Option Nat) : Site :=
  callAfter (.freePages ⟨0x200000, pageSize, 0⟩) (filled b next)

/-- The events that lead there, the latest first. -/
def life : List PageEvent :=
  [.call (.freePages ⟨0x200000, pageSize, 0⟩), .write, .call (.allocPages ⟨0, pageSize, 0⟩)]

theorem given_run {P : Site → PageCall → Prop} (b : UInt8) (next : Option Nat)
    (hP : ∀ s, P s (.allocPages ⟨0, pageSize, 0⟩) ∧ P s (.freePages ⟨0x200000, pageSize, 0⟩)) :
    Run P (clientSite next) life (given b next) := by
  have hheld : (lent next).held = [0x200000, 0x201000] := rfl
  have hlent : Run P (clientSite next) [.call (.allocPages ⟨0, pageSize, 0⟩)] (lent next) :=
    .step .start (.after trivial (hP _).1 rfl)
  refine .step (.step hlent (.write ?_)) (.after ⟨rfl, ?_⟩ (hP _).2 rfl)
  · intro f hf hout
    have hne : f ≠ 0x200000 := fun heq => hout (.inl (by rw [hheld, heq]; decide))
    exact (Untouched.refl _ f).fill hf (by decide) hne
  · intro f hf
    rw [block_page, List.mem_singleton] at hf
    rw [hf]
    exact hheld ▸ List.mem_cons_self

theorem given_freed (b : UInt8) (next : Option Nat) :
    (given b next).Freed 0x200000 ∧ 0x200000 ∉ (given b next).vm.pages.frames := by
  have hframes : (given b next).vm.pages.frames = [0x201000] := rfl
  rw [hframes]
  exact ⟨List.mem_cons_self, by decide⟩

/-- The page has been taken again. -/
def again (b : UInt8) : Site :=
  callAfter (.allocPages ⟨0, pageSize, 0⟩) (given b (some 0x200000))

/-- Whatever its first owner has written, the next one finds the same bytes. -/
theorem contents_do_not_flow_reused :
    ¬ SameBytes (filled 0xaa (some 0x200000)).mem 0x200000
        (filled 0xbb (some 0x200000)).mem 0x200000 ∧
      (again 0xaa).Owns 0x200000 ∧ SameBytes (again 0xaa).mem 0x200000 (again 0xbb).mem 0x200000 := by
  have hplain : ∀ s, PageCall.Harmless s (.allocPages ⟨0, pageSize, 0⟩) ∧
      PageCall.Harmless s (.freePages ⟨0x200000, pageSize, 0⟩) := fun s => ⟨.inl rfl, trivial⟩
  have hagain : ∀ b, Step PageCall.Harmless (given b (some 0x200000))
      (.call (.allocPages ⟨0, pageSize, 0⟩)) (again b) := fun b => .after trivial (.inl rfl) rfl
  have howns : (again 0xaa).Owns 0x200000 := .inl List.mem_cons_self
  obtain ⟨hfreed, hfree⟩ := given_freed 0xaa (some 0x200000)
  obtain ⟨-, hgrants⟩ := contents_do_not_flow (clientSite_boot (some 0x200000))
    (given_run 0xaa _ hplain) (given_run 0xbb _ hplain)
  refine ⟨fun h => ?_, howns, ?_⟩
  · exact absurd (h 0 (by decide)) (by decide)
  · exact (hgrants (.allocPages ⟨0, pageSize, 0⟩) _ _ trivial (hagain 0xaa) (hagain 0xbb)).2.2 _ hfreed
      hfree howns

/-- Two pages with `GFP_ZERO`, in a structure that still has the address of a freed page. -/
def staleRequest : PageCall := .allocPages ⟨0x200000, 2 * pageSize, gfpZero⟩

/-- **A request that fails clears a free page**, the one whose address is left in the
structure. -/
theorem freed_page_cleared :
    ∃ x₀ y₀ x y l, Boot x₀ y₀ ∧ Run (fun _ _ => True) x₀ l x ∧ Run (fun _ _ => True) y₀ l y ∧
      ¬ ∀ f, x.Freed f → f ∉ x.vm.pages.frames → Scrubbed x.mem f := by
  have hrun : ∀ b, Run (fun _ _ => True) (clientSite none) (.call staleRequest :: life)
      (callAfter staleRequest (given b none)) := fun b =>
    .step (given_run b none fun _ => ⟨trivial, trivial⟩) (.after trivial trivial rfl)
  refine ⟨_, _, _, _, _, clientSite_boot none, hrun 0xaa, hrun 0xbb, fun h => ?_⟩
  obtain ⟨hfreed, hfree⟩ := given_freed 0xaa none
  have hjunk := h 0x200000 hfreed hfree (pa2kva 0x200000) (Nat.le_refl _) (by decide)
  exact absurd hjunk (by decide +kernel)

end Site

end AimKernel
