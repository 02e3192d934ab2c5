import AimKernel.Mm.Paired
import AimKernel.Mm.UvmExact

/-!
# AimKernel.Mm.UvmContents

What the calls do to the contents of pages.

Runs on `pairedOps` are taken apart step by step (`run_bind`). A round that adds a VMA keeps
the plain frames there are and changes only the new one; taking VMAs apart leaves the frames
that stay as they are. For `mm_clone` this says, together with the exact account of the
books, that the copy holds the bytes of the source.
-/

namespace AimKernel

/-! ### Rounds -/

section Rounds

variable {s s' : Vm Paired} {a : Nat}

/-- **A round that adds a VMA** keeps the plain frames. If it succeeds, then the frame of the
VMA holds what `init` makes of it. -/
theorem run_addVma {place v flags : Nat} {init : Nat → StateT Paired (Except Fault) Unit}
    {retcode : Int}
    (hinit : ∀ f x x', IsFrame f → init f x = .ok ((), x') → ∀ g ∈ x.books.plain, g ≠ f →
      g ∈ x'.books.plain ∧ Untouched x.phys.mem x'.phys.mem g)
    (h : addVma pairedOps a place v pageSize flags pageSize 0 init s = .ok (retcode, s')) :
    Keeps s.pages s'.pages ∧ (0 ≤ retcode → ∃ mm y x, s.desk.mms a = some mm ∧
      s'.desk.mms a = some { mm with vmas := mm.vmas.insertIdx place y } ∧
      Keeps s.pages x ∧ init y.pages.paddr x = .ok ((), s'.pages)) := by
  obtain ⟨vma, s1, hvma, h1⟩ := run_bind.mp h
  obtain ⟨hpages1, hmms1⟩ := run_kmalloc hvma
  split at h1
  · obtain ⟨rfl, rfl⟩ := run_pure.mp h1
    exact ⟨hpages1 ▸ .refl _, fun hc => absurd hc (by decide)⟩
  obtain ⟨p, s2, hp, h2⟩ := run_bind.mp h1
  obtain ⟨hpages2, hmms2⟩ := run_kmalloc hp
  rw [hpages1] at hpages2
  rw [hmms1] at hmms2
  split at h2
  · obtain ⟨_, s3, hkfree, h3⟩ := run_bind.mp h2
    obtain ⟨rfl, rfl⟩ := run_pure.mp h3
    rw [run_onDesk hkfree, hpages2]
    exact ⟨.refl _, fun hc => absurd hc (by decide)⟩
  obtain ⟨⟨result, pages⟩, s3, halloc, h3⟩ := run_bind.mp h2
  obtain ⟨halloc, hdesk3⟩ := run_onPages halloc
  obtain ⟨hkeeps3, hgranted⟩ := run_allocPages halloc
  rw [hpages2] at hkeeps3 hgranted
  dsimp only at h3 hgranted
  split at h3
  · obtain ⟨_, s4, hkfree, h4⟩ := run_bind.mp h3
    obtain ⟨_, s5, hkfree', h5⟩ := run_bind.mp h4
    obtain ⟨rfl, rfl⟩ := run_pure.mp h5
    rw [run_onDesk hkfree', run_onDesk hkfree]
    exact ⟨hkeeps3, fun hc => absurd hc (by decide)⟩
  next hresult =>
  obtain ⟨hsize, -, hframe, hnew⟩ := hgranted (by omega)
  obtain ⟨mm, s4, hget, h4⟩ := run_bind.mp h3
  obtain ⟨rfl, hmm⟩ := run_getMm hget
  rw [hdesk3, hmms2] at hmm
  obtain ⟨code, s5, hmap, h5⟩ := run_bind.mp h4
  obtain ⟨hmap, hdesk5⟩ := run_onPages hmap
  have hkeeps5 : Keeps s.pages s5.pages := hkeeps3.trans (run_mapPages hmap).2
  -- the frames of the state before are not the new one
  have hother : ∀ g ∈ s.pages.books.plain, g ≠ pages.paddr := fun g hg heq => hnew (heq ▸ hg)
  split at h5
  · next hneg =>
    obtain ⟨_, s6, hfree, h6⟩ := run_bind.mp h5
    obtain ⟨_, s7, hkfree, h7⟩ := run_bind.mp h6
    obtain ⟨_, s8, hkfree', h8⟩ := run_bind.mp h7
    obtain ⟨rfl, rfl⟩ := run_pure.mp h8
    rw [run_onDesk hkfree', run_onDesk hkfree]
    refine ⟨fun g hg => ?_, fun hc => absurd hneg (by omega)⟩
    obtain ⟨hg5, hsame5⟩ := hkeeps5 g hg
    obtain ⟨hg6, hsame6⟩ := (run_freePages (run_onPages hfree).1).2 g hg5 (by
      rw [hsize, block_page, List.mem_singleton]
      exact hother g hg)
    exact ⟨hg6, hsame5.trans hsame6⟩
  · obtain ⟨_, s6, hinits, h6⟩ := run_bind.mp h5
    obtain ⟨_, s7, hset, h7⟩ := run_bind.mp h6
    obtain ⟨rfl, rfl⟩ := run_pure.mp h7
    obtain ⟨hinits, hdesk6⟩ := run_onPages hinits
    have hset := run_setMm hset
    have hpages7 : s7.pages = s6.pages := by
      rw [hset]
      rfl
    rw [hpages7]
    refine ⟨fun g hg => ?_, fun _ => ⟨mm, ⟨vma, v, pageSize, flags, ⟨pages, p, 1⟩⟩, s5.pages, hmm, ?_,
      hkeeps5, hinits⟩⟩
    · obtain ⟨hg5, hsame5⟩ := hkeeps5 g hg
      obtain ⟨hg6, hsame6⟩ := hinit _ _ _ hframe hinits g hg5 (hother g hg)
      exact ⟨hg6, hsame5.trans hsame6⟩
    · rw [hset]
      exact Function.update_self ..

theorem run_unrefAndFreeUpages {p : Upages}
    (h : unrefAndFreeUpages pairedOps p s = .ok ((), s')) : Drops s.pages s'.pages := by
  unfold unrefAndFreeUpages at h
  split at h
  · obtain ⟨_, s1, hfree, hkfree⟩ := run_bind.mp h
    rw [run_onDesk hkfree]
    exact (run_freePages (run_onPages hfree).1).1
  · obtain ⟨-, rfl⟩ := run_pure.mp h
    exact .refl _

/-- **Taking VMAs apart** leaves the frames that stay as they are. -/
theorem run_unmapAndFreeLoop {k size fuel i : Nat}
    (h : unmapAndFreeLoop pairedOps a k size fuel i s = .ok ((), s')) :
    Drops s.pages s'.pages := by
  induction fuel generalizing s i with
  | zero =>
    rw [unmapAndFreeLoop.eq_def] at h
    split at h
    · cases h
    · obtain ⟨-, rfl⟩ := run_pure.mp h
      exact .refl _
  | succ fuel ih =>
    rw [unmapAndFreeLoop.eq_def] at h
    split at h
    · dsimp only at h
      obtain ⟨mm, s1, hget, h1⟩ := run_bind.mp h
      rw [(run_getMm hget).1] at h1
      cases hvma : mm.vmas[k]? with
      | none =>
        rw [hvma] at h1
        cases h1
      | some vma =>
        rw [hvma] at h1
        obtain ⟨_, s2, hset, h2⟩ := run_bind.mp h1
        obtain ⟨result, s3, hunmap, h3⟩ := run_bind.mp h2
        split at h3
        · cases h3
        · obtain ⟨_, s4, hunref, h4⟩ := run_bind.mp h3
          obtain ⟨_, s5, hkfree, h5⟩ := run_bind.mp h4
          have hdrops := (run_unmapPages (run_onPages hunmap).1).trans
            (run_unrefAndFreeUpages hunref)
          rw [run_onDesk hset, ← run_onDesk hkfree] at hdrops
          exact hdrops.trans (ih h5)
    · obtain ⟨-, rfl⟩ := run_pure.mp h
      exact .refl _

end Rounds

/-! ### Copies -/

/-- The frame `f` holds in `m'` what `g` holds in `m`. -/
def SameBytes (m : Mem) (g : Nat) (m' : Mem) (f : Nat) : Prop :=
  ∀ o < pageSize, m' (pa2kva f + o) = m (pa2kva g + o)

namespace SameBytes

variable {m m₁ m' m'' : Mem} {f g : Nat}

theorem kept (h : SameBytes m g m' f) (hf : Untouched m' m'' f) : SameBytes m g m'' f :=
  fun o ho => (hf _ (Nat.le_add_right _ o) (by omega)).trans (h o ho)

theorem before (h : SameBytes m₁ g m' f) (hg : Untouched m m₁ g) : SameBytes m g m' f :=
  fun o ho => (h o ho).trans (hg _ (Nat.le_add_right _ o) (by omega))

theorem copy (m : Mem) (f g : Nat) :
    SameBytes m g (m.copy (pa2kva f) (pa2kva g) pageSize) f := by
  intro o ho
  unfold Mem.copy
  rw [if_pos ⟨Nat.le_add_right _ o, by omega⟩, Nat.add_sub_cancel_left]

end SameBytes

/-- `x` is the copy in `m'` of a VMA `y` in `m`. -/
structure VmaCopy (m m' : Mem) (y x : Vma) : Prop where
  start : x.start = y.start
  size : x.size = y.size
  flags : x.flags = y.flags
  bytes : SameBytes m y.pages.paddr m' x.pages.paddr

section Clone

variable {base baseObjs : List Nat} {s : Vm Paired} {a : Nat} {mm : Mm} {l r : List Vma}
  {M : PageMap}

/-- **One round of `mm_clone`**: a VMA with the bytes of `g`, or nothing. -/
theorem wp_addVma_copies {place v flags g : Nat} {Q : Int → Vm Paired → Prop}
    (hmm : s.desk.mms a = some mm) (hvmas : mm.vmas = l ++ r) (hplace : place = l.length)
    (hM : s.pages.books.indexes mm.pgindex = some M) (hv : IsPage v) (hend : v + pageSize < 2 ^ 32)
    (hunmapped : M.pte v = 0) (hg : g ∈ s.pages.books.plain)
    (hfail : ∀ s', Undone M v s.books s'.books → Keeps s.pages s'.pages → Q (-ENOMEM) s')
    (hadd : ∀ s' x M', x.start = v → x.flags = flags → Added a mm l r M M' x s.books s'.books →
      Keeps s.pages s'.pages → SameBytes s.mem g s'.mem x.pages.paddr → Q 0 s') :
    wp (addVma pairedOps a place v pageSize flags pageSize 0
      fun f => pairedOps.memmove (pa2kva f) (pa2kva g) pageSize) Q s := by
  have hbooks := (paired_books.addVma a place v pageSize flags pageSize 0 trivial
    fun f => paired_books.memmove (pa2kva f) (pa2kva g) pageSize).wp_books (s := s)
    (wp_addVma (Q := fun retcode t => retcode = -ENOMEM ∧ Undone M v s.books t ∨
      retcode = 0 ∧ ∃ x M', x.start = v ∧ x.flags = flags ∧ Added a mm l r M M' x s.books t)
      ⟨_, s.pages.rel⟩ hmm hvmas hplace hM hv hend hunmapped
      (fun f t hf hmem => wp_books_memmove hf hmem rfl) (fun t hu => .inl ⟨rfl, hu⟩)
      (fun t x M' hx hflags hadded => .inr ⟨rfl, x, M', hx, hflags, hadded⟩))
  refine wp_with_run hbooks fun retcode s' hrun hpost => ?_
  obtain ⟨hkeeps, hdone⟩ := run_addVma (fun f x x' hf hmove g' hg' hne => by
    obtain ⟨hbooks', hmem⟩ := run_memmove hmove
    rw [hbooks', hmem]
    exact ⟨hg', (Untouched.refl _ g').copy (hf.apart (x.rel.plainFrame g' hg') hne.symm)⟩) hrun
  rcases hpost with ⟨rfl, hundone⟩ | ⟨rfl, x, M', hx, hflags, hadded⟩
  · exact hfail s' hundone hkeeps
  · obtain ⟨mm', y, x0, hmm', hmms', hkeeps0, hmove⟩ := hdone (Int.le_refl 0)
    -- the VMA of the run is that of the books
    have hyx : y = x := by
      obtain rfl := Option.some.inj (hmm.symm.trans hmm')
      have hspace : s'.desk.mms a = some { mm with vmas := l ++ x :: r } := by
        rw [show s'.desk.mms = _ from hadded.mms]
        exact setVmas_apply ..
      have hlist := congrArg Mm.vmas (Option.some.inj (hmms'.symm.trans hspace))
      rw [hvmas, hplace, insertIdx_length] at hlist
      exact (List.cons.inj (List.append_cancel_left hlist)).1
    refine hadd s' x M' hx hflags hadded hkeeps ?_
    rw [Vm.mem, Vm.mem, (run_memmove hmove).2, hyx]
    exact (SameBytes.copy _ _ _).before (hkeeps0 g hg).2

/-- VMAs that ascend in pages fit into the address space. -/
theorem length_mul_lt {vmas : List Vma} (hvma : ∀ x ∈ vmas, x.OK)
    (hsorted : vmas.Pairwise fun x y => x.start + pageSize ≤ y.start) {lo : Nat}
    (hlo : ∀ x ∈ vmas, lo ≤ x.start) (hlt : lo < 2 ^ 32) :
    lo + vmas.length * pageSize < 2 ^ 32 := by
  induction vmas generalizing lo with
  | nil => simpa using hlt
  | cons x rest ih =>
    obtain ⟨hx, hrest⟩ := List.pairwise_cons.mp hsorted
    have hle := hlo x List.mem_cons_self
    have hbound := (hvma x List.mem_cons_self).bound
    have := ih (fun y hy => hvma y (List.mem_cons_of_mem x hy)) hrest hx hbound
    rw [List.length_cons, Nat.add_mul, Nat.one_mul]
    omega

/-- **The loop of `mm_clone`** copies one VMA after the other, and stops at the first
allocation that fails. -/
theorem wp_cloneLoop {rest : List Vma} {cloned place : Nat}
    (h : Good base baseObjs s.books.desk.mms s.books) (hmm : s.desk.mms a = some mm)
    (hvmas : mm.vmas = l) (hplace : place = l.length)
    (hM : s.pages.books.indexes mm.pgindex = some M) (hvma : ∀ y ∈ rest, y.OK)
    (hsorted : rest.Pairwise fun x y => x.start + pageSize ≤ y.start)
    (hl : ∀ y ∈ l, ∀ x ∈ rest, y.start + pageSize ≤ x.start)
    (hframes : ∀ y ∈ rest, y.pages.paddr ∈ s.pages.books.plain)
    (hlt : cloned + rest.length * pageSize < 2 ^ 32) :
    wp (cloneLoop pairedOps a cloned place rest) (fun result s' =>
      ∃ xs N, Gained a mm l [] M N xs s.books s'.books ∧ Tended s.books s'.books ∧
        Keeps s.pages s'.pages ∧
        List.Forall₂ (VmaCopy s.mem s'.mem) (rest.take xs.length) xs ∧
        result.2 = cloned + xs.length * pageSize ∧ xs.length ≤ rest.length ∧
        (result.1 = 0 ∧ xs.length = rest.length ∨ result.1 = -ENOMEM)) s := by
  have hnil : mm.vmas = l ++ [] := by simp [hvmas]
  induction rest generalizing s mm l cloned place M with
  | nil =>
    rw [cloneLoop, wp_pure]
    exact ⟨[], M, .refl h.real hmm hnil hM (h.inv.spaces.ok hmm hM).tight, ⟨id, rfl⟩, .refl _, .nil,
      by simp, Nat.le_refl _, .inl ⟨rfl, rfl⟩⟩
  | cons y rest ih =>
    have hok := h.inv.spaces.ok hmm hM
    have hy := hvma y List.mem_cons_self
    obtain ⟨hyrest, hrest⟩ := List.pairwise_cons.mp hsorted
    have hyl : ∀ z ∈ l, z.start + pageSize ≤ y.start := fun z hz => hl z hz y List.mem_cons_self
    have hfresh : M.pte y.start = 0 := by
      by_contra hne
      obtain ⟨z, hz, heq⟩ := hok.backed _ hne
      have := hyl z (hvmas ▸ hz)
      unfold pageSize at this
      omega
    rw [List.length_cons, Nat.add_mul, Nat.one_mul] at hlt
    rw [cloneLoop, wp_bind, hy.size, hy.psize, hy.pflags]
    refine wp_addVma_copies hmm hnil hplace hM hy.page hy.bound hfresh
      (hframes y List.mem_cons_self) ?_ ?_
    · intro s' hundone hkeeps
      rw [if_pos (by decide), wp_pure]
      exact ⟨[], M, (Gained.refl h.real hmm hnil hM hok.tight).undone hundone, hundone.tended, hkeeps,
        .nil, by simp, by simp, .inr rfl⟩
    · intro s1 x M' hx hflags hadded hkeeps hbytes
      have hstep : u32 (cloned + pageSize) = cloned + pageSize := Nat.mod_eq_of_lt (by omega)
      have hspace : s1.desk.mms a = some { mm with vmas := l ++ [x] } := by
        rw [show s1.desk.mms = _ from hadded.mms]
        exact setVmas_apply ..
      have hone := hadded.extra hM hok.tight (hx ▸ hfresh)
      have htended := hadded.tended hmm hnil hM (hx ▸ hyl) (by simp)
      refine wp_mono (ih (htended.good h) hspace rfl (by simp [hplace]) hone.index
        (fun z hz => hvma z (List.mem_cons_of_mem y hz)) hrest
        (List.forall_mem_append.mpr ⟨fun z hz w hw => hl z hz w (List.mem_cons_of_mem y hw), ?_⟩)
        (fun z hz => (hkeeps _ (hframes z (List.mem_cons_of_mem y hz))).1) (by omega)
        (by simp)) ?_
      · rw [List.forall_mem_singleton, hx]
        exact hyrest
      rintro result s' ⟨xs, N, hgained, htended', hkeeps', hcopies, hcount, hle, hret⟩
      refine ⟨x :: xs, N, .cons hadded hM hok.tight (hx ▸ hfresh) hgained, htended.trans htended',
        hkeeps.trans hkeeps', .cons ⟨hx, ?_, hflags, ?_⟩ ?_, ?_, Nat.succ_le_succ hle, ?_⟩
      · rw [hadded.shape.size, hy.size]
      · have hmem : x.pages.paddr ∈ s1.pages.books.plain := by
          rw [show s1.pages.books.plain = _ from hadded.plain]
          exact List.mem_cons_self
        exact hbytes.kept (hkeeps' _ hmem).2
      · -- the frames of the source are as they were before this round
        have hsource : ∀ z ∈ rest.take xs.length, Untouched s.mem s1.mem z.pages.paddr :=
          fun z hz => (hkeeps _ (hframes z (List.mem_cons_of_mem y (List.mem_of_mem_take hz)))).2
        refine ((List.forall₂_and_left _ _).mpr ⟨hsource, hcopies⟩).imp ?_
        rintro z w ⟨huntouched, hcopy⟩
        exact ⟨hcopy.start, hcopy.size, hcopy.flags, hcopy.bytes.before huntouched⟩
      · rw [hcount, List.length_cons, Nat.add_mul]
        omega
      · rw [List.length_cons, List.length_cons, Nat.add_right_cancel_iff]
        exact hret

/-- **`mm_clone`** into an address space without VMAs: copies of all VMAs, or nothing. -/
theorem Good.wp_mmClone {src : Nat} {smm : Mm} (h : Good base baseObjs s.books.desk.mms s.books)
    (hmm : s.desk.mms a = some mm) (hempty : mm.vmas = []) (hsmm : s.desk.mms src = some smm)
    (hM : s.pages.books.indexes mm.pgindex = some M) :
    wp (mmClone pairedOps a src) (fun retcode s' => Tended s.books s'.books ∧
      (retcode = 0 ∧ (∃ xs N, Gained a mm [] [] M N xs s.books s'.books ∧ Keeps s.pages s'.pages ∧
          List.Forall₂ (VmaCopy s.mem s'.mem) smm.vmas xs) ∨
        retcode = -ENOMEM ∧ Restored s.books s'.books ∧ Keeps s.pages s'.pages)) s := by
  obtain ⟨L, hL, hok⟩ := h.inv.spaces.space hsmm
  have hintact := h.intact hsmm hL (show smm.vmas = [] ++ (smm.vmas ++ []) by simp)
  have hlt := length_mul_lt hok.vma hok.sorted (fun _ _ => Nat.zero_le _) (by decide)
  rw [mmClone, wp_bind]
  apply wp_getMm hsmm
  rw [wp_bind]
  refine wp_mono (wp_cloneLoop h hmm hempty rfl hM hok.vma hok.sorted (by simp)
    (fun y hy => hintact.frames.subset (List.mem_map.mpr ⟨y, hy, rfl⟩)) hlt) ?_
  rintro ⟨retcode, cloned⟩ s1 ⟨xs, N, hgained, htended, hkeeps, hcopies, hcount, hle, hret⟩
  dsimp only at hcount hret ⊢
  rcases hret with ⟨rfl, hall⟩ | rfl
  · rw [if_neg (by decide), wp_pure]
    rw [hall, List.take_length] at hcopies
    exact ⟨htended, .inl ⟨rfl, xs, N, hgained, hkeeps, hcopies⟩⟩
  · rw [if_pos (by decide), wp_bind]
    have hxs := ((htended.good h).intact hgained.space hgained.extra.index rfl).apart
    have hsize : xs.length * pageSize ≤ smm.vmas.length * pageSize := Nat.mul_le_mul_right _ hle
    have hback := (paired_books.unmapAndFreeVma a 0 cloned).wp_books
      (hgained.wp_rollback hmm hempty hxs (by rw [hcount, Nat.zero_add]) (by omega)
        (Q := fun _ t => Restored s.books t ∧ Tended s1.books t) fun _ => And.intro)
    refine wp_with_run hback fun _ s' hrun ⟨hrestored, hagain⟩ => ?_
    rw [wp_pure]
    refine ⟨htended.trans hagain, .inr ⟨rfl, hrestored, fun f hf => ?_⟩⟩
    obtain ⟨-, hsame⟩ := hkeeps f hf
    have hf' : f ∈ s'.pages.books.plain := hrestored.plain.mem_iff.mpr hf
    exact ⟨hf', hsame.trans (run_unmapAndFreeLoop hrun f hf').2⟩

/-- **`mm_clone`** on the books: nothing has happened to the address spaces, or the copies are
there. -/
theorem wp_mmClone_cases {t : Vm Books} {src : Nat} (h : Good base baseObjs t.desk.mms t)
    (hmm : t.desk.mms a = some mm) (hempty : mm.vmas = []) (hsrc : t.desk.mms src ≠ none) :
    wp (mmClone Books.ops a src) (fun _ t' => Tended t t' ∧
      (t'.desk.mms = t.desk.mms ∧ t'.pages.indexes = t.pages.indexes ∨
        ∃ M N xs, Gained a mm [] [] M N xs t t')) t := by
  obtain ⟨smm, hsmm⟩ := Option.ne_none_iff_exists'.mp hsrc
  obtain ⟨M, hM, -⟩ := h.inv.spaces.space hmm
  obtain ⟨p, hrep⟩ := h.real
  have hsim := books_paired.mmClone (fun _ _ => trivial) a src
  have hexact := Good.wp_mmClone (s := ⟨⟨p, t.pages, hrep⟩, t.desk⟩) h hmm hempty hsmm hM
  refine wp_mono (hsim.wp (s := t) ⟨rfl, rfl⟩ hexact) ?_
  rintro retcode ⟨books, desk⟩ ⟨x', ⟨hbooks, hdesk⟩, htended, hout⟩
  dsimp only at hbooks hdesk
  rw [hbooks, hdesk]
  rcases hout with ⟨-, xs, N, hgained, -⟩ | ⟨-, hback, -⟩
  · exact ⟨htended, .inr ⟨M, N, xs, hgained⟩⟩
  · exact ⟨htended, .inl ⟨hback.mms, hback.indexes⟩⟩

end Clone

end AimKernel
