import AimKernel.Mm.UvmRuns

/-!
# AimKernel.Mm.UvmCreate

Which ranges `create_uvm` accepts, and what is left of a call that fails.

The VMAs that an address space has already may be of any size here (`WellFormed`). A call
asks for two objects and a frame for each page, and for a frame for every leaf table that
is missing; `Vm.Supplied` says of the coming answers of the two allocators that they
provide all of that.

If they do not, then the call undoes what it has done, and memory shows the same page
index as before, leaf tables included. If they do, then a free range is accepted; there
is one exception. The search for the gap looks at the end of the predecessor, and for a
range below all VMAs that predecessor is the list sentinel, which is no VMA.
-/

namespace AimKernel

/-! ### When `map_pages` succeeds -/

section Succeeds

variable {s : Vm Phys} {a : Nat}

/-- Where `map_pages` succeeds it is the real one. -/
theorem wp_mapPages_of_clean {p : Phys} {pgindex vaddr paddr size flags : Nat}
    {Q : Int → Phys → Prop} (hQ : ∀ p', ¬ Q (-ENOMEM) p')
    (h : wp (cleanOps.mapPages pgindex vaddr paddr size flags) Q p) :
    wp (physOps.mapPages pgindex vaddr paddr size flags) Q p := by
  change wp (mapPagesOrFail pgindex vaddr paddr size flags) Q p at h
  rw [mapPagesOrFail, wp_bind, wp_get] at h
  split at h
  · rw [wp_bind, wp_set, wp_pure] at h
    exact absurd h (hQ _)
  · exact h

theorem wp_addVma_of_clean {place start size flags psize pflags : Nat} {init : Nat → PhysM Unit}
    {Q : Int → Vm Phys → Prop} (hQ : ∀ retcode s', Q retcode s' → 0 ≤ retcode)
    (h : wp (addVma cleanOps a place start size flags psize pflags init) Q s) :
    wp (addVma physOps a place start size flags psize pflags init) Q s := by
  rw [addVma, wp_bind] at h ⊢
  refine wp_mono h fun vma s1 h1 => ?_
  by_cases hvma : vma = 0
  · rw [if_pos hvma] at h1 ⊢
    exact h1
  rw [if_neg hvma, wp_bind] at h1 ⊢
  refine wp_mono h1 fun p s2 h2 => ?_
  by_cases hp : p = 0
  · rw [if_pos hp] at h2 ⊢
    exact h2
  rw [if_neg hp, wp_bind] at h2 ⊢
  refine wp_mono h2 fun result s3 h3 => ?_
  dsimp only at h3 ⊢
  by_cases hresult : result.1 < 0
  · rw [if_pos hresult] at h3 ⊢
    exact h3
  rw [if_neg hresult, wp_bind] at h3 ⊢
  refine wp_mono h3 fun mm s4 h4 => ?_
  rw [wp_bind, wp_onPages] at h4 ⊢
  refine wp_mapPages_of_clean ?_ h4
  -- a shortage would show in the return code
  intro p' hshort
  rw [if_pos (by decide), wp_bind] at hshort
  obtain ⟨_, _, -, hshort⟩ := wp_iff.mp hshort
  rw [wp_bind] at hshort
  obtain ⟨_, _, -, hshort⟩ := wp_iff.mp hshort
  rw [wp_bind] at hshort
  obtain ⟨_, _, -, hshort⟩ := wp_iff.mp hshort
  rw [wp_pure] at hshort
  exact absurd (hQ _ _ hshort) (by decide)

theorem wp_createLoop_of_clean {len flags fuel mapped vcur place : Nat}
    {Q : Int × Nat → Vm Phys → Prop} (hQ : ∀ result s', Q result s' → 0 ≤ result.1)
    (h : wp (createLoop cleanOps a len flags fuel mapped vcur place) Q s) :
    wp (createLoop physOps a len flags fuel mapped vcur place) Q s := by
  induction fuel generalizing s mapped vcur place with
  | zero =>
    exact h
  | succ fuel ih =>
    rw [createLoop.eq_def] at h ⊢
    by_cases hmore : mapped < len
    · rw [if_pos hmore] at h ⊢
      rw [wp_bind] at h ⊢
      refine wp_mono (wp_addVma_of_clean (Q := fun retcode s' => 0 ≤ retcode ∧
        wp (createLoop cleanOps a len flags fuel (u32 (mapped + pageSize))
          (u32 (vcur + pageSize)) (place + 1)) Q s') (fun _ _ hq => hq.1) (wp_mono h ?_)) ?_
      · intro retcode s' h'
        by_cases hneg : retcode < 0
        · rw [if_pos hneg, wp_pure] at h'
          have := hQ _ _ h'
          omega
        · rw [if_neg hneg] at h'
          exact ⟨by omega, h'⟩
      · rintro retcode s' ⟨hret, h'⟩
        rw [if_neg (by omega)]
        exact ih h'
    · rw [if_neg hmore] at h ⊢
      exact h

/-- Where `create_uvm` succeeds it makes no difference how `map_pages` fails. -/
theorem createUvm_of_clean {sent : Sentinel} {addr len flags : Nat} {s' : Vm Phys}
    (h : createUvm cleanOps sent a addr len flags s = .ok (0, s')) :
    createUvm physOps sent a addr len flags s = .ok (0, s') := by
  have hwp : wp (createUvm cleanOps sent a addr len flags) (fun r s1 => r = 0 ∧ s1 = s') s :=
    wp_of_run h ⟨rfl, rfl⟩
  have hgoal : wp (createUvm physOps sent a addr len flags) (fun r s1 => r = 0 ∧ s1 = s') s := by
    unfold createUvm at hwp ⊢
    split at hwp
    · next hargs => rw [if_pos hargs]; exact hwp
    next hargs =>
    rw [if_neg hargs]
    split at hwp
    · next hzero => rw [if_pos hzero]; exact hwp
    next hzero =>
    rw [if_neg hzero, wp_bind]
    rw [wp_bind] at hwp
    refine wp_mono hwp fun mm s1 h1 => ?_
    cases hfind : findVmaBefore sent mm.vmas addr len with
    | none =>
      rw [hfind] at h1
      exact h1
    | some place =>
      rw [hfind] at h1
      rw [wp_bind] at h1 ⊢
      refine wp_mono (wp_createLoop_of_clean (Q := fun result s2 => 0 ≤ result.1 ∧ s2 = s')
        (fun _ _ hq => hq.1) (wp_mono h1 ?_)) ?_
      · rintro ⟨retcode, mapped⟩ s2 h2
        dsimp only at h2 ⊢
        by_cases hneg : retcode < 0
        · rw [if_pos hneg, wp_bind] at h2
          obtain ⟨_, _, -, h2⟩ := wp_iff.mp h2
          rw [wp_pure] at h2
          omega
        · rw [if_neg hneg, wp_pure] at h2
          exact ⟨by omega, h2.2⟩
      · rintro ⟨retcode, mapped⟩ s2 ⟨hret, hs2⟩
        dsimp only at hret ⊢
        rw [if_neg (by omega), wp_pure]
        exact ⟨rfl, hs2⟩
  exact run_of_wp hgoal

end Succeeds

/-! ### In memory -/

/-- An address space that is in order: its VMAs do not overlap, and its page index in
memory maps nothing outside of them and has no leaf table in vain. -/
structure WellFormed (s : Vm Phys) (a : Nat) (mm : Mm) : Prop where
  live : s.desk.mms a = some mm
  ordered : VmaOrder mm.vmas
  /-- Its tables have frames of their own. -/
  books : ∃ t M, Represents s.pages t ∧ t.indexes mm.pgindex = some M
  mapped : ∀ v, pteAt s.pages.mem mm.pgindex v ≠ 0 →
    ∃ x ∈ mm.vmas, x.start ≤ v ∧ v < x.start + x.size
  leaf : ∀ i, leafAt s.pages.mem mm.pgindex i ≠ none →
    ∃ v, pdx v = i ∧ pteAt s.pages.mem mm.pgindex v ≠ 0

/-- Every allocation that mapping `n` pages from `v` on makes will succeed: two objects
and a frame for each page, and a frame for each leaf table that is missing. -/
def Vm.Supplied (s : Vm Phys) (pgindex v n : Nat) : Prop :=
  Stocked (· ≠ 0) s.desk.objs (2 * n) s.desk.ksupply ∧
    Stocked IsFrame s.pages.frames
      (framesNeeded (fun i => (leafAt s.pages.mem pgindex i).isNone) v n) s.pages.supply

instance (s : Vm Phys) (pgindex v n : Nat) : Decidable (s.Supplied pgindex v n) :=
  inferInstanceAs (Decidable (_ ∧ _))

/-- The VMA lists, the page index, the objects and the frames are the same. -/
structure Unchanged (mm : Mm) (s s' : Vm Phys) : Prop where
  mms : s'.desk.mms = s.desk.mms
  leaf : leafAt s'.pages.mem mm.pgindex = leafAt s.pages.mem mm.pgindex
  pte : pteAt s'.pages.mem mm.pgindex = pteAt s.pages.mem mm.pgindex
  objs : s'.desk.objs.Perm s.desk.objs
  frames : s'.pages.frames.Perm s.pages.frames

section Memory

variable {s : Vm Phys} {a : Nat} {mm : Mm} {sent : Sentinel} {addr len flags : Nat}

/-- The books of a well-formed address space. -/
theorem WellFormed.booked (h : WellFormed s a mm) :
    ∃ t M, Vm.Rel Represents s t ∧ t.pages.indexes mm.pgindex = some M ∧ M.Tight ∧
      Shows s.pages.mem mm.pgindex M := by
  obtain ⟨t, M, hrep, hM⟩ := h.books
  have hshow := hrep.index hM
  refine ⟨⟨t, s.desk⟩, M, ⟨hrep, rfl⟩, hM, ?_, hshow⟩
  intro i
  rw [← hshow.leaf, ← hshow.pte]
  constructor
  · exact h.leaf i
  · rintro ⟨v, rfl, hv⟩
    exact Option.ne_none_iff_exists'.mpr (leafAt_of_pteAt hv)

/-- **`create_uvm`** once the gap is found, in memory. -/
theorem WellFormed.create {l r : List Vma} (h : WellFormed s a mm) (ha : a ≠ 0)
    (haddr : addr % pageSize = 0) (hlen : len % pageSize = 0) (hpos : 0 < len)
    (hend : addr + len < 2 ^ 32) (hvmas : mm.vmas = l ++ r) (hgap : Gap l r addr len)
    (hfind : findVmaBefore sent mm.vmas addr len = some l.length) :
    ∃ retcode s', createUvm cleanOps sent a addr len flags s = .ok (retcode, s') ∧
      (retcode = 0 ∧ s.Supplied mm.pgindex addr (len / pageSize) ∧
          (∃ xs, PageVmas xs addr flags ∧ xs.length = len / pageSize ∧
            s'.desk.mms = setVmas s.desk.mms a mm (l ++ (xs ++ r))) ∨
        retcode = -ENOMEM ∧ ¬ s.Supplied mm.pgindex addr (len / pageSize) ∧
          Unchanged mm s s') := by
  obtain ⟨t, M, hrel, hM, htight, hshow⟩ := h.booked
  have hmm : t.desk.mms a = some mm := hrel.2 ▸ h.live
  have hfree : ∀ v, addr ≤ v → v < addr + len → M.pte v = 0 := by
    intro v hlo hhi
    by_contra hne
    rw [← hshow.pte] at hne
    obtain ⟨x, hx, hxlo, hxhi⟩ := h.mapped v hne
    rw [hvmas] at hx
    rcases List.mem_append.mp hx with hx | hx
    · have := hgap.below x hx
      omega
    · have := hgap.above x hx
      omega
  have hsupplied : Supplied M addr (len / pageSize) t ↔
      s.Supplied mm.pgindex addr (len / pageSize) := by
    unfold Supplied Vm.Supplied PageMap.missing
    rw [hrel.2, hrel.1.frames, hrel.1.supply, hshow.leaf]
  have hlt : addr < 2 ^ 32 := Nat.lt_of_le_of_lt (Nat.le_add_right _ _) hend
  have hwp := (books_sim.createUvm (fun _ _ => trivial) sent a hlt len flags).wp hrel
    (wp_createUvm_exact ⟨_, hrel.1⟩ hmm hvmas hM htight hfree ha haddr hlen hpos hend hfind)
  obtain ⟨retcode, s', hrun, t', hrel', hout⟩ := wp_iff.mp hwp
  refine ⟨retcode, s', hrun, ?_⟩
  rcases hout with ⟨⟨hret, hsup, xs, N, hgained, hxs, hcount⟩ | ⟨hret, hshort, hback⟩, -⟩
  · refine .inl ⟨hret, hsupplied.mp hsup, xs, hxs, hcount, ?_⟩
    rw [hrel'.2, hgained.mms, hrel.2]
  · have hshow' := hrel'.1.index (hback.indexes ▸ hM)
    refine .inr ⟨hret, fun hs => hshort (hsupplied.mpr hs), ⟨?_, ?_, ?_, ?_, ?_⟩⟩
    · rw [hrel'.2, hback.mms, hrel.2]
    · rw [hshow'.leaf, hshow.leaf]
    · rw [hshow'.pte, hshow.pte]
    · rw [hrel'.2, hrel.2]
      exact hback.objs
    · rw [hrel'.1.frames, hrel.1.frames]
      exact hback.frames ⟨_, hrel.1⟩

/-- **All or nothing.** `create_uvm` on a well-formed address space returns, whatever the
allocators answer. If one of the allocations of its loop fails, then it returns `-ENOMEM`,
and whenever it returns an error the VMA list, the page index with its leaf tables, the
live objects and the allocated frames are the same as before. -/
theorem createUvm_all_or_nothing (sent : Sentinel) (flags : Nat) (h : WellFormed s a mm)
    (ha : a ≠ 0) (haddr : addr % pageSize = 0) (hlen : len % pageSize = 0) (hend : addr + len < 2 ^ 32) :
    ∃ retcode s', createUvm cleanOps sent a addr len flags s = .ok (retcode, s') ∧
      (findVmaBefore sent mm.vmas addr len ≠ none →
        ¬ s.Supplied mm.pgindex addr (len / pageSize) → retcode = -ENOMEM) ∧
      (retcode ≠ 0 → Unchanged mm s s') := by
  by_cases hzero : len = 0
  · refine ⟨0, s, ?_, ?_, fun hc => absurd rfl hc⟩
    · rw [createUvm, if_neg (by simp [hlen, ha, haddr]), if_pos hzero]
      rfl
    · intro _ hshort
      refine absurd ?_ hshort
      rw [hzero]
      exact ⟨stocked_zero _ _, stocked_zero _ _⟩
  have hpos : 0 < len := Nat.pos_of_ne_zero hzero
  cases hfind : findVmaBefore sent mm.vmas addr len with
  | none =>
    exact ⟨-EFAULT, s, createUvm_refused cleanOps h.live ha haddr hlen hpos hfind,
      fun hc => absurd rfl hc, fun _ => ⟨rfl, rfl, rfl, .refl _, .refl _⟩⟩
  | some place =>
    obtain ⟨l, r, hvmas, rfl, hgap⟩ := findVmaBefore_spec h.ordered hend hfind
    obtain ⟨retcode, s', hrun, hout⟩ := h.create ha haddr hlen hpos hend hvmas hgap hfind
    refine ⟨retcode, s', hrun, fun _ hshort => ?_, fun hfail => ?_⟩
    · rcases hout with ⟨-, hsup, -⟩ | ⟨hret, -⟩
      · exact absurd hsup hshort
      · exact hret
    · rcases hout with ⟨hret, -⟩ | ⟨-, -, hsame⟩
      · exact absurd hret hfail
      · exact hsame

/-- Every address space of a run is well-formed. -/
theorem Kempt.wellFormed {base baseObjs : List Nat} (h : Kempt base baseObjs s)
    (hmm : s.desk.mms a = some mm) : WellFormed s a mm := by
  obtain ⟨t, hrel, hgood⟩ := h
  obtain ⟨M, hM, hok⟩ := hgood.inv.spaces.space (hrel.2 ▸ hmm)
  have hstep := hgood.inStep hrel hmm
  refine ⟨hmm, hok.ordered, ⟨t.pages, M, hrel.1, hM⟩, ?_, ?_⟩
  · intro v hv
    obtain ⟨x, hx, rfl⟩ := (hstep.mapped v).mp hv
    have := hok.ordered.size x hx
    exact ⟨x, hx, Nat.le_refl _, by omega⟩
  · intro i hi
    obtain ⟨x, hx, rfl⟩ := (hstep.leaf i).mp hi
    exact ⟨x.start, rfl, (hstep.mapped _).mpr ⟨x, hx, rfl⟩⟩

/-- The address space of `roomySpace`. -/
def roomyMm (flags : Nat) : Mm where
  pgindex := 0x80200000
  vmas := [⟨0x80300040, 0x400000, 0x1000, flags, ⟨⟨0x201000, 0x1000, 0⟩, 0x80300080, 1⟩⟩,
    ⟨0x803000c0, 0x401000, 0x1000, flags, ⟨⟨0x203000, 0x1000, 0⟩, 0x80300100, 1⟩⟩]

theorem start_of_mem_roomyMm {flags : Nat} {x : Vma} (hx : x ∈ (roomyMm flags).vmas) :
    x.start = 0x400000 ∨ x.start = 0x401000 := by
  simp only [roomyMm, List.mem_cons, List.not_mem_nil, or_false] at hx
  rcases hx with rfl | rfl
  · exact .inl rfl
  · exact .inr rfl

theorem roomySpace_wellFormed : WellFormed (roomySpace 0) 0x80300000 (roomyMm 0) :=
  (roomySpace_run.kempt roomyVm_fresh).wellFormed (by decide +kernel)

/-- Three more pages, when there are objects for two. -/
theorem createUvm_all_or_nothing_no_object :
    ∃ s', createUvm cleanOps ⟨0, 0⟩ 0x80300000 0x402000 0x3000 0 (roomySpace 0) =
        .ok (-ENOMEM, s') ∧ Unchanged (roomyMm 0) (roomySpace 0) s' := by
  obtain ⟨retcode, s', hrun, hshort, hsame⟩ := createUvm_all_or_nothing ⟨0, 0⟩ 0
    roomySpace_wellFormed (by decide) (by decide : 0x402000 % pageSize = 0)
    (by decide : 0x3000 % pageSize = 0) (by decide)
  have hret : retcode = -ENOMEM := hshort (by decide +kernel) (by decide +kernel)
  refine ⟨s', hret ▸ hrun, hsame ?_⟩
  rw [hret]
  decide

/-- What `create_uvm` should do: a range that overlaps no VMA gets its pages, in place,
and any other is refused without a change. -/
structure AcceptsFree (sent : Sentinel) (a : Nat) (mm : Mm) (addr len flags : Nat)
    (s : Vm Phys) : Prop where
  free : ¬ Overlaps mm.vmas addr len → ∃ s' l r xs,
    createUvm physOps sent a addr len flags s = .ok (0, s') ∧ mm.vmas = l ++ r ∧
      Gap l r addr len ∧ PageVmas xs addr flags ∧ xs.length = len / pageSize ∧
      s'.desk.mms = setVmas s.desk.mms a mm (l ++ (xs ++ r))
  taken : Overlaps mm.vmas addr len →
    createUvm physOps sent a addr len flags s = .ok (-EFAULT, s)

/-- **Which ranges are accepted.** When all its allocations succeed, `create_uvm` accepts
exactly the free ranges, except for one that lies below all VMAs of a list that is not
empty, if what is read through the list sentinel ends behind its start. -/
theorem createUvm_accepts_free_iff (sent : Sentinel) (flags : Nat) (h : WellFormed s a mm)
    (ha : a ≠ 0) (haddr : addr % pageSize = 0) (hlen : len % pageSize = 0) (hpos : 0 < len)
    (hend : addr + len < 2 ^ 32) (hall : s.Supplied mm.pgindex addr (len / pageSize)) :
    AcceptsFree sent a mm addr len flags s ↔
      mm.vmas = [] ∨ (∃ x ∈ mm.vmas, x.start < addr + len) ∨
        u32 (sent.start + sent.size) ≤ addr := by
  constructor
  · intro haccepts
    by_contra hnot
    obtain ⟨hne, hnot⟩ := not_or.mp hnot
    obtain ⟨hbelow, hsent⟩ := not_or.mp hnot
    have hfree : ¬ Overlaps mm.vmas addr len := fun ⟨x, hx, hlo, _⟩ => hbelow ⟨x, hx, hlo⟩
    obtain ⟨l, r, hvmas, hgap, hfind⟩ := findVmaBefore_gap sent h.ordered hend hfree
    have hlnil : l = [] := by
      by_contra hl
      obtain ⟨y, hy⟩ := List.exists_mem_of_ne_nil l hl
      have := hgap.below y hy
      exact hbelow ⟨y, hvmas ▸ List.mem_append_left r hy, by omega⟩
    rw [if_pos ⟨hne, hlnil, Nat.lt_of_not_le hsent⟩] at hfind
    obtain ⟨s', _, _, _, hrun, -⟩ := haccepts.free hfree
    rw [createUvm_refused physOps h.live ha haddr hlen hpos hfind] at hrun
    obtain ⟨hcode, -⟩ := Prod.mk.inj (Except.ok.inj hrun)
    exact absurd hcode (by decide)
  · intro hcond
    refine ⟨fun hfree => ?_, fun hover => ?_⟩
    · obtain ⟨l, r, hvmas, hgap, hfind⟩ := findVmaBefore_gap sent h.ordered hend hfree
      rw [if_neg] at hfind
      · obtain ⟨retcode, s', hrun, hout⟩ := h.create ha haddr hlen hpos hend hvmas hgap hfind
        rcases hout with ⟨rfl, -, xs, hxs, hcount, hmms⟩ | ⟨-, hshort, -⟩
        · exact ⟨s', l, r, xs, createUvm_of_clean hrun, hvmas, hgap, hxs, hcount, hmms⟩
        · exact absurd hall hshort
      · rintro ⟨hne, rfl, hsent⟩
        rcases hcond with hnil | ⟨x, hx, hlo⟩ | hle
        · exact hne hnil
        · rw [hvmas] at hx
          have := hgap.above x hx
          omega
        · omega
    · exact createUvm_refused physOps h.live ha haddr hlen hpos
        (findVmaBefore_overlap h.ordered hend hover)

/-- Two pages behind the others. -/
theorem createUvm_accepts_free_iff_behind :
    AcceptsFree ⟨0x80300000, 0x1000⟩ 0x80300000 (roomyMm 0) 0x402000 0x2000 0 (roomySpace 0) :=
  (createUvm_accepts_free_iff ⟨0x80300000, 0x1000⟩ 0 roomySpace_wellFormed (by decide)
    (by decide : 0x402000 % pageSize = 0) (by decide : 0x2000 % pageSize = 0) (by decide) (by decide)
    (by decide +kernel)).mpr (.inr (.inl ⟨_, List.mem_cons_self, by decide⟩))

/-- The page below the first one is free and all allocations would succeed, but what is
read through the sentinel ends above it. -/
theorem createUvm_refuses_free :
    WellFormed (roomySpace 0) 0x80300000 (roomyMm 0) ∧
      (roomySpace 0).Supplied (roomyMm 0).pgindex 0x3ff000 1 ∧
      ¬ Overlaps (roomyMm 0).vmas 0x3ff000 0x1000 ∧
      createUvm physOps ⟨0x80300000, 0x1000⟩ 0x80300000 0x3ff000 0x1000 0 (roomySpace 0) =
        .ok (-EFAULT, roomySpace 0) := by
  refine ⟨roomySpace_wellFormed, by decide +kernel, ?_, ?_⟩
  · rintro ⟨x, hx, hlo, -⟩
    have hstart := start_of_mem_roomyMm hx
    omega
  · exact createUvm_refused physOps roomySpace_wellFormed.live (by decide) (by decide) (by decide)
      (by decide) (by decide)

end Memory

end AimKernel
