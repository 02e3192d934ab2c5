import AimKernel.Mm.UvmCreate

/-!
# AimKernel.Mm.UvmDestroy

What `destroy_uvm` takes away.

The search returns the first VMA of the range if every page of the range has a VMA. It
walks from one VMA to the next and compares only `start`, so it can also walk on to the
list sentinel. If the list ends one page before the range does, and the word that is read
as the `start` of the sentinel is the address of that last page, then the sentinel is
taken for a VMA (`Sentinel.Completes`), and the call goes on to unlink and free it.
Anywhere else the sentinel cannot do harm: after it comes the first VMA of the list, which
lies too low.
-/

namespace AimKernel

/-! ### The search -/

/-- Every page of the range has a VMA. -/
def Backed (vmas : List Vma) (addr len : Nat) : Prop :=
  ∀ v, v % pageSize = 0 → addr ≤ v → v < addr + len → ∃ x ∈ vmas, x.start = v

/-- The list ends one page before the range does, and what is read through the sentinel
passes for a VMA of that page. -/
def Sentinel.Completes (sent : Sentinel) (vmas : List Vma) (addr len : Nat) : Prop :=
  ∃ l xs, vmas = l ++ xs ∧ xs ≠ [] ∧ Covers xs addr ∧ (xs.length + 1) * pageSize = len ∧
    sent.start = addr + xs.length * pageSize

section Search

variable {M : PageMap} {vmas : List Vma} {sent : Sentinel} {addr len : Nat}

/-- Pages that all have a VMA have them one behind the other. -/
theorem exists_stretch {ys : List Vma} {v n : Nat}
    (hsorted : ys.Pairwise fun x y => x.start + pageSize ≤ y.start) (hlo : ∀ y ∈ ys, v ≤ y.start)
    (hall : ∀ j < n, ∃ y ∈ ys, y.start = v + j * pageSize) :
    ∃ xs r, ys = xs ++ r ∧ xs.length = n ∧ Covers xs v := by
  have hpos : 0 < pageSize := by decide
  induction n generalizing ys v with
  | zero => exact ⟨[], ys, rfl, rfl, by simp [Covers]⟩
  | succ n ih =>
    obtain ⟨y, hy, hstart⟩ := hall 0 (by omega)
    rw [Nat.zero_mul, Nat.add_zero] at hstart
    cases ys with
    | nil => cases hy
    | cons z zs =>
      obtain ⟨hz, hzs⟩ := List.pairwise_cons.mp hsorted
      have hzstart : z.start = v := by
        have := hlo z List.mem_cons_self
        rcases List.mem_cons.mp hy with rfl | hy
        · exact hstart
        · have := hz y hy
          omega
      have hall' : ∀ j < n, ∃ y ∈ zs, y.start = v + pageSize + j * pageSize := by
        intro j hj
        obtain ⟨w, hw, hwstart⟩ := hall (j + 1) (by omega)
        rw [Nat.add_mul, Nat.one_mul, Nat.add_comm (j * pageSize), ← Nat.add_assoc] at hwstart
        refine ⟨w, (List.mem_cons.mp hw).resolve_left ?_, hwstart⟩
        rintro rfl
        omega
      obtain ⟨xs, r, rfl, hlength, hcovers⟩ :=
        ih hzs (fun w hw => hzstart ▸ hz w hw) hall'
      exact ⟨z :: xs, r, rfl, by rw [List.length_cons, hlength],
        Covers.cons_iff.mpr ⟨hzstart, hcovers⟩⟩

theorem backed_iff (hok : Mm.OK M vmas) (haddr : addr % pageSize = 0)
    (hlen : len % pageSize = 0) (hpos : 0 < len) :
    Backed vmas addr len ↔ ∃ l xs r, vmas = l ++ (xs ++ r) ∧ xs.length * pageSize = len ∧
      Covers xs addr := by
  have hpage : 0 < pageSize := by decide
  have hmod := Nat.div_add_mod len pageSize
  rw [hlen, Nat.add_zero, Nat.mul_comm] at hmod
  constructor
  · intro hbacked
    obtain ⟨x, hx, hstart⟩ := hbacked addr haddr (Nat.le_refl _) (by omega)
    obtain ⟨l, ys, rfl⟩ := List.append_of_mem hx
    obtain ⟨-, hsorted, hlys⟩ := List.pairwise_append.mp hok.sorted
    have hlo : ∀ y ∈ x :: ys, addr ≤ y.start := by
      refine List.forall_mem_cons.mpr ⟨Nat.le_of_eq hstart.symm, fun y hy => ?_⟩
      have := List.rel_of_pairwise_cons hsorted hy
      omega
    have hall : ∀ j < len / pageSize, ∃ y ∈ x :: ys, y.start = addr + j * pageSize := by
      intro j hj
      have hlt : j * pageSize < len / pageSize * pageSize :=
        Nat.mul_lt_mul_of_pos_right hj hpage
      obtain ⟨y, hy, hystart⟩ := hbacked (addr + j * pageSize)
        (by rw [Nat.add_mul_mod_self_right]; exact haddr) (by omega) (by omega)
      refine ⟨y, (List.mem_append.mp hy).resolve_left fun hyl => ?_, hystart⟩
      have := hlys y hyl x List.mem_cons_self
      omega
    obtain ⟨xs, r, hsplit, hlength, hcovers⟩ := exists_stretch hsorted hlo hall
    exact ⟨l, xs, r, by rw [hsplit], by rw [hlength, hmod], hcovers⟩
  · rintro ⟨l, xs, r, rfl, hlength, hcovers⟩ v hv hlo hhi
    have hdiv := Nat.div_add_mod (v - addr) pageSize
    have hrest : (v - addr) % pageSize = 0 := (Nat.sub_mod_eq_zero_of_mod_eq (hv.trans haddr.symm))
    rw [hrest, Nat.add_zero, Nat.mul_comm] at hdiv
    have hj : (v - addr) / pageSize < xs.length := by
      refine Nat.lt_of_mul_lt_mul_right (a := pageSize) ?_
      omega
    refine ⟨xs[(v - addr) / pageSize], ?_, ?_⟩
    · have := List.getElem_mem hj
      simp [this]
    · rw [hcovers _ _ (List.getElem?_eq_getElem hj)]
      omega

/-- **`__find_continuous_vma`** succeeds if every page has a VMA, or seems to. -/
theorem findContinuousVma_found (sent : Sentinel) (hok : Mm.OK M vmas)
    (haddr : addr % pageSize = 0) (hlen : len % pageSize = 0) (hpos : 0 < len)
    (hend : addr + len < 2 ^ 32) :
    ∃ found, findContinuousVma sent vmas addr len = .ok found ∧ ∀ k, found = some k ↔
      (∃ l xs r, vmas = l ++ (xs ++ r) ∧ k = l.length ∧ xs.length * pageSize = len ∧
        Covers xs addr) ∨
      ∃ l xs, vmas = l ++ xs ∧ k = l.length ∧ xs ≠ [] ∧ Covers xs addr ∧
        (xs.length + 1) * pageSize = len ∧ sent.start = addr + xs.length * pageSize := by
  obtain ⟨found, hfound, hiff⟩ := findContinuousVma_iff sent hok haddr hlen hend
  have hpage : 0 < pageSize := by decide
  have hmod := Nat.div_add_mod len pageSize
  rw [hlen, Nat.add_zero, Nat.mul_comm] at hmod
  -- the number of pages behind the first
  have hcount : ∀ m, (m + 1) * pageSize = len ↔ m = len / pageSize - 1 := by
    intro m
    constructor
    · intro hm
      have : (m + 1) = len / pageSize := by
        rw [← hm, Nat.mul_div_cancel _ hpage]
      omega
    · rintro rfl
      have hne : len / pageSize ≠ 0 := fun h0 => by rw [h0] at hmod; omega
      rw [Nat.sub_add_cancel (Nat.pos_of_ne_zero hne), hmod]
  refine ⟨found, hfound, fun k => (hiff k).trans ?_⟩
  constructor
  · rintro ⟨l, x, ys, hvmas, hk, hx, ⟨xs, r, rfl, hlength, hcovers⟩ | ⟨hlength, hcovers, hsent⟩⟩
    · exact .inl ⟨l, x :: xs, r, hvmas, hk, (hcount _).mpr hlength,
        Covers.cons_iff.mpr ⟨hx, hcovers⟩⟩
    · refine .inr ⟨l, x :: ys, hvmas, hk, List.cons_ne_nil _ _, Covers.cons_iff.mpr ⟨hx, hcovers⟩,
        (hcount _).mpr hlength, ?_⟩
      rw [hsent, List.length_cons, Nat.add_mul]
      omega
  · rintro (⟨l, xs, r, hvmas, hk, hlength, hcovers⟩ | ⟨l, xs, hvmas, hk, hne, hcovers, hlength, hsent⟩)
    · cases xs with
      | nil =>
        rw [List.length_nil, Nat.zero_mul] at hlength
        omega
      | cons x xs =>
        obtain ⟨hx, hrest⟩ := Covers.cons_iff.mp hcovers
        exact ⟨l, x, xs ++ r, hvmas, hk, hx, .inl ⟨xs, r, rfl, (hcount _).mp hlength, hrest⟩⟩
    · cases xs with
      | nil => exact absurd rfl hne
      | cons x xs =>
        obtain ⟨hx, hrest⟩ := Covers.cons_iff.mp hcovers
        refine ⟨l, x, xs, hvmas, hk, hx, .inr ⟨(hcount _).mp hlength, hrest, ?_⟩⟩
        rw [hsent, List.length_cons, Nat.add_mul]
        omega

/-- Where the sentinel is taken for a VMA, the last page has none. -/
theorem Sentinel.Completes.not_backed (hok : Mm.OK M vmas) (haddr : addr % pageSize = 0)
    (h : sent.Completes vmas addr len) : ¬ Backed vmas addr len := by
  obtain ⟨l, xs, rfl, hne, hcovers, hlength, -⟩ := h
  have hpage : 0 < pageSize := by decide
  rw [Nat.add_mul, Nat.one_mul] at hlength
  intro hbacked
  obtain ⟨y, hy, hstart⟩ := hbacked (addr + xs.length * pageSize)
    (by rw [Nat.add_mul_mod_self_right]; exact haddr) (by omega) (by omega)
  rcases List.mem_append.mp hy with hy | hy
  · obtain ⟨x, hx⟩ := List.exists_mem_of_ne_nil xs hne
    have hlx := (List.pairwise_append.mp hok.sorted).2.2 y hy x hx
    obtain ⟨j, hj, hxstart⟩ := hcovers.mem_iff hx
    have := Nat.mul_lt_mul_of_pos_right hj hpage
    omega
  · obtain ⟨j, hj, hystart⟩ := hcovers.mem_iff hy
    have := Nat.mul_lt_mul_of_pos_right hj hpage
    omega

end Search

/-! ### The call -/

/-- From `s` to `s'` the VMAs of the range have gone, with their entries, frames and
objects, and everything else is the same. -/
structure Removed (a : Nat) (mm : Mm) (addr len : Nat) (s s' : Vm Phys) : Prop where
  mms : s'.desk.mms = setVmas s.desk.mms a mm
    (mm.vmas.filter fun x => ¬ (addr ≤ x.start ∧ x.start < addr + len))
  pte : ∀ v, pteAt s'.pages.mem mm.pgindex v =
    if addr ≤ v ∧ v < addr + len then 0 else pteAt s.pages.mem mm.pgindex v
  /-- Leaf tables that are still there are the same. -/
  leaf : ∀ i, leafAt s'.pages.mem mm.pgindex i ≠ none →
    leafAt s'.pages.mem mm.pgindex i = leafAt s.pages.mem mm.pgindex i
  others : ∀ b mm', b ≠ a → s.desk.mms b = some mm' →
    pteAt s'.pages.mem mm'.pgindex = pteAt s.pages.mem mm'.pgindex ∧
      leafAt s'.pages.mem mm'.pgindex = leafAt s.pages.mem mm'.pgindex
  /-- What has been freed are the frames of the VMAs, and leaf tables. -/
  frames : ∀ f, f ∈ s'.pages.frames ↔ f ∈ s.pages.frames ∧
    (∀ x ∈ mm.vmas, addr ≤ x.start → x.start < addr + len → x.pages.paddr ≠ f) ∧
    ∀ i, leafAt s.pages.mem mm.pgindex i = some f → leafAt s'.pages.mem mm.pgindex i = some f
  objs : s.desk.objs.Perm (objectsOf
    (mm.vmas.filter fun x => addr ≤ x.start ∧ x.start < addr + len) ++ s'.desk.objs)

/-- What `destroy_uvm` should do: take the range away if every page of it has a VMA, and
refuse it without a change otherwise. -/
structure RemovesExactly (sent : Sentinel) (a : Nat) (mm : Mm) (addr len : Nat) (s : Vm Phys) :
    Prop where
  backed : Backed mm.vmas addr len →
    ∃ s', destroyUvm physOps sent a addr len s = .ok (0, s') ∧ Removed a mm addr len s s'
  missing : ¬ Backed mm.vmas addr len → destroyUvm physOps sent a addr len s = .ok (-EFAULT, s)

section Memory

variable {base baseObjs : List Nat} {s s' : Vm Phys} {a : Nat} {mm : Mm} {sent : Sentinel}
  {addr len : Nat} {M : PageMap} {l xs r : List Vma}

theorem stretch_filter (hok : Mm.OK M (l ++ (xs ++ r))) (hcovers : Covers xs addr)
    (hlength : xs.length * pageSize = len) (hpos : 0 < len) :
    (l ++ (xs ++ r)).filter (fun x => addr ≤ x.start ∧ x.start < addr + len) = xs ∧
      (l ++ (xs ++ r)).filter (fun x => ¬ (addr ≤ x.start ∧ x.start < addr + len)) = l ++ r := by
  have hpage : 0 < pageSize := by decide
  obtain ⟨-, hsr, hl⟩ := List.pairwise_append.mp hok.sorted
  obtain ⟨-, -, hr⟩ := List.pairwise_append.mp hsr
  have hn : 0 < xs.length := by
    refine Nat.pos_of_ne_zero fun h0 => ?_
    rw [h0, Nat.zero_mul] at hlength
    omega
  have hin : ∀ x ∈ xs, addr ≤ x.start ∧ x.start < addr + len := by
    intro x hx
    obtain ⟨j, hj, hstart⟩ := hcovers.mem_iff hx
    have := Nat.mul_lt_mul_of_pos_right hj hpage
    omega
  have hbelow : ∀ x ∈ l, ¬ (addr ≤ x.start ∧ x.start < addr + len) := by
    intro x hx
    have hfirst := hcovers 0 _ (List.getElem?_eq_getElem hn)
    have := hl x hx xs[0] (List.mem_append_left r (List.getElem_mem hn))
    omega
  have habove : ∀ x ∈ r, ¬ (addr ≤ x.start ∧ x.start < addr + len) := by
    intro x hx
    have hlast := hcovers (xs.length - 1) _ (List.getElem?_eq_getElem (by omega))
    have := hr xs[xs.length - 1] (List.getElem_mem (by omega)) x hx
    have hmul : (xs.length - 1) * pageSize + pageSize = len := by
      rw [← hlength, ← Nat.succ_mul, Nat.succ_eq_add_one, Nat.sub_add_cancel hn]
    omega
  constructor
  · rw [List.filter_append, List.filter_append, List.filter_eq_nil_iff.mpr, List.filter_eq_self.mpr,
      List.filter_eq_nil_iff.mpr, List.append_nil, List.nil_append]
    · exact fun x hx => by simpa using habove x hx
    · exact fun x hx => by simpa using hin x hx
    · exact fun x hx => by simpa using hbelow x hx
  · rw [List.filter_append, List.filter_append, List.filter_eq_self.mpr, List.filter_eq_nil_iff.mpr,
      List.filter_eq_self.mpr, List.nil_append]
    · exact fun x hx => decide_eq_true (habove x hx)
    · exact fun x hx => by simpa using hin x hx
    · exact fun x hx => decide_eq_true (hbelow x hx)

/-- What has gone from the books has gone from memory. -/
theorem Extra.removed {t t' : Vm Books} {N : PageMap} (h : Good base baseObjs t.desk.mms t)
    (hrel : Vm.Rel Represents s t) (hrel' : Vm.Rel Represents s' t')
    (hmm : s.desk.mms a = some mm) (hvmas : mm.vmas = l ++ (xs ++ r))
    (hcovers : Covers xs addr) (hlength : xs.length * pageSize = len) (hpos : 0 < len)
    (hlist : Relist base baseObjs a mm (l ++ r) t t') (he : Extra mm.pgindex N M xs t' t) :
    Removed a mm addr len s s' := by
  have hmm' : t.desk.mms a = some mm := hrel.2 ▸ hmm
  have hM := he.index
  have hok := h.inv.spaces.ok hmm' hM
  rw [hvmas] at hok
  obtain ⟨hxs, hrest⟩ := stretch_filter hok hcovers hlength hpos
  have hshow := hrel.1.index hM
  have hshow' := hrel'.1.index he.before
  have hin : ∀ x, x ∈ xs ↔ x ∈ mm.vmas ∧ addr ≤ x.start ∧ x.start < addr + len := by
    intro x
    have hmem : x ∈ (l ++ (xs ++ r)).filter (fun x => addr ≤ x.start ∧ x.start < addr + len) ↔
        x ∈ l ++ (xs ++ r) ∧ addr ≤ x.start ∧ x.start < addr + len := by
      rw [List.mem_filter, decide_eq_true_eq]
    rw [hxs] at hmem
    rw [hvmas]
    exact hmem
  refine ⟨?_, ?_, ?_, ?_, ?_, ?_⟩
  · rw [hrel'.2, hlist.mms, hrel.2, hvmas, hrest]
  · intro v
    rw [hshow.pte, hshow'.pte]
    by_cases hv : addr ≤ v ∧ v < addr + len
    · rw [if_pos hv]
      by_contra hne
      -- a page that is mapped afterwards was mapped before, but not by a VMA of the range
      have hsame := he.overlay.kept hne
      obtain ⟨x, hx, rfl⟩ := hok.backed v (hsame ▸ hne)
      exact hne (he.overlay.fresh x ((hin x).mpr ⟨hvmas ▸ hx, hv⟩))
    · rw [if_neg hv]
      refine (he.overlay.same v ?_).symm
      rintro x hx rfl
      exact hv ((hin x).mp hx).2
  · intro i hi
    rw [hshow'.leaf] at hi ⊢
    rw [hshow.leaf, he.overlay.leaf i hi]
  · intro b mm' hb hbmm
    have hbmm' : t.desk.mms b = some mm' := hrel.2 ▸ hbmm
    obtain ⟨O, hO, -⟩ := h.inv.spaces.space hbmm'
    have hne : mm'.pgindex ≠ mm.pgindex := fun heq => hb (h.inv.spaces.inj hbmm' hmm' heq)
    have hO' : t'.pages.indexes mm'.pgindex = some O := by
      rw [he.after, Function.update_of_ne hne] at hO
      exact hO
    have hbefore := hrel.1.index hO
    have hafter := hrel'.1.index hO'
    exact ⟨by rw [hafter.pte, hbefore.pte], by rw [hafter.leaf, hbefore.leaf]⟩
  · intro f
    rw [hrel'.1.frames, hrel.1.frames, he.mem_frames hrel'.1 hrel.1 f, hshow.leaf, hshow'.leaf]
    refine and_congr_right fun _ => and_congr_left fun _ => ?_
    unfold framesOf
    rw [List.mem_map]
    constructor
    · intro hnot x hx hlo hhi heq
      exact hnot ⟨x, (hin x).mpr ⟨hx, hlo, hhi⟩, heq⟩
    · rintro hnot ⟨x, hx, heq⟩
      obtain ⟨hmem, hlo, hhi⟩ := (hin x).mp hx
      exact hnot x hmem hlo hhi heq
  · rw [hrel.2, hrel'.2, hvmas, hxs]
    exact he.objs

/-- `destroy_uvm` does not map pages, so it is all the same how that fails. -/
theorem destroyUvm_clean (sent : Sentinel) (a addr len : Nat) {retcode : Int}
    (h : destroyUvm cleanOps sent a addr len s = .ok (retcode, s')) :
    destroyUvm physOps sent a addr len s = .ok (retcode, s') :=
  (unmapping_sim.destroyUvm sent a addr len).run_same h

/-- **What `destroy_uvm` removes.** It removes exactly the requested range, or nothing if a
page of it has no VMA, except if the list ends one page before the range and the list
sentinel is taken for the VMA of that page. -/
theorem destroyUvm_removes_exactly_iff (sent : Sentinel) (h : Kempt base baseObjs s)
    (hmm : s.desk.mms a = some mm) (ha : a ≠ 0) (haddr : addr % pageSize = 0)
    (hlen : len % pageSize = 0) (hpos : 0 < len) (hend : addr + len < 2 ^ 32) :
    RemovesExactly sent a mm addr len s ↔ ¬ sent.Completes mm.vmas addr len := by
  obtain ⟨t, hrel, hgood⟩ := h
  have hmm' : t.desk.mms a = some mm := hrel.2 ▸ hmm
  obtain ⟨M, hM, hok⟩ := hgood.inv.spaces.space hmm'
  obtain ⟨found, hfound, hiff⟩ := findContinuousVma_found sent hok haddr hlen hpos hend
  constructor
  · -- the sentinel is taken for a VMA: the call does not refuse the range
    intro hexact hcompletes
    have hrun := hexact.missing (hcompletes.not_backed hok haddr)
    obtain ⟨l, xs, hvmas, hne, hcovers, hlength, hsent⟩ := hcompletes
    have hsome := (hiff l.length).mpr (.inr ⟨l, xs, hvmas, rfl, hne, hcovers, hlength, hsent⟩)
    have hwp : wp (destroyUvm physOps sent a addr len) (fun retcode _ => retcode = -EFAULT) s :=
      wp_of_run hrun rfl
    rw [destroyUvm, if_neg (by simp [hlen, ha, haddr]), wp_bind] at hwp
    have hget := wp_run hwp (show getMm a s = .ok (mm, s) by
      obtain ⟨_, _, hok, rfl, rfl⟩ := wp_iff.mp (wp_getMm (Q := fun r s₁ => r = mm ∧ s₁ = s) hmm
        ⟨rfl, rfl⟩)
      exact hok)
    rw [wp_bind, hfound, hsome] at hget
    have hcall := wp_run hget rfl
    rw [wp_bind] at hcall
    obtain ⟨_, _, -, hret⟩ := wp_iff.mp hcall
    rw [wp_pure] at hret
    exact absurd hret (by decide)
  · intro hmisses
    refine ⟨fun hbacked => ?_, fun hmissing => ?_⟩
    · obtain ⟨l, xs, r, hvmas, hlength, hcovers⟩ := (backed_iff hok haddr hlen hpos).mp hbacked
      have hsome := (hiff l.length).mpr (.inl ⟨l, xs, r, hvmas, rfl, hlength, hcovers⟩)
      have hwp := (books_sim.destroyUvm sent a addr len).wp hrel (wp_destroyUvm_exact hgood hmm' hM
        hvmas hlength ha haddr hlen hend (hsome ▸ hfound))
      obtain ⟨_, s', hrun, t', hrel', rfl, hlist, N, hextra⟩ := wp_iff.mp hwp
      exact ⟨s', destroyUvm_clean sent a addr len hrun, hextra.removed hgood hrel hrel' hmm hvmas
        hcovers hlength hpos hlist⟩
    · have hnone : found = none := by
        cases hf : found with
        | none => rfl
        | some k =>
          rcases (hiff k).mp hf with ⟨l, xs, r, hvmas, -, hlength, hcovers⟩ |
            ⟨l, xs, hvmas, -, hne, hcovers, hlength, hsent⟩
          · exact absurd ((backed_iff hok haddr hlen hpos).mpr ⟨l, xs, r, hvmas, hlength, hcovers⟩)
              hmissing
          · exact absurd ⟨l, xs, hvmas, hne, hcovers, hlength, hsent⟩ hmisses
      exact destroyUvm_refused physOps hmm ha haddr hlen (hnone ▸ hfound)

/-- Both pages of an address space. -/
theorem destroyUvm_removes_exactly_iff_two_pages :
    RemovesExactly ⟨0, 0⟩ 0x80300000 (roomyMm 0) 0x400000 0x2000 (roomySpace 0) := by
  refine (destroyUvm_removes_exactly_iff ⟨0, 0⟩ (roomySpace_run.kempt roomyVm_fresh)
    roomySpace_wellFormed.live (by decide) (by decide : 0x400000 % pageSize = 0)
    (by decide : 0x2000 % pageSize = 0) (by decide) (by decide)).mpr ?_
  rintro ⟨l, xs, -, -, -, -, hstart⟩
  have hzero : 0 = 0x400000 + xs.length * pageSize := hstart
  omega

/-- Three pages are to be destroyed and only the first two have a VMA. The word that is read as
the `start` of the sentinel happens to be the address of the third, and the sentinel is
freed. -/
theorem destroyUvm_frees_sentinel :
    Kempt roomyVm.pages.frames roomyVm.desk.objs (roomySpace 0) ∧
      (roomySpace 0).desk.mms 0x80300000 = some (roomyMm 0) ∧
      ¬ Backed (roomyMm 0).vmas 0x400000 0x3000 ∧
      (match destroyUvm physOps ⟨0x402000, 0⟩ 0x80300000 0x400000 0x3000 (roomySpace 0) with
        | .ok _ => none
        | .error fault => some fault) = some .sentinelFreed := by
  refine ⟨roomySpace_run.kempt roomyVm_fresh, roomySpace_wellFormed.live, ?_, by decide +kernel⟩
  intro hbacked
  obtain ⟨x, hx, hthird⟩ := hbacked 0x402000 (by decide) (by decide) (by decide)
  have hstart := start_of_mem_roomyMm hx
  omega

end Memory

end AimKernel
