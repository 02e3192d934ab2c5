import AimKernel.Mm.UvmClone
import AimKernel.Mm.UvmDestroy

/-!
# AimKernel.Mm.UvmPerm

The flags of a VMA and the permission of its page.

A permission is kept twice: in the VMA, and in the entry of its page (`Mm.Agrees`). All calls
keep the two in agreement but `set_uvm_perm`. Its loop sets the permission of every page of
the range, but never steps on from the first VMA, so that only this one gets the new flags.
Nothing is lost if the other VMAs of the range have them already (`UvmCall.Uniform`), as in a
range of one page. Where they have not, a later `mm_clone` maps the pages of the copy by the
flags that were left behind.
-/

namespace AimKernel

/-! ### Agreement -/

/-- `PTE_FLAGS`. -/
def pteFlags (pte : Nat) : Nat := pte &&& 0xfff

theorem pteFlags_pteFor {p : Nat} (hp : IsFrame p) (flags : Nat) :
    pteFlags (pteFor p flags) = pgtablePerm flags := by
  have hlt := pgtablePerm_lt flags
  have ha := hp.1
  rw [pteFlags, pteFor, entry_or hp hlt, show (0xfff : Nat) = 2 ^ 12 - 1 from rfl,
    Nat.and_two_pow_sub_one_eq_mod]
  unfold pageSize at ha
  omega

/-- The permission in the entry of each page is that of its VMA. -/
def Mm.Agrees (m : Mem) (mm : Mm) : Prop :=
  ∀ x ∈ mm.vmas, pteFlags (pteAt m mm.pgindex x.start) = pgtablePerm x.flags

instance (m : Mem) (mm : Mm) : Decidable (mm.Agrees m) :=
  inferInstanceAs (Decidable (∀ x ∈ mm.vmas, _))

/-- The same on the books, for all address spaces. -/
def Agreed (t : Vm Books) : Prop :=
  ∀ a mm M, t.desk.mms a = some mm → t.pages.indexes mm.pgindex = some M → M.Flagged mm.vmas

section Books

variable {base baseObjs : List Nat} {t t' : Vm Books} {a : Nat} {mm : Mm} {M N : PageMap}
  {l r xs : List Vma}

variable {vmas : List Vma} {sent : Sentinel} {addr flags len : Nat}

theorem Agreed.update (h : Agreed t) (hgood : Good base baseObjs t.desk.mms t)
    (hmm : t.desk.mms a = some mm) (hmms : t'.desk.mms = setVmas t.desk.mms a mm vmas)
    (hindexes : t'.pages.indexes = Function.update t.pages.indexes mm.pgindex (some N))
    (hflagged : N.Flagged vmas) : Agreed t' := by
  intro b mm' M' hmm' hM'
  rw [hmms, setVmas] at hmm'
  rw [hindexes] at hM'
  rcases update_some_eq hmm' with ⟨-, rfl⟩ | ⟨hb, hmm'⟩
  · rw [Function.update_self] at hM'
    obtain rfl := Option.some.inj hM'
    exact hflagged
  · have hq : mm'.pgindex ≠ mm.pgindex := fun heq => hb (hgood.inv.spaces.inj hmm' hmm heq)
    rw [Function.update_of_ne hq] at hM'
    exact h b mm' M' hmm' hM'

theorem Agreed.same (h : Agreed t) (hmms : t'.desk.mms = t.desk.mms)
    (hindexes : t'.pages.indexes = t.pages.indexes) : Agreed t' := by
  intro b mm' M' hmm' hM'
  rw [hmms] at hmm'
  rw [hindexes] at hM'
  exact h b mm' M' hmm' hM'

/-- New VMAs come with the entries that their flags ask for. -/
theorem Agreed.gained (h : Agreed t) (hgood : Good base baseObjs t.desk.mms t)
    (hmm : t.desk.mms a = some mm) (hvmas : mm.vmas = l ++ r)
    (hgained : Gained a mm l r M N xs t t') : Agreed t' := by
  have hold := hvmas ▸ h a mm M hmm hgained.extra.before
  refine h.update hgood hmm hgained.mms hgained.extra.after fun x hx => ?_
  have hkept : x ∈ l ++ r → N.pte x.start = pteFor x.pages.paddr x.flags := by
    intro hx
    have hok := hgood.inv.spaces.ok hmm hgained.extra.before
    rw [hgained.extra.overlay.kept (hok.mapped x (hvmas ▸ hx)).1]
    exact hold x hx
  rcases List.mem_append.mp hx with hx | hx
  · exact hkept (List.mem_append_left r hx)
  · rcases List.mem_append.mp hx with hx | hx
    · exact hgained.flagged x hx
    · exact hkept (List.mem_append_right l hx)

/-- Where VMAs have gone, the entries of the others are the same. -/
theorem Agreed.removed (h : Agreed t) (hgood : Good base baseObjs t.desk.mms t)
    (hmm : t.desk.mms a = some mm) (hvmas : mm.vmas = l ++ (xs ++ r))
    (hmms : t'.desk.mms = setVmas t.desk.mms a mm (l ++ r))
    (he : Extra mm.pgindex N M xs t' t) : Agreed t' := by
  obtain ⟨K, hK, hok⟩ := hgood.inv.spaces.space hmm
  have hindexes : t'.pages.indexes = Function.update t.pages.indexes mm.pgindex (some N) := by
    rw [he.after, Function.update_idem, ← he.before, Function.update_eq_self]
  refine h.update hgood hmm hmms hindexes fun y hy => ?_
  have hsame : M.pte y.start = N.pte y.start := by
    refine he.overlay.same _ fun x hx => ?_
    have hsorted := hvmas ▸ hok.sorted
    obtain ⟨-, hxr, hl⟩ := List.pairwise_append.mp hsorted
    have hpos : 0 < pageSize := by decide
    rcases List.mem_append.mp hy with hy | hy
    · have := hl y hy x (List.mem_append_left r hx)
      omega
    · have := (List.pairwise_append.mp hxr).2.2 x hx y hy
      omega
  rw [← hsame]
  refine h a mm M hmm he.index y ?_
  rw [hvmas]
  rcases List.mem_append.mp hy with hy | hy <;> simp [hy]

/-! ### The calls -/

theorem wp_createUvm_agreed (h : Agreed t) (hgood : Good base baseObjs t.desk.mms t)
    (hlive : a ≠ 0 → t.desk.mms a ≠ none) (hend : addr + len < 2 ^ 32) :
    wp (createUvm Books.ops sent a addr len flags) (fun _ t' => Agreed t') t := by
  refine wp_mono (wp_createUvm_cases hgood hlive hend) ?_
  rintro retcode t' ⟨-, ⟨hmms, hindexes⟩ | ⟨mm, M, N, l, r, xs, hmm, hvmas, hgained⟩⟩
  · exact h.same hmms hindexes
  · exact h.gained hgood hmm hvmas hgained

theorem wp_destroyUvm_agreed (h : Agreed t) (hgood : Good base baseObjs t.desk.mms t)
    (hlive : a ≠ 0 → t.desk.mms a ≠ none) (hend : addr + len < 2 ^ 32)
    (hsent : sent.Misses addr len) :
    wp (destroyUvm Books.ops sent a addr len) (fun _ t' => Agreed t') t := by
  refine wp_mono (wp_destroyUvm_cases hgood hlive hend hsent) ?_
  rintro retcode t' (⟨-, rfl⟩ | ⟨-, mm, M, N, l, xs, r, hmm, hvmas, hgone, hextra⟩)
  · exact h
  · exact h.removed hgood hmm hvmas hgone.mms hextra

/-- The VMA as `set_uvm_perm` of a range is meant to leave it. -/
def Vma.withFlags (addr len flags : Nat) (x : Vma) : Vma :=
  if addr ≤ x.start ∧ x.start < addr + len then { x with flags := flags } else x

theorem Vma.withFlags_outside {x : Vma} (h : x.start < addr ∨ addr + len ≤ x.start) (flags : Nat)
    : x.withFlags addr len flags = x := by
  rw [withFlags, if_neg (by omega)]

/-- One write to the first VMA of the range is enough if the others have the flags already. -/
theorem reflag_uniform (hok : Mm.OK M (l ++ (xs ++ r))) (hcount : xs.length * pageSize = len)
    (hcovers : Covers xs addr)
    (huniform : ∀ x ∈ l ++ (xs ++ r), addr < x.start → x.start < addr + len → x.flags = flags) :
    reflag l.length xs.length flags (l ++ (xs ++ r)) =
      (l ++ (xs ++ r)).map (Vma.withFlags addr len flags) := by
  obtain ⟨-, hxr, hl⟩ := List.pairwise_append.mp hok.sorted
  have hpos : 0 < pageSize := by decide
  cases xs with
  | nil =>
    subst hcount
    rw [reflag, List.length_nil, if_pos rfl]
    refine (List.map_id'' (fun x => Vma.withFlags_outside ?_ flags) _).symm
    rw [Nat.zero_mul]
    omega
  | cons x xs =>
    obtain ⟨hx, hrest⟩ := Covers.cons_iff.mp hcovers
    have hend : ∀ j < xs.length, addr + pageSize + j * pageSize + pageSize ≤ addr + len := by
      intro j hj
      have := Nat.mul_le_mul_right pageSize (show j + 2 ≤ xs.length + 1 by omega)
      rw [List.length_cons] at hcount
      rw [Nat.add_mul] at this
      omega
    have hbefore : l.map (Vma.withFlags addr len flags) = l := by
      refine (List.map_congr_left fun y hy => ?_).trans (List.map_id l)
      have := hl y hy x List.mem_cons_self
      exact Vma.withFlags_outside (.inl (by omega)) flags
    have hfirst : x.withFlags addr len flags = { x with flags := flags } := by
      rw [List.length_cons, Nat.add_mul] at hcount
      rw [Vma.withFlags, if_pos (by omega)]
    have hbehind : xs.map (Vma.withFlags addr len flags) = xs := by
      refine (List.map_congr_left fun y hy => ?_).trans (List.map_id xs)
      obtain ⟨j, hj, rfl⟩ := List.mem_iff_getElem.mp hy
      have hstart := hrest j _ (List.getElem?_eq_getElem hj)
      have := hend j hj
      have hflags := huniform xs[j] (by simp) (by omega) (by omega)
      rw [Vma.withFlags, ← hflags]
      split <;> rfl
    have hafter : r.map (Vma.withFlags addr len flags) = r := by
      refine (List.map_congr_left fun y hy => ?_).trans (List.map_id r)
      refine Vma.withFlags_outside (.inr ?_) flags
      -- the last VMA of the range is before `y`
      have hlast : (x :: xs)[xs.length]? = some ((x :: xs)[xs.length]) :=
        List.getElem?_eq_getElem (by simp)
      have hstart := hcovers _ _ hlast
      have := (List.pairwise_append.mp hxr).2.2 _ (List.mem_of_getElem? hlast) y hy
      rw [List.length_cons, Nat.add_mul] at hcount
      omega
    rw [reflag, if_neg (by simp), List.modify_eq_take_cons_drop (by simp)]
    simp [hbefore, hfirst, hbehind, hafter]

/-- The entries after `set_uvm_perm` are those that the new flags of all VMAs ask for. -/
theorem Permits.flagged {M' : PageMap} {n : Nat} (h : Permits M M' addr n flags)
    (hok : Mm.OK M vmas) (hold : M.Flagged vmas) (haddr : n ≠ 0 → addr % pageSize = 0) :
    M'.Flagged (vmas.map (Vma.withFlags addr (n * pageSize) flags)) := by
  intro y hy
  obtain ⟨x, hx, rfl⟩ := List.mem_map.mp hy
  have hmapped := (hok.mapped x hx).2
  have hpage : x.start % pageSize = 0 := (hok.vma x hx).page.1
  have hframe := (hok.vma x hx).frame
  by_cases hin : addr ≤ x.start ∧ x.start < addr + n * pageSize
  · have hpage' : addr % pageSize = 0 := haddr fun h0 => by
      rw [h0, Nat.zero_mul] at hin
      omega
    have hround : ∃ j < n, x.start = addr + j * pageSize := by
      refine ⟨(x.start - addr) / pageSize, Nat.div_lt_of_lt_mul ?_, ?_⟩
      · rw [Nat.mul_comm]
        omega
      · have hmod : (x.start - addr) % pageSize = 0 := by
          rw [Nat.sub_mod_eq_zero_of_mod_eq (hpage.trans hpage'.symm)]
        have := Nat.div_mul_cancel (Nat.dvd_of_mod_eq_zero hmod)
        omega
    have hu : u32 x.pages.paddr = x.pages.paddr := by
      simpa using entry_or (x := 0) hframe (by decide)
    rw [Vma.withFlags, if_pos hin, h, if_pos hround, hmapped, pteFor, hu]
  · have hround : ¬ ∃ j < n, x.start = addr + j * pageSize := by
      rintro ⟨j, hj, heq⟩
      have := Nat.mul_lt_mul_of_pos_right hj (show 0 < pageSize by decide)
      exact hin (by omega)
    rw [Vma.withFlags, if_neg hin, h, if_neg hround]
    exact hold x hx

/-- The flags are already those asked for in all VMAs of the range but the first. -/
def UniformRange (d : Desk) (a addr len flags : Nat) : Prop :=
  ∀ mm, d.mms a = some mm → ∀ x ∈ mm.vmas, addr < x.start → x.start < addr + len → x.flags = flags

theorem wp_setUvmPerm_agreed (h : Agreed t) (hgood : Good base baseObjs t.desk.mms t)
    (hlive : a ≠ 0 → t.desk.mms a ≠ none) (hend : addr + len < 2 ^ 32)
    (hsent : sent.Misses addr len) (huniform : UniformRange t.desk a addr len flags) :
    wp (setUvmPerm Books.ops sent a addr len flags) (fun retcode t' => Agreed t' ∧
      (retcode = 0 → ∃ mm, t.desk.mms a = some mm ∧ t'.desk.mms =
        setVmas t.desk.mms a mm (mm.vmas.map (Vma.withFlags addr len flags)))) t := by
  refine wp_mono (wp_setUvmPerm_exact hgood hlive hend hsent) ?_
  rintro retcode t' (⟨hne, rfl⟩ | ⟨-, mm, M, M', l, xs, r, hmm, hM, hvmas, hcount, hcovers, hset,
    hpermits, hindexes⟩)
  · exact ⟨h, fun h0 => absurd h0 hne⟩
  · have hok := hgood.inv.spaces.ok hmm hM
    have hflags := huniform mm hmm
    have hmms := hset.mms
    rw [hvmas, reflag_uniform (hvmas ▸ hok) hcount hcovers (hvmas ▸ hflags), ← hvmas] at hmms
    refine ⟨h.update hgood hmm hmms hindexes ?_, fun _ => ⟨mm, hmm, hmms⟩⟩
    subst hcount
    refine hpermits.flagged hok (h a mm M hmm hM) fun hn => ?_
    -- the range starts with a VMA
    obtain ⟨x, ys, rfl⟩ := List.exists_cons_of_length_pos (Nat.pos_of_ne_zero hn)
    rw [← (Covers.cons_iff.mp hcovers).1]
    exact (hok.vma x (by simp [hvmas])).page.1

theorem Agreed.new (h : Agreed t) (hgood : Good base baseObjs t.desk.mms t) {x pgindex : Nat}
    (hvacant : t.pages.indexes pgindex = none)
    (hmms : t'.desk.mms = Function.update t.desk.mms x (some ⟨pgindex, []⟩))
    (hindexes : t'.pages.indexes = Function.update t.pages.indexes pgindex (some .empty)) :
    Agreed t' := by
  intro b mm' M' hmm' hM'
  rw [hmms] at hmm'
  rw [hindexes] at hM'
  rcases update_some_eq hmm' with ⟨-, rfl⟩ | ⟨-, hmm'⟩
  · exact fun y hy => nomatch hy
  · obtain ⟨K, hK, -⟩ := hgood.inv.spaces.space hmm'
    have hq : mm'.pgindex ≠ pgindex := by
      intro heq
      rw [heq, hvacant] at hK
      cases hK
    rw [Function.update_of_ne hq] at hM'
    exact h b mm' M' hmm' hM'

theorem Agreed.destroyed (h : Agreed t) (hgood : Good base baseObjs t.desk.mms t)
    (hmm : t.desk.mms a = some mm) (hmms : t'.desk.mms = Function.update t.desk.mms a none)
    (hother : ∀ q, q ≠ mm.pgindex → t'.pages.indexes q = t.pages.indexes q) : Agreed t' := by
  intro b mm' M' hmm' hM'
  rw [hmms] at hmm'
  obtain ⟨hb, hmm'⟩ := update_none_eq hmm'
  have hq : mm'.pgindex ≠ mm.pgindex := fun heq => hb (hgood.inv.spaces.inj hmm' hmm heq)
  rw [hother _ hq] at hM'
  exact h b mm' M' hmm' hM'

/-- The copy is made with the flags of the source. -/
theorem wp_mmClone_agreed {dst src : Nat} (h : Agreed t)
    (hgood : Good base baseObjs t.desk.mms t) (hdst : t.desk.mms dst = some mm)
    (hnil : mm.vmas = []) (hsrc : t.desk.mms src ≠ none) :
    wp (mmClone Books.ops dst src) (fun _ t' => Agreed t') t := by
  refine wp_mono (wp_mmClone_cases hgood hdst hnil hsrc) ?_
  rintro retcode t' ⟨-, ⟨hmms, hindexes⟩ | ⟨M, N, xs, hgained⟩⟩
  · exact h.same hmms hindexes
  · exact h.gained hgood hdst hnil hgained

end Books

/-! ### Runs -/

namespace UvmCall

/-- The calls of `set_uvm_perm` that lose nothing. -/
def Uniform (d : Desk) : UvmCall → Prop
  | .setUvmPerm _ a addr len flags => UniformRange d a addr len flags
  | _ => True

/-- **Every call** keeps the agreement. -/
theorem agreed {base baseObjs : List Nat} {t : Vm Books} {c : UvmCall} (h : Agreed t)
    (hgood : Good base baseObjs t.desk.mms t) (hv : c.Valid t.desk) (hu : c.Uniform t.desk) :
    wp (c.run Books.ops) (fun _ t' => Agreed t') t := by
  cases c with
  | mmNew =>
    rw [run, wp_bind]
    refine wp_mmNew hgood ?_ ?_
    · intro t' _ hmms _ hindexes
      exact wp_pure.mpr (h.same hmms hindexes)
    · intro t' x pgindex _ _ _ hmms _ hvacant hindexes
      exact wp_pure.mpr (h.new hgood hvacant hmms hindexes)
  | mmDestroy a =>
    rw [run, wp_bind]
    by_cases hignored : a = 0 ∨ a = t.desk.kernelMm
    · rw [AimKernel.mmDestroy, wp_bind, onDesk, wp_zoom, wp_get, if_pos hignored, wp_pure, wp_pure]
      exact h
    · obtain ⟨ha, hkernel⟩ := not_or.mp hignored
      obtain ⟨mm, hmm⟩ := Option.ne_none_iff_exists'.mp (hv ha)
      refine wp_mono (wp_mmDestroy hgood hmm ha hkernel) ?_
      rintro _ t' ⟨-, hmms, -, hother⟩
      exact wp_pure.mpr (h.destroyed hgood hmm hmms hother)
  | createUvm sent a addr len flags => exact wp_createUvm_agreed h hgood hv.1 hv.2
  | destroyUvm sent a addr len => exact wp_destroyUvm_agreed h hgood hv.1 hv.2.1 hv.2.2
  | setUvmPerm sent a addr len flags =>
    exact wp_mono (wp_setUvmPerm_agreed h hgood hv.1 hv.2.1 hv.2.2 hu) fun _ _ => And.left
  | mmClone dst src =>
    obtain ⟨⟨mm, hmm, hempty⟩, hsrc⟩ := hv
    exact wp_mmClone_agreed h hgood hmm hempty hsrc

end UvmCall

/-- The states that valid calls lead to, with the real `map_pages` or the one that fails
without a change, if no call of `set_uvm_perm` loses flags. -/
inductive PermRun (s₀ : Vm Phys) : Vm Phys → Prop
  | start : PermRun s₀ s₀
  | call {s s' : Vm Phys} {c : UvmCall} {result : Int} : PermRun s₀ s → c.Valid s.desk →
      c.Uniform s.desk →
      c.run cleanOps s = .ok (result, s') ∨ c.run physOps s = .ok (result, s') → PermRun s₀ s'

theorem PermRun.after {s₀ s : Vm Phys} {c : UvmCall} (h : PermRun s₀ s) (hv : c.Valid s.desk)
    (hu : c.Uniform s.desk) (hok : (c.run cleanOps s).isOk = true) :
    PermRun s₀ (AimKernel.after (c.run cleanOps) s) :=
  let ⟨_, hrun⟩ := run_after hok
  .call h hv hu (.inl hrun)

/-- Books are kept of the state, they are in order, and flags and entries agree. -/
def Attuned (base baseObjs : List Nat) (s : Vm Phys) : Prop :=
  ∃ t, Vm.Rel Represents s t ∧ Good base baseObjs t.desk.mms t ∧ Agreed t

section Memory

variable {base baseObjs : List Nat} {s s' : Vm Phys} {result : Int}

theorem Attuned.kempt (h : Attuned base baseObjs s) : Kempt base baseObjs s :=
  let ⟨t, hrel, hgood, _⟩ := h
  ⟨t, hrel, hgood⟩

/-- **One call.** -/
theorem Attuned.call {c : UvmCall} (h : Attuned base baseObjs s) (hv : c.Valid s.desk)
    (hu : c.Uniform s.desk)
    (hrun : c.run cleanOps s = .ok (result, s') ∨ c.run physOps s = .ok (result, s')) :
    Attuned base baseObjs s' := by
  have hrun : c.run cleanOps s = .ok (result, s') := hrun.elim id (c.run_clean h.kempt hv)
  obtain ⟨t, hrel, hgood, hagreed⟩ := h
  rw [hrel.2] at hv hu
  have hbooks := wp_and (c.keeps hgood hv) (c.agreed hagreed hgood hv hu)
  obtain ⟨t', hrel', ⟨hgood', -⟩, hagreed'⟩ := wp_run ((c.sim hv).wp hrel hbooks) hrun
  exact ⟨t', hrel', hgood', hagreed'⟩

/-- **The whole run.** -/
theorem PermRun.attuned {s₀ : Vm Phys} (h : PermRun s₀ s) (h0 : s₀.Fresh) :
    Attuned s₀.pages.frames s₀.desk.objs s := by
  induction h with
  | start =>
    obtain ⟨t, hrel, hgood⟩ := h0.kempt
    refine ⟨t, hrel, hgood, fun a mm M hmm => ?_⟩
    rw [← hrel.2, h0.spaces] at hmm
    cases hmm
  | call _ hv hu hrun ih => exact ih.call hv hu hrun

/-- What the books say about the words in memory. -/
theorem Attuned.agrees (h : Attuned base baseObjs s) {a : Nat} {mm : Mm}
    (hmm : s.desk.mms a = some mm) : mm.Agrees s.pages.mem := by
  obtain ⟨t, hrel, hgood, hagreed⟩ := h
  rw [hrel.2] at hmm
  obtain ⟨M, hM, hok⟩ := hgood.inv.spaces.space hmm
  intro x hx
  rw [(hrel.1.index hM).pte, hagreed a mm M hmm hM x hx]
  exact pteFlags_pteFor (hok.vma x hx).frame x.flags

/-- `set_uvm_perm` sets the flags of the VMAs in its range and of no others. -/
theorem Attuned.setUvmPerm {sent : Sentinel} {a addr len flags : Nat}
    (h : Attuned base baseObjs s) (hv : (UvmCall.setUvmPerm sent a addr len flags).Valid s.desk)
    (hu : UniformRange s.desk a addr len flags)
    (hrun : setUvmPerm physOps sent a addr len flags s = .ok (0, s')) :
    ∃ mm, s.desk.mms a = some mm ∧ s'.desk.mms =
      setVmas s.desk.mms a mm (mm.vmas.map (Vma.withFlags addr len flags)) := by
  have hrun := UvmCall.run_clean (c := .setUvmPerm sent a addr len flags) h.kempt hv hrun
  obtain ⟨t, hrel, hgood, hagreed⟩ := h
  have hsim := UvmCall.sim (.setUvmPerm sent a addr len flags) hv
  rw [hrel.2] at hv hu
  have hbooks := wp_setUvmPerm_agreed hagreed hgood hv.1 hv.2.1 hv.2.2 hu
  obtain ⟨t', hrel', -, hflags⟩ := wp_run (hsim.wp hrel hbooks) hrun
  rw [hrel'.2, hrel.2]
  exact hflags rfl

/-- A copy has the permissions of its source. -/
theorem Attuned.mmClone {dst src pgindex : Nat} {smm : Mm} (h : Attuned base baseObjs s)
    (hsrc : s.desk.mms src = some smm) (hdst : s.desk.mms dst = some ⟨pgindex, []⟩)
    (hne : dst ≠ src) (hrun : mmClone physOps dst src s = .ok (0, s')) (v : Nat) :
    pteFlags (pteAt s'.pages.mem pgindex v) = pteFlags (pteAt s.pages.mem smm.pgindex v) := by
  have hv : (UvmCall.mmClone dst src).Valid s.desk :=
    ⟨⟨_, hdst, rfl⟩, by rw [hsrc]; exact Option.some_ne_none smm⟩
  have hclean : AimKernel.mmClone cleanOps dst src s = .ok (0, s') :=
    UvmCall.run_clean (c := .mmClone dst src) h.kempt hv hrun
  have h' : Attuned base baseObjs s' := h.call hv trivial (.inr hrun)
  rcases wp_run (h.kempt.clone hsrc hdst hne) hclean with ⟨-, dmm, rfl, hcloned⟩ | ⟨hfail, -⟩
  swap
  · exact absurd hfail (by decide)
  rw [← hcloned.source.pte]
  have hagrees := h'.agrees hcloned.space
  have hagrees' := h'.agrees hcloned.source.space
  obtain ⟨t', hrel', hgood', -⟩ := h'
  have hstep := hgood'.inStep hrel' hcloned.space
  have hstep' := hgood'.inStep hrel' hcloned.source.space
  -- every VMA of one list has its like in the other
  have hlike : ∀ {mm1 mm2 : Mm}, mm1.vmas.map (fun x => (x.start, x.size, x.flags)) =
      mm2.vmas.map (fun x => (x.start, x.size, x.flags)) →
      ∀ x ∈ mm1.vmas, ∃ y ∈ mm2.vmas, y.start = x.start ∧ y.flags = x.flags := by
    intro mm1 mm2 hlist x hx
    have hmem := List.mem_map_of_mem (f := fun x : Vma => (x.start, x.size, x.flags)) hx
    rw [hlist] at hmem
    obtain ⟨y, hy, heq⟩ := List.mem_map.mp hmem
    simp only [Prod.mk.injEq] at heq
    exact ⟨y, hy, heq.1, heq.2.2⟩
  by_cases hmapped : pteAt s'.pages.mem dmm.pgindex v = 0
  · have hmapped' : pteAt s'.pages.mem smm.pgindex v = 0 := by
      by_contra hne
      obtain ⟨y, hy, rfl⟩ := (hstep'.mapped v).mp hne
      obtain ⟨x, hx, hstart, -⟩ := hlike hcloned.list.symm y hy
      exact (hstep.mapped _).mpr ⟨x, hx, hstart⟩ hmapped
    rw [hmapped, hmapped']
  · obtain ⟨x, hx, rfl⟩ := (hstep.mapped v).mp hmapped
    obtain ⟨y, hy, hstart, hflags⟩ := hlike hcloned.list x hx
    rw [hagrees x hx, ← hstart, hagrees' y hy, hflags]

end Memory

/-- **Flags and permissions.** In every run in which no call of `set_uvm_perm` loses flags,
the flags of every VMA and the permission in the entry of its page agree. A call of
`set_uvm_perm` that returns zero leaves the flags it was given in every VMA of its range and
changes no other, and a copy that `mm_clone` makes has the permissions of its source. -/
theorem vma_flags_agree {s₀ s : Vm Phys} (h₀ : s₀.Fresh) (hrun : PermRun s₀ s) :
    (∀ a mm, s.desk.mms a = some mm → mm.Agrees s.pages.mem) ∧
    (∀ sent a addr len flags s', (UvmCall.setUvmPerm sent a addr len flags).Valid s.desk →
      UniformRange s.desk a addr len flags →
      setUvmPerm physOps sent a addr len flags s = .ok (0, s') →
      ∃ mm, s.desk.mms a = some mm ∧ s'.desk.mms =
        setVmas s.desk.mms a mm (mm.vmas.map (Vma.withFlags addr len flags))) ∧
    ∀ dst src pgindex smm s', s.desk.mms src = some smm → s.desk.mms dst = some ⟨pgindex, []⟩ →
      dst ≠ src → mmClone physOps dst src s = .ok (0, s') → ∀ v,
      pteFlags (pteAt s'.pages.mem pgindex v) = pteFlags (pteAt s.pages.mem smm.pgindex v) := by
  have h := hrun.attuned h₀
  refine ⟨fun a mm hmm => h.agrees hmm, ?_, ?_⟩
  · intro sent a addr len flags s' hv hu hset
    exact h.setUvmPerm hv hu hset
  · intro dst src pgindex smm s' hsrc hdst hne hclone v
    exact h.mmClone hsrc hdst hne hclone v

theorem roomySpace_permRun (flags : Nat) (hok : (UvmCall.run cleanOps
      (.createUvm ⟨0, 0⟩ 0x80300000 0x400000 0x2000 flags)
      (after (UvmCall.run cleanOps .mmNew) roomyVm)).isOk = true) :
    PermRun roomyVm (roomySpace flags) := by
  have hnew : PermRun roomyVm (after (UvmCall.run cleanOps .mmNew) roomyVm) :=
    PermRun.start.after trivial trivial (by decide +kernel)
  refine hnew.after ⟨fun _ => ?_, by decide⟩ trivial hok
  exact Option.isSome_iff_ne_none.mp (by decide +kernel)

/-- `twoSpaces` with the second page made writable, -/
def halfWritable : Vm Phys :=
  after (UvmCall.run cleanOps (.setUvmPerm ⟨0, 0⟩ 0x80300000 0x401000 0x1000 2)) twoSpaces

/-- and then with both. -/
def writableSpace : Vm Phys :=
  after (setUvmPerm physOps ⟨0, 0⟩ 0x80300000 0x400000 0x2000 2) halfWritable

/-- The address space of `halfWritable`. -/
def halfMm : Mm where
  pgindex := 0x80200000
  vmas := [⟨0x80300040, 0x400000, 0x1000, 0, ⟨⟨0x201000, 0x1000, 0⟩, 0x80300080, 1⟩⟩,
    ⟨0x803000c0, 0x401000, 0x1000, 2, ⟨⟨0x203000, 0x1000, 0⟩, 0x80300100, 1⟩⟩]

theorem setUvmPerm_valid {d : Desk} {a addr len flags : Nat} {mm : Mm} (hmm : d.mms a = some mm)
    (haddr : 0 < addr) (hend : addr + len < 2 ^ 32) :
    (UvmCall.setUvmPerm ⟨0, 0⟩ a addr len flags).Valid d := by
  refine ⟨fun _ => ?_, hend, fun j _ => ?_⟩
  · rw [hmm]
    exact Option.some_ne_none mm
  · show 0 ≠ _
    omega

theorem halfWritable_permRun : PermRun roomyVm halfWritable := by
  have hspaces : PermRun roomyVm twoSpaces :=
    (roomySpace_permRun 0 (by decide +kernel)).after trivial trivial (by decide +kernel)
  have hmm : twoSpaces.desk.mms 0x80300000 = some (roomyMm 0) := by decide +kernel
  refine hspaces.after (setUvmPerm_valid hmm (by decide) (by decide)) ?_ (by decide +kernel)
  intro mm hmm' x hx hlo
  obtain rfl := Option.some.inj (hmm.symm.trans hmm')
  have hstart := start_of_mem_roomyMm hx
  omega

/-- Two pages, the second of which has the new flags already. -/
theorem vma_flags_agree_two_pages :
    setUvmPerm physOps ⟨0, 0⟩ 0x80300000 0x400000 0x2000 2 halfWritable =
      .ok (0, writableSpace) ∧
    writableSpace.desk.mms = setVmas halfWritable.desk.mms 0x80300000 halfMm
      (halfMm.vmas.map (Vma.withFlags 0x400000 0x2000 2)) ∧
    (∀ mm, writableSpace.desk.mms 0x80300000 = some mm → mm.Agrees writableSpace.pages.mem) ∧
    ∃ s', mmClone physOps 0x80300140 0x80300000 writableSpace = .ok (0, s') ∧
      ∀ v, pteFlags (pteAt s'.pages.mem 0x80204000 v) =
        pteFlags (pteAt writableSpace.pages.mem 0x80200000 v) := by
  have hmm : halfWritable.desk.mms 0x80300000 = some halfMm := by decide +kernel
  have hvalid : (UvmCall.setUvmPerm ⟨0, 0⟩ 0x80300000 0x400000 0x2000 2).Valid halfWritable.desk :=
    setUvmPerm_valid hmm (by decide) (by decide)
  have huniform : UniformRange halfWritable.desk 0x80300000 0x400000 0x2000 2 := by
    intro mm hmm' x hx hlo hhi
    obtain rfl := Option.some.inj (hmm.symm.trans hmm')
    simp only [halfMm, List.mem_cons, List.not_mem_nil, or_false] at hx
    rcases hx with rfl | rfl
    · exact absurd hlo (by decide)
    · rfl
  have hset : setUvmPerm physOps ⟨0, 0⟩ 0x80300000 0x400000 0x2000 2 halfWritable =
      .ok (0, writableSpace) := run_after_eq (by decide +kernel)
  have hrun : PermRun roomyVm writableSpace :=
    .call (c := .setUvmPerm ⟨0, 0⟩ 0x80300000 0x400000 0x2000 2) halfWritable_permRun hvalid
      huniform (.inr hset)
  obtain ⟨-, hsets, -⟩ := vma_flags_agree roomyVm_fresh halfWritable_permRun
  obtain ⟨hagree, -, hclones⟩ := vma_flags_agree roomyVm_fresh hrun
  obtain ⟨mm, hmm', hmms⟩ := hsets _ _ _ _ _ _ hvalid huniform hset
  obtain rfl := Option.some.inj (hmm.symm.trans hmm')
  have hsrc : writableSpace.desk.mms 0x80300000 =
      some { halfMm with vmas := halfMm.vmas.map (Vma.withFlags 0x400000 0x2000 2) } := by
    rw [hmms, setVmas_apply]
  have hclone : mmClone physOps 0x80300140 0x80300000 writableSpace = .ok (0, after _ _) :=
    run_after_eq (by decide +kernel)
  have hdst : writableSpace.desk.mms 0x80300140 = some ⟨0x80204000, []⟩ := by decide +kernel
  have hperm := hclones _ _ _ _ _ hsrc hdst (by decide) hclone
  exact ⟨hset, hmms, hagree _, _, hclone, hperm⟩

/-- `twoSpaces` after the call that makes both pages writable. -/
def unevenPages : Vm Phys :=
  after (setUvmPerm physOps ⟨0, 0⟩ 0x80300000 0x400000 0x2000 2) twoSpaces

/-- Both pages are made writable, but the second VMA keeps its flags, and the second page of
a copy is not writable. -/
theorem setUvmPerm_loses_flags :
    roomyVm.Fresh ∧ UvmRun roomyVm twoSpaces ∧
    setUvmPerm physOps ⟨0, 0⟩ 0x80300000 0x400000 0x2000 2 twoSpaces = .ok (0, unevenPages) ∧
    (∃ mm, unevenPages.desk.mms 0x80300000 = some mm ∧ mm.vmas.map Vma.flags = [2, 0] ∧
      ¬ mm.Agrees unevenPages.pages.mem) ∧
    ∃ s', mmClone physOps 0x80300140 0x80300000 unevenPages = .ok (0, s') ∧
      pteFlags (pteAt s'.pages.mem 0x80204000 0x401000) ≠
        pteFlags (pteAt unevenPages.pages.mem 0x80200000 0x401000) := by
  refine ⟨roomyVm_fresh, roomySpace_run.after trivial (by decide +kernel),
    run_after_eq (by decide +kernel), ?_, ?_⟩
  · have hmms : ((unevenPages.desk.mms 0x80300000).map fun mm =>
        (mm.vmas.map Vma.flags, decide (mm.Agrees unevenPages.pages.mem))) = some ([2, 0], false) := by
      decide +kernel
    obtain ⟨mm, hmm, heq⟩ := Option.map_eq_some_iff.mp hmms
    exact ⟨mm, hmm, congrArg Prod.fst heq, of_decide_eq_false (congrArg Prod.snd heq)⟩
  · exact ⟨_, run_after_eq (by decide +kernel), by decide +kernel⟩

end AimKernel
