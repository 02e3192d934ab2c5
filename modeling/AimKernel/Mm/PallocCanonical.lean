import AimKernel.Mm.PallocOwnership
import Mathlib.Data.Fintype.EquivFin

/-!
# AimKernel.Mm.PallocCanonical

The free list is a normal form of the set of free pages.

In every state of a run the list is strictly ascending, without empty blocks and
without touching neighbours. Such a list is determined by what it covers
(`Separated.ext`), so two allocators with the same free pages have the same list,
and giving back a family of disjoint blocks leads to the same list in every order:
each `free` adds exactly its own pages (`Ledger.GiveBack.inv`), and a union does not
depend on the order.
-/

namespace AimKernel

/-- The pages a list of blocks covers, by number. -/
def pageNumbers (bs : List Blk) : Set Nat := {n | Covered (bs.map Blk.region) (n * pageSize)}

/-! ### The list of a state -/

attribute [ext] Blk

variable {bs cs : List Blk} {s : PallocSys}

/-- The links and fields of an allocator determine the blocks on its list. -/
theorem Palloc.Rep.unique {pa : Palloc} (hb : pa.Rep bs) (hc : pa.Rep cs) :
    bs = cs := by
  have hnodes : bs.map Blk.node = cs.map Blk.node := hb.linked.chained.unique hc.linked.chained
  have hlen : bs.length = cs.length := by simpa using congrArg List.length hnodes
  refine List.ext_getElem hlen fun i hib hic => ?_
  have hnode : (bs[i]).node = (cs[i]).node := by
    have hget : (bs.map Blk.node)[i]? = (cs.map Blk.node)[i]? := by rw [hnodes]
    simpa [List.getElem?_eq_getElem hib, List.getElem?_eq_getElem hic] using hget
  obtain ⟨hbp, hbs⟩ := hb.fields bs[i] (List.getElem_mem hib)
  obtain ⟨hcp, hcs⟩ := hc.fields cs[i] (List.getElem_mem hic)
  rw [hnode] at hbp hbs
  exact Blk.ext hnode (hbp.symm.trans hcp) (hbs.symm.trans hcs)

theorem PallocSys.Inv.separated (h : s.Inv bs) :
    Separated (bs.map Blk.region) := by
  refine ⟨?_, List.pairwise_map.mpr h.canon⟩
  intro r hr
  obtain ⟨b, hb, rfl⟩ := List.mem_map.mp hr
  exact (h.ok b hb).pos

/-- Whole pages are covered or free as a whole. -/
theorem PallocSys.Inv.covered_iff (h : s.Inv bs) (x : Nat) :
    Covered (bs.map Blk.region) x ↔ x / pageSize ∈ pageNumbers bs := by
  have hpage : ∀ b ∈ bs, (x ∈ b.region.bytes ↔ x / pageSize * pageSize ∈ b.region.bytes) := by
    intro b hb
    have hmul := (h.ok b hb).size_mul
    have halign := (h.ok b hb).aligned
    simp only [Region.mem_bytes, Blk.region, Region.stop]
    unfold pageSize at *
    omega
  constructor
  · rintro ⟨r, hr, hx⟩
    obtain ⟨b, hb, rfl⟩ := List.mem_map.mp hr
    exact ⟨b.region, hr, (hpage b hb).mp hx⟩
  · rintro ⟨r, hr, hx⟩
    obtain ⟨b, hb, rfl⟩ := List.mem_map.mp hr
    exact ⟨b.region, hr, (hpage b hb).mpr hx⟩

/-- Two allocators with the same free pages have the same blocks on their lists. -/
theorem PallocSys.Inv.eq_of_pageNumbers {t : PallocSys} (hb : s.Inv bs) (hc : t.Inv cs)
    (h : pageNumbers bs = pageNumbers cs) :
    bs.map Blk.region = cs.map Blk.region := by
  refine hb.separated.ext hc.separated fun x => ?_
  rw [hb.covered_iff, hc.covered_iff, h]

/-! ### Giving back a family of blocks -/

namespace Ledger

/-- One `free` after the other. -/
inductive FreeAll : Ledger → List Pages → Ledger → Prop
  | nil (led : Ledger) : FreeAll led [] led
  | cons {led led' led'' : Ledger} {pages : Pages} {fs : List Pages}
      (h : GiveBack led pages led') (hrest : FreeAll led' fs led'') :
      FreeAll led (pages :: fs) led''

/-- The block lies inside an outstanding one. -/
def Owned (led : Ledger) (pages : Pages) : Prop :=
  WholePages pages ∧ ∃ o ∈ led.outstanding, o.base ≤ pages.paddr ∧
    pages.paddr + pages.size ≤ o.stop

variable {led led' : Ledger} {bs : List Blk} {pages : Pages} {fs : List Pages}

/-- A family of `free`s adds exactly its own memory. -/
theorem FreeAll.inv (h : FreeAll led fs led') (hinv : led.Inv bs) :
    ∃ bs', led'.Inv bs' ∧ ∀ x, Covered (bs'.map Blk.region) x ↔
      Covered (fs.map region) x ∨ Covered (bs.map Blk.region) x := by
  induction h generalizing bs with
  | nil led => exact ⟨bs, hinv, fun x => by simp⟩
  | cons hstep _ ih =>
    obtain ⟨bs1, hinv1, hcov1⟩ := hstep.inv hinv
    obtain ⟨bs', hinv', hcov'⟩ := ih hinv1
    refine ⟨bs', hinv', fun x => ?_⟩
    rw [hcov', hcov1, List.map_cons, covered_cons, Region.mem_bytes]
    tauto

/-- What is left of an outstanding block after `p` was given back still holds any other
part of it. -/
theorem exists_minus {o p q : Region} (hlo : o.base ≤ q.base) (hhi : q.stop ≤ o.stop)
    (hq : 0 < q.len) (hp : 0 < p.len) (hdisj : Disjoint q.bytes p.bytes) :
    ∃ o' ∈ o.minus p, o'.base ≤ q.base ∧ q.stop ≤ o'.stop := by
  have hside := (Region.disjoint_iff hq hp).mp hdisj
  have hqstop : q.stop = q.base + q.len := rfl
  unfold Region.minus
  rcases hside with hside | hside
  · refine ⟨⟨o.base, p.base - o.base⟩, List.mem_append_left _ ?_, hlo, ?_⟩
    · rw [if_pos (by omega)]
      exact List.mem_singleton.mpr rfl
    · show q.stop ≤ o.base + (p.base - o.base)
      omega
  · refine ⟨⟨p.stop, o.stop - p.stop⟩, List.mem_append_right _ ?_, hside, ?_⟩
    · rw [if_pos (by omega)]
      exact List.mem_singleton.mpr rfl
    · show q.stop ≤ p.stop + (o.stop - p.stop)
      omega

/-- A `free` leaves every disjoint part of an outstanding block outstanding. -/
theorem GiveBack.owned (h : GiveBack led pages led') {q : Pages} (hq : led.Owned q)
    (hdisj : Disjoint (region q).bytes (region pages).bytes) : led'.Owned q := by
  cases h with
  | @mk fuel node sys' l r o hw hout hlo hhi hfresh hrun =>
    obtain ⟨hwq, o', ho', hqlo, hqhi⟩ := hq
    refine ⟨hwq, ?_⟩
    rw [hout, List.mem_append, List.mem_cons] at ho'
    rcases ho' with ho' | rfl | ho'
    · exact ⟨o', by simp [ho'], hqlo, hqhi⟩
    · obtain ⟨o'', ho'', hlo'', hhi''⟩ :=
        exists_minus (q := region q) hqlo hqhi hwq.pos hw.pos hdisj
      exact ⟨o'', by simp [ho''], hlo'', hhi''⟩
    · exact ⟨o', by simp [ho'], hqlo, hqhi⟩

theorem GiveBack.exists (hinv : led.Inv bs) (h : led.Owned pages) :
    ∃ led', GiveBack led pages led' := by
  obtain ⟨hw, o, ho, hlo, hhi⟩ := h
  obtain ⟨l, r, hout⟩ := List.append_of_mem ho
  obtain ⟨node, hfresh⟩ := Infinite.exists_notMem_finset led.sys.live.toFinset
  rw [List.mem_toFinset] at hfresh
  have hfree := hinv.disjoint_free (q := region pages) ho hlo hhi
  obtain ⟨s', -, hs', -⟩ := PallocSys.free_spec hinv.sys (bs.length + 1) hw.pos hw.size_mul
    hw.aligned hw.bound hfree hfresh (by omega)
  exact ⟨_, .mk hw hout hlo hhi hfresh hs'⟩

theorem FreeAll.exists (hinv : led.Inv bs) (hown : ∀ p ∈ fs, led.Owned p)
    (hdisj : fs.Pairwise fun p q => Disjoint (region p).bytes (region q).bytes) :
    ∃ led', FreeAll led fs led' := by
  induction fs generalizing led bs with
  | nil => exact ⟨led, .nil led⟩
  | cons p fs ih =>
    obtain ⟨hp, hrest⟩ := List.pairwise_cons.mp hdisj
    obtain ⟨led1, hstep⟩ := GiveBack.exists hinv (hown p (by simp))
    obtain ⟨bs1, hinv1, -⟩ := hstep.inv hinv
    obtain ⟨led', hall⟩ := ih hinv1
      (fun q hq => hstep.owned (hown q (List.mem_cons_of_mem p hq)) (hp q hq).symm) hrest
    exact ⟨led', .cons hstep hall⟩

/-- Canonical form. After any run the list is strictly ascending, linked both ways, and
without empty or touching blocks. It is determined by the set of free pages. Any family
of disjoint outstanding blocks can be given back, and leads to the same list in every
order. -/
theorem free_list_canonical {pa : Palloc} (hrun : Relation.ReflTransGen Step (start pa) led) :
    ∃ bs, led.sys.pa.Rep bs ∧ (bs.Pairwise fun b c => b.paddr < c.paddr) ∧
      (∀ b ∈ bs, 0 < b.size) ∧ (bs.Pairwise fun b c => b.paddr + b.size < c.paddr) ∧
      (∀ pa' led' cs, Relation.ReflTransGen Step (start pa') led' → led'.sys.pa.Rep cs →
        pageNumbers bs = pageNumbers cs → bs.map Blk.region = cs.map Blk.region) ∧
      ∀ fs : List Pages, (∀ p ∈ fs, led.Owned p) →
        (fs.Pairwise fun p q => Disjoint (region p).bytes (region q).bytes) →
        (∃ led₁, FreeAll led fs led₁) ∧
        ∀ gs led₁ led₂ bs₁ bs₂, fs.Perm gs → FreeAll led fs led₁ → FreeAll led gs led₂ →
          led₁.sys.pa.Rep bs₁ → led₂.sys.pa.Rep bs₂ →
          bs₁.map Blk.region = bs₂.map Blk.region := by
  obtain ⟨bs, hinv⟩ := run_inv hrun
  refine ⟨bs, hinv.sys.rep, ?_, fun b hb => (hinv.sys.ok b hb).pos, hinv.sys.canon, ?_, ?_⟩
  · refine hinv.sys.canon.imp fun {b c} hbc => ?_
    unfold Blk.stop at hbc
    omega
  · intro pa' led' cs hrun' hrep hpages
    obtain ⟨cs', hinv'⟩ := run_inv hrun'
    obtain rfl := hinv'.sys.rep.unique hrep
    exact hinv.sys.eq_of_pageNumbers hinv'.sys hpages
  · intro fs hown hdisj
    refine ⟨FreeAll.exists hinv hown hdisj, ?_⟩
    intro gs led₁ led₂ bs₁ bs₂ hperm h₁ h₂ hrep₁ hrep₂
    obtain ⟨cs₁, hinv₁, hcov₁⟩ := h₁.inv hinv
    obtain ⟨cs₂, hinv₂, hcov₂⟩ := h₂.inv hinv
    obtain rfl := hinv₁.sys.rep.unique hrep₁
    obtain rfl := hinv₂.sys.rep.unique hrep₂
    refine hinv₁.sys.separated.ext hinv₂.sys.separated fun x => ?_
    rw [hcov₁, hcov₂]
    unfold Covered
    simp only [List.mem_map, hperm.mem_iff]

/-- Three pages are donated, handed out one by one, and the outer two given back. -/
theorem free_list_canonical_three_pages :
    ∃ led : Ledger, led.outstanding = [⟨0x3000, 0x1000⟩, ⟨0x2000, 0x1000⟩, ⟨0x1000, 0x1000⟩] ∧
      ∃ led₁ led₂, FreeAll led [⟨0x1000, 0x1000, 0⟩, ⟨0x3000, 0x1000, 0⟩] led₁ ∧
        FreeAll led [⟨0x3000, 0x1000, 0⟩, ⟨0x1000, 0x1000, 0⟩] led₂ ∧
        ∀ bs₁ bs₂, led₁.sys.pa.Rep bs₁ → led₂.sys.pa.Rep bs₂ →
          bs₁.map Blk.region = bs₂.map Blk.region := by
  have hrun : ∃ led, Relation.ReflTransGen Step (start ⟨fun _ => ⟨.null, .null, 0, 0⟩, 0⟩) led ∧
      led.outstanding = [⟨0x3000, 0x1000⟩, ⟨0x2000, 0x1000⟩, ⟨0x1000, 0x1000⟩] := by
    refine ⟨_, .tail (.tail (.tail (.tail .refl (@Step.donate _ 1 0x80 ⟨0x1000, 0x3000, 0⟩ _
      ⟨by decide, by decide, by decide, by decide⟩ (by simp [start]) (by simp [start]) rfl))
      (@Step.alloc _ 2 ⟨0, 0x1000, 0⟩ _ _ _ (by decide) rfl))
      (@Step.alloc _ 2 ⟨0, 0x1000, 0⟩ _ _ _ (by decide) rfl))
      (@Step.alloc _ 2 ⟨0, 0x1000, 0⟩ _ _ _ (by decide) rfl), rfl⟩
  obtain ⟨led, hled, hout⟩ := hrun
  obtain ⟨bs, -, -, -, -, -, hfree⟩ := free_list_canonical hled
  have hown : ∀ a, a = 0x1000 ∨ a = 0x3000 → led.Owned ⟨a, 0x1000, 0⟩ := by
    rintro a (rfl | rfl)
    · exact ⟨⟨by decide, by decide, by decide, by decide⟩, ⟨0x1000, 0x1000⟩, by simp [hout],
        by decide, by decide⟩
    · exact ⟨⟨by decide, by decide, by decide, by decide⟩, ⟨0x3000, 0x1000⟩, by simp [hout],
        by decide, by decide⟩
  have hdisj : Disjoint (region ⟨0x1000, 0x1000, 0⟩).bytes (region ⟨0x3000, 0x1000, 0⟩).bytes :=
    (Region.disjoint_iff (by decide) (by decide)).mpr (by decide)
  obtain ⟨⟨led₁, h₁⟩, hsame⟩ := hfree [⟨0x1000, 0x1000, 0⟩, ⟨0x3000, 0x1000, 0⟩]
    (by simp [hown]) (by simpa using hdisj)
  obtain ⟨⟨led₂, h₂⟩, -⟩ := hfree [⟨0x3000, 0x1000, 0⟩, ⟨0x1000, 0x1000, 0⟩]
    (by simp [hown]) (by simpa using hdisj.symm)
  exact ⟨led, hout, led₁, led₂, h₁, h₂,
    fun bs₁ bs₂ => hsame _ led₁ led₂ bs₁ bs₂ (List.Perm.swap _ _ _) h₁ h₂⟩

/-- What is free is what was donated and is not outstanding. -/
theorem Inv.covered_free (h : led.Inv bs) (x : Nat) :
    Covered (bs.map Blk.region) x ↔ Covered led.donated x ∧ ¬ Covered led.outstanding x := by
  have hcovers := h.part.covers x
  rw [covered_append, Set.mem_ofPred_eq] at hcovers
  constructor
  · rintro ⟨b, hb, hx⟩
    refine ⟨hcovers.mp (.inl ⟨b, hb, hx⟩), ?_⟩
    rintro ⟨o, ho, hxo⟩
    have hdisj := (List.pairwise_append.mp h.part.disjoint).2.2 b hb o ho
    exact Set.disjoint_left.mp hdisj hx hxo
  · rintro ⟨hdonated, hout⟩
    exact (hcovers.mpr hdonated).resolve_right hout

/-- **No memory of the past.** Two runs that were donated the same memory and have the same memory
outstanding end with the same blocks on the free list and the same free size, whatever happened
on the way. -/
theorem free_list_history_independent {pa pa' : Palloc}
    (hrun : Relation.ReflTransGen Step (start pa) led)
    (hrun' : Relation.ReflTransGen Step (start pa') led')
    (hdonated : ∀ x, Covered led.donated x ↔ Covered led'.donated x)
    (hout : ∀ x, Covered led.outstanding x ↔ Covered led'.outstanding x) :
    ∃ bs bs', led.sys.pa.Rep bs ∧ led'.sys.pa.Rep bs' ∧ bs.map Blk.region = bs'.map Blk.region ∧
      led.sys.pa.getFree = led'.sys.pa.getFree := by
  obtain ⟨bs, h⟩ := run_inv hrun
  obtain ⟨bs', h'⟩ := run_inv hrun'
  have hregions : bs.map Blk.region = bs'.map Blk.region := by
    refine h.sys.separated.ext h'.sys.separated fun x => ?_
    rw [h.covered_free, h'.covered_free, hdonated, hout]
  have hsizes := congrArg (List.map Region.len) hregions
  rw [List.map_map, List.map_map] at hsizes
  refine ⟨bs, bs', h.sys.rep, h'.sys.rep, hregions, ?_⟩
  rw [Palloc.getFree, Palloc.getFree, h.sys.free, h'.sys.free]
  exact congrArg List.sum hsizes

/-- Two pages are donated at once, or one after the other in the other order. -/
theorem free_list_history_independent_two_pages : ∃ led led' : Ledger,
    led.donated = [⟨0x1000, 0x2000⟩] ∧ led'.donated = [⟨0x1000, 0x1000⟩, ⟨0x2000, 0x1000⟩] ∧
    led.sys.pa.getFree = led'.sys.pa.getFree := by
  obtain ⟨-, -, -, -, -, hfree⟩ := free_list_history_independent
    (.tail .refl (@Step.donate (start ⟨fun _ => ⟨.null, .null, 0, 0⟩, 0⟩) 1 0x80
      ⟨0x1000, 0x2000, 0⟩ _ ⟨by decide, by decide, by decide, by decide⟩ (by simp [start])
      (by simp [start]) rfl))
    (.tail (.tail .refl (@Step.donate (start ⟨fun _ => ⟨.null, .null, 0, 0⟩, 0⟩) 1 0x80
      ⟨0x2000, 0x1000, 0⟩ _ ⟨by decide, by decide, by decide, by decide⟩ (by simp [start])
      (by simp [start]) rfl)) (@Step.donate _ 2 0xc0 ⟨0x1000, 0x1000, 0⟩ _
      ⟨by decide, by decide, by decide, by decide⟩ (by simpa [start] using
      (Region.disjoint_iff (by decide) (by decide)).mpr (by decide)) (by decide) rfl))
    (fun x => by simp [region, start, Region.stop]; omega) (fun x => Iff.rfl)
  exact ⟨_, _, rfl, rfl, hfree⟩

end Ledger

end AimKernel
