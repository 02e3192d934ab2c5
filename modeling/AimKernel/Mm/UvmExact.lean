import AimKernel.Mm.UvmSpecs
import Mathlib.Data.List.Perm.Subperm

/-!
# AimKernel.Mm.UvmExact

What the user memory calls do to the books, exactly.

`Extra` compares two states: the later one has certain VMAs more, each with its entry,
its frame and its two objects, and otherwise they are the same, leaf tables included.
Rounds add up (`Extra.trans`), and if the same VMAs come and go, in whatever order, then
everything is as it was (`Extra.unique`).

The loops do not need the invariant of the address spaces. The VMAs that are there already
may be of any size, as long as the page index maps nothing that the call is about to
map, and has no leaf table in vain (`PageMap.Tight`). Where the invariant holds before a
loop, it holds afterwards (`Tended`).
-/

namespace AimKernel

open Function (update update_eq_self update_idem update_of_ne update_self)

/-! ### Page indexes with more entries -/

/-- Leaf tables are there exactly where something is mapped. -/
def PageMap.Tight (M : PageMap) : Prop := ∀ i, M.leaf i ≠ none ↔ ∃ v, pdx v = i ∧ M.pte v ≠ 0

/-- `N` is `M` with entries for the VMAs `ys`. -/
structure Overlay (M N : PageMap) (ys : List Vma) : Prop where
  tight : M.Tight
  tight' : N.Tight
  fresh : ∀ y ∈ ys, M.pte y.start = 0
  mapped : ∀ y ∈ ys, N.pte y.start ≠ 0
  same : ∀ v, (∀ y ∈ ys, y.start ≠ v) → N.pte v = M.pte v
  leaf : ∀ i, M.leaf i ≠ none → N.leaf i = M.leaf i

namespace Overlay

variable {M N O : PageMap} {xs ys : List Vma} {x : Vma}

theorem refl (h : M.Tight) : Overlay M M [] where
  tight := h
  tight' := h
  fresh _ hy := nomatch hy
  mapped _ hy := nomatch hy
  same _ _ := rfl
  leaf _ _ := rfl

theorem kept (h : Overlay M N ys) {v : Nat} (hv : M.pte v ≠ 0) : N.pte v = M.pte v := by
  refine h.same v ?_
  rintro y hy rfl
  exact hv (h.fresh y hy)

theorem of_mem_iff (h : Overlay M N xs) (hmem : ∀ y, y ∈ ys ↔ y ∈ xs) : Overlay M N ys where
  tight := h.tight
  tight' := h.tight'
  fresh y hy := h.fresh y ((hmem y).mp hy)
  mapped y hy := h.mapped y ((hmem y).mp hy)
  same v hv := h.same v fun y hy => hv y ((hmem y).mpr hy)
  leaf := h.leaf

theorem trans (h : Overlay M N xs) (h' : Overlay N O ys) : Overlay M O (xs ++ ys) where
  tight := h.tight
  tight' := h'.tight'
  fresh y hy := by
    rcases List.mem_append.mp hy with hy | hy
    · exact h.fresh y hy
    · by_contra hne
      exact hne ((h.kept hne).symm.trans (h'.fresh y hy))
  mapped y hy := by
    rcases List.mem_append.mp hy with hy | hy
    · rw [h'.kept (h.mapped y hy)]
      exact h.mapped y hy
    · exact h'.mapped y hy
  same v hv := by
    rw [h'.same v fun y hy => hv y (List.mem_append_right xs hy),
      h.same v fun y hy => hv y (List.mem_append_left ys hy)]
  leaf i hi := by
    rw [h'.leaf i (h.leaf i hi ▸ hi), h.leaf i hi]

/-- Where the entries have gone again, everything is as it was. -/
theorem unique {M' : PageMap} (h : Overlay M N ys) (h' : Overlay M' N ys) : M' = M := by
  have hpte : M'.pte = M.pte := by
    funext v
    by_cases hv : ∃ y ∈ ys, y.start = v
    · obtain ⟨y, hy, rfl⟩ := hv
      rw [h.fresh y hy, h'.fresh y hy]
    · have hnot : ∀ y ∈ ys, y.start ≠ v := fun y hy heq => hv ⟨y, hy, heq⟩
      rw [← h.same v hnot, h'.same v hnot]
  have hthere : ∀ i, M'.leaf i ≠ none ↔ M.leaf i ≠ none := by
    intro i
    rw [h.tight i, h'.tight i, hpte]
  have hleaf : M'.leaf = M.leaf := by
    funext i
    by_cases hi : M.leaf i = none
    · rw [hi]
      by_contra hne
      exact (hthere i).mp hne hi
    · rw [← h.leaf i hi, h'.leaf i ((hthere i).mpr hi)]
  cases M'
  cases hpte
  cases hleaf
  rfl

end Overlay

/-! ### States with more VMAs -/

/-- The objects of a VMA. -/
def Vma.objects (x : Vma) : List Nat := [x.pages.addr, x.addr]

/-- The frames behind VMAs. -/
def framesOf (xs : List Vma) : List Nat := xs.map fun x => x.pages.paddr

/-- The objects of VMAs. -/
def objectsOf (xs : List Vma) : List Nat := xs.flatMap Vma.objects

/-- `t` has the VMAs `ys` more than `s`, in the page index `q`. -/
structure Extra (q : Nat) (M N : PageMap) (ys : List Vma) (s t : Vm Books) : Prop where
  before : s.pages.indexes q = some M
  after : t.pages.indexes = Function.update s.pages.indexes q (some N)
  overlay : Overlay M N ys
  plain : t.pages.plain.Perm (framesOf ys ++ s.pages.plain)
  objs : t.desk.objs.Perm (objectsOf ys ++ s.desk.objs)

namespace Extra

variable {q : Nat} {M N O : PageMap} {xs ys : List Vma} {x : Vma} {s t u : Vm Books}

theorem index (h : Extra q M N ys s t) : t.pages.indexes q = some N := by
  rw [h.after, update_self]

theorem refl (hM : s.pages.indexes q = some M) (htight : M.Tight) : Extra q M M [] s s :=
  ⟨hM, by rw [← hM, update_eq_self], .refl htight, .refl _, .refl _⟩

theorem perm (h : Extra q M N xs s t) (hp : xs.Perm ys) : Extra q M N ys s t where
  before := h.before
  after := h.after
  overlay := h.overlay.of_mem_iff fun _ => hp.mem_iff.symm
  plain := h.plain.trans ((hp.map _).append_right _)
  objs := h.objs.trans ((hp.flatMap_right _).append_right _)

theorem trans (h : Extra q M N xs s t) (h' : Extra q N O ys t u) :
    Extra q M O (xs ++ ys) s u where
  before := h.before
  after := by rw [h'.after, h.after, update_idem]
  overlay := h.overlay.trans h'.overlay
  plain := by
    rw [framesOf, List.map_append, List.append_assoc]
    refine h'.plain.trans ((h.plain.append_left _).trans ?_)
    rw [← List.append_assoc, ← List.append_assoc]
    exact List.perm_append_comm.append_right _
  objs := by
    rw [objectsOf, List.flatMap_append, List.append_assoc]
    refine h'.objs.trans ((h.objs.append_left _).trans ?_)
    rw [← List.append_assoc, ← List.append_assoc]
    exact List.perm_append_comm.append_right _

/-- Where the VMAs have gone again, everything is as it was. -/
theorem unique {M' : PageMap} {s' : Vm Books} (h : Extra q M N ys s t)
    (h' : Extra q M' N ys s' t) :
    s'.pages.indexes = s.pages.indexes ∧ s'.pages.plain.Perm s.pages.plain ∧
      s'.desk.objs.Perm s.desk.objs := by
  have hM := h.overlay.unique h'.overlay
  refine ⟨?_, ?_, ?_⟩
  · have hboth := h'.after.symm.trans h.after
    funext p
    by_cases hp : p = q
    · rw [hp, h.before, h'.before, hM]
    · have := congrFun hboth p
      rw [update_of_ne hp, update_of_ne hp] at this
      exact this
  · exact (List.perm_append_left_iff _).mp (h'.plain.symm.trans h.plain)
  · exact (List.perm_append_left_iff _).mp (h'.objs.symm.trans h.objs)

/-- Frames that are held with the VMAs are held without them, except for those of the VMAs
and of the leaf tables that only they need. -/
theorem mem_frames {p p' : Phys} (h : Extra q M N ys s t) (hs : Represents p s.pages)
    (ht : Represents p' t.pages) (f : Nat) :
    f ∈ s.pages.frames ↔ f ∈ t.pages.frames ∧ f ∉ framesOf ys ∧
      ∀ i, N.leaf i = some f → M.leaf i = some f := by
  have hleaf : ∀ i, M.leaf i = some f → N.leaf i = some f := by
    intro i hi
    rw [h.overlay.leaf i (by rw [hi]; exact Option.some_ne_none f), hi]
  have hrole : ∀ p1, p1 ≠ q → ∀ slot, tableRole t.pages.indexes (p1, slot) =
      tableRole s.pages.indexes (p1, slot) := by
    intro p1 hp slot
    rw [h.after]
    cases slot <;> simp [tableRole, update_of_ne hp]
  have hdir : tableRole t.pages.indexes (q, none) = tableRole s.pages.indexes (q, none) := by
    rw [tableRole_dir h.index, tableRole_dir h.before]
  have hplain : f ∈ t.pages.plain ↔ f ∈ framesOf ys ∨ f ∈ s.pages.plain := by
    rw [h.plain.mem_iff, List.mem_append]
  have hnodup : (framesOf ys ++ s.pages.plain).Nodup := h.plain.nodup_iff.mp ht.plainNodup
  -- a table of the smaller state is the same table of the larger one
  have hup : ∀ r, tableRole s.pages.indexes r = some f → tableRole t.pages.indexes r = some f := by
    rintro ⟨p1, slot⟩ hr
    by_cases hp : p1 = q
    · subst hp
      cases slot with
      | none => rw [hdir, hr]
      | some i =>
        rw [tableRole_leaf h.before] at hr
        rw [tableRole_leaf h.index, hleaf i hr]
    · rw [hrole p1 hp, hr]
  constructor
  · intro hf
    rcases hs.owned.mem_iff.mp hf with hold | ⟨r, hr⟩
    · have hmem := hplain.mpr (.inr hold)
      refine ⟨ht.plain_mem hmem, fun hys => (List.nodup_append.mp hnodup).2.2 f hys f hold rfl, ?_⟩
      intro i hi
      exact absurd hmem (ht.owned.apart ((tableRole_leaf h.index i).trans hi))
    · refine ⟨ht.owned.mem_of_role (hup r hr), fun hys => ?_, fun i hi => ?_⟩
      · exact ht.owned.apart (hup r hr) (hplain.mpr (.inl hys))
      · have heq := ht.owned.inj (hup r hr) ((tableRole_leaf h.index i).trans hi)
        rw [heq, tableRole_leaf h.before] at hr
        exact hr
  · rintro ⟨hf, hys, hkept⟩
    rcases ht.owned.mem_iff.mp hf with hmem | ⟨⟨p1, slot⟩, hr⟩
    · exact hs.plain_mem ((hplain.mp hmem).resolve_left hys)
    · by_cases hp : p1 = q
      · subst hp
        cases slot with
        | none => exact hs.owned.mem_of_role (hdir.symm.trans hr)
        | some i =>
          rw [tableRole_leaf h.index] at hr
          exact hs.leaf_mem h.before (hkept i hr)
      · exact hs.owned.mem_of_role ((hrole p1 hp slot).symm.trans hr)

end Extra

/-- One VMA more, as a round of a loop adds it. -/
theorem Added.extra {a : Nat} {mm : Mm} {l r : List Vma} {M M' : PageMap} {x : Vma}
    {s s' : Vm Books} (h : Added a mm l r M M' x s s') (hM : s.pages.indexes mm.pgindex = some M)
    (htight : M.Tight) (hfresh : M.pte x.start = 0) : Extra mm.pgindex M M' [x] s s' := by
  have hnew : M'.pte x.start ≠ 0 := by
    rw [h.pte, update_self]
    exact pteFor_ne_zero _ _
  have hold : ∀ v, v ≠ x.start → M'.pte v = M.pte v := by
    intro v hv
    rw [h.pte, update_of_ne hv]
  have htight' : M'.Tight := by
    intro i
    rw [h.leaf, htight]
    constructor
    · rintro (⟨v, hslot, hv⟩ | rfl)
      · have hne : v ≠ x.start := by
          rintro rfl
          exact hv hfresh
        exact ⟨v, hslot, by rw [hold v hne]; exact hv⟩
      · exact ⟨x.start, rfl, hnew⟩
    · rintro ⟨v, hslot, hv⟩
      by_cases hvx : v = x.start
      · exact .inr (hvx ▸ hslot.symm)
      · exact .inl ⟨v, hslot, by rw [← hold v hvx]; exact hv⟩
  refine ⟨hM, h.indexes, ⟨htight, htight', ?_, ?_, ?_, h.kept⟩, ?_, ?_⟩
  · intro y hy
    rw [List.mem_singleton.mp hy]
    exact hfresh
  · intro y hy
    rw [List.mem_singleton.mp hy]
    exact hnew
  · intro v hv
    exact hold v (hv x List.mem_cons_self).symm
  · rw [h.plain]
    exact .refl _
  · rw [h.objs]
    exact .refl _

/-! ### Taking VMAs away -/

section Loops

variable {s : Vm Books} {a : Nat} {mm : Mm} {l r : List Vma}

/-- VMAs that can be taken apart: their pages are mapped, and their frames and objects
are handed out. -/
structure Intact (N : PageMap) (xs : List Vma) (s : Vm Books) : Prop where
  shape : ∀ x ∈ xs, x.OK
  mapped : ∀ x ∈ xs, N.pte x.start ≠ 0
  apart : xs.Pairwise fun x y => x.start ≠ y.start
  frames : (framesOf xs).Subperm s.pages.plain
  objects : (objectsOf xs).Subperm s.desk.objs

variable {M N : PageMap} {x : Vma} {xs : List Vma} {Q : Unit → Vm Books → Prop} {v : Nat}
  {s s' : Vm Books}

/-- What is left after one VMA is taken apart can be taken apart. -/
theorem Intact.rest {q : Nat} {N1 : PageMap} {s1 : Vm Books} (h : Intact N (x :: xs) s)
    (he : Extra q N1 N [x] s1 s) : Intact N1 xs s1 := by
  obtain ⟨hx, hxs⟩ := List.pairwise_cons.mp h.apart
  refine ⟨fun y hy => h.shape y (List.mem_cons_of_mem x hy), ?_, hxs, ?_, ?_⟩
  · intro y hy
    have hsame : N.pte y.start = N1.pte y.start := he.overlay.same _ fun z hz => by
      rw [List.mem_singleton.mp hz]
      exact hx y hy
    rw [← hsame]
    exact h.mapped y (List.mem_cons_of_mem x hy)
  · have := h.frames.trans he.plain.subperm
    exact (List.subperm_cons _).mp this
  · have := h.objects.trans he.objs.subperm
    exact (List.subperm_append_left x.objects).mp this

theorem Mm.OK.tight {vmas : List Vma} (h : Mm.OK M vmas) : M.Tight := by
  intro i
  rw [h.leaf]
  constructor
  · rintro ⟨x, hx, hslot⟩
    exact ⟨x.start, hslot, (h.mapped x hx).1⟩
  · rintro ⟨v, hslot, hv⟩
    obtain ⟨x, hx, rfl⟩ := h.backed v hv
    exact ⟨x, hx, hslot⟩

variable {base baseObjs : List Nat} {mms : Nat → Option Mm}

/-- The VMAs of an address space can be taken apart. -/
theorem Good.intact (h : Good base baseObjs mms s) (hmm : mms a = some mm)
    (hM : s.pages.indexes mm.pgindex = some M) (hvmas : mm.vmas = l ++ (xs ++ r)) :
    Intact M xs s := by
  have hok := h.inv.spaces.ok hmm hM
  have hsub : ∀ x ∈ xs, x ∈ mm.vmas := by
    intro x hx
    rw [hvmas]
    simp [hx]
  have hat : ∀ x ∈ xs, vmaAt mms (a, x.start) = some x := by
    intro x hx
    exact hok.vmaAt_start hmm (hsub x hx)
  have huser : ∀ x ∈ xs, userRole mms (a, x.start) = some x.pages.paddr := by
    intro x hx
    simp [userRole, hat x hx]
  have hvma : ∀ x ∈ xs, objRole mms (.vma (a, x.start)) = some x.addr := by
    intro x hx
    simp [objRole, hat x hx]
  have hupages : ∀ x ∈ xs, objRole mms (.upages (a, x.start)) = some x.pages.addr := by
    intro x hx
    simp [objRole, hat x hx]
  have hapart : xs.Pairwise fun x y => x.start ≠ y.start := by
    have hsorted := hvmas ▸ hok.sorted
    have hxs := (List.pairwise_append.mp (List.pairwise_append.mp hsorted).2.1).1
    refine hxs.imp fun hxy => ?_
    have hpos : 0 < pageSize := by decide
    omega
  refine ⟨fun x hx => hok.vma x (hsub x hx), fun x hx => (hok.mapped x (hsub x hx)).1, hapart,
    ?_, ?_⟩
  · refine List.subperm_of_subset (List.pairwise_map.mpr ?_) ?_
    · refine hapart.imp_of_mem fun hx hy hne heq => hne ?_
      have := h.inv.user.inj (huser _ hx) (heq ▸ huser _ hy)
      exact congrArg Prod.snd this
    · intro f hf
      obtain ⟨x, hx, rfl⟩ := List.mem_map.mp hf
      exact h.inv.user.mem_of_role (huser x hx)
  · refine List.subperm_of_subset (List.nodup_flatMap.mpr ⟨?_, ?_⟩) ?_
    · intro x hx
      refine List.nodup_cons.mpr ⟨?_, List.nodup_singleton _⟩
      intro hmem
      have heq := List.mem_singleton.mp hmem
      have := h.inv.object.inj (hupages x hx) (heq ▸ hvma x hx)
      cases this
    · refine hapart.imp_of_mem fun {x y} hx hy hne => ?_
      intro o hox hoy
      have hrole : ∀ z ∈ xs, o ∈ z.objects → ∃ use, objRole mms use = some o ∧
          (use = .upages (a, z.start) ∨ use = .vma (a, z.start)) := by
        intro z hz ho
        rcases List.mem_cons.mp ho with rfl | ho
        · exact ⟨_, hupages z hz, .inl rfl⟩
        · rw [List.mem_singleton.mp ho]
          exact ⟨_, hvma z hz, .inr rfl⟩
      obtain ⟨u, hu, hux⟩ := hrole x hx hox
      obtain ⟨w, hw, hwy⟩ := hrole y hy hoy
      have := h.inv.object.inj hu hw
      rcases hux with rfl | rfl <;> rcases hwy with rfl | rfl <;> simp_all
    · intro o ho
      obtain ⟨x, hx, ho⟩ := List.mem_flatMap.mp ho
      rcases List.mem_cons.mp ho with rfl | ho
      · exact h.inv.object.mem_of_role (hupages x hx)
      · rw [List.mem_singleton.mp ho]
        exact h.inv.object.mem_of_role (hvma x hx)

/-- What `unmap_pages` frees is mapped nowhere. -/
theorem Good.log_unmap (h : Good base baseObjs mms s) {q : Nat} {N1 : PageMap} {t : Books}
    (hN : s.pages.indexes q = some N) (hpte : N1.pte = update N.pte v 0)
    (hfreed : t.freed = s.pages.freed ∨ ∃ f, N.leaf (pdx v) = some f ∧ t.freed =
      (f, update s.pages.indexes q (some { N with pte := N1.pte })) :: s.pages.freed) :
    ∀ y ∈ t.freed, Unmapped y.2 y.1 := by
  rcases hfreed with hsame | ⟨f, hf, hcons⟩
  · rw [hsame]
    exact h.log
  · rw [hcons]
    refine List.forall_mem_cons.mpr ⟨?_, h.log⟩
    -- a leaf table is no plain frame, and nothing else is mapped
    have hbefore := h.inv.unmapped (h.real.leaf_not_plain hN hf)
    intro p K w hK hne
    rcases update_some_eq hK with ⟨-, rfl⟩ | ⟨-, hK⟩
    · have hwv : w ≠ v := by
        rintro rfl
        rw [hpte, update_self] at hne
        exact hne rfl
      rw [hpte, update_of_ne hwv] at hne ⊢
      exact hbefore _ N w hN hne
    · exact hbefore p K w hK hne

/-- Unmapping the page of a VMA and freeing its frame and its objects. -/
theorem wp_freeVma (a : Nat) (mm : Mm) (hreal : s.pages.Real)
    (hN : s.pages.indexes mm.pgindex = some N) (htight : N.Tight) (hx : Intact N (x :: xs) s)
    (hQ : ∀ s1 N1, s1.pages.Real → s1.desk.mms = s.desk.mms → s1.desk.fixed = s.desk.fixed →
      Extra mm.pgindex N1 N [x] s1 s →
      (∀ {base baseObjs mms l r}, Good base baseObjs mms s → mms a = some mm →
        mm.vmas = l ++ x :: r → Good base baseObjs (setVmas mms a mm (l ++ r)) s1) → Q () s1) :
    wp (onPages (Books.ops.unmapPages mm.pgindex x.start x.size)) (fun result s' =>
      result = (x.size, some (ptePaddr (N.pte x.start))) ∧
        wp (unrefAndFreeUpages Books.ops x.pages) (fun _ => wp (kfree x.addr) Q) s') s := by
  have hshape := hx.shape x List.mem_cons_self
  have hmapped := hx.mapped x List.mem_cons_self
  have hframe : x.pages.paddr ∈ s.pages.plain := hx.frames.subset (by simp [framesOf])
  have hobjects : x.objects.Subperm s.desk.objs :=
    (List.sublist_append_left x.objects (objectsOf xs)).subperm.trans hx.objects
  have hupages : x.pages.addr ∈ s.desk.objs := hobjects.subset (by simp [Vma.objects])
  have hvma : x.addr ∈ s.desk.objs.erase x.pages.addr := by
    have := (List.subperm_cons x.pages.addr).mp
      (hobjects.trans (List.perm_cons_erase hupages).subperm)
    exact this.subset List.mem_cons_self
  have hpages : x.pages.toPages = ⟨x.pages.paddr, pageSize, 0⟩ := by
    rw [← hshape.psize, ← hshape.pflags]
  rw [wp_onPages, hshape.size]
  apply wp_books_unmapPages hreal hN hshape.page hshape.bound
    ((htight _).mpr ⟨x.start, rfl, hmapped⟩)
  intro N1 t hreal1 hpte hleaf hkept hplain hindexes hfreed
  refine ⟨rfl, ?_⟩
  rw [unrefAndFreeUpages, hshape.refs, if_pos (by decide), wp_bind, wp_onPages, hpages]
  apply wp_books_freePages hreal1
  · rw [hplain]
    exact hframe
  intro hreal2
  apply wp_kfree
  · exact hupages
  apply wp_kfree
  · exact hvma
  dsimp only [Vm.setObjs]
  have hold : ∀ v, v ≠ x.start → N.pte v = N1.pte v := by
    intro v hv
    rw [hpte, update_of_ne hv]
  have hgone : N1.pte x.start = 0 := by
    rw [hpte, update_self]
  have htight1 : N1.Tight := by
    intro i
    rw [hleaf, htight]
    constructor
    · rintro ⟨⟨v, hslot, hv⟩, hlast⟩
      by_cases hvx : v = x.start
      · exact hlast (hslot.symm.trans (congrArg pdx hvx))
      · exact ⟨v, hslot, by rw [← hold v hvx]; exact hv⟩
    · rintro ⟨v, hslot, hv⟩
      have hvx : v ≠ x.start := by
        rintro rfl
        exact hv hgone
      exact ⟨⟨v, hslot, by rw [hold v hvx]; exact hv⟩, fun _ => ⟨v, hslot, hv⟩⟩
  have hself : update (update s.pages.indexes mm.pgindex (some N1)) mm.pgindex
      (some N) = s.pages.indexes := by
    rw [update_idem, ← hN, update_eq_self]
  refine hQ _ N1 hreal2 rfl rfl ⟨?_, ?_, ⟨htight1, htight, ?_, ?_, ?_, hkept⟩, ?_, ?_⟩ ?_
  · dsimp only
    rw [hindexes, update_self]
  · dsimp only
    rw [hindexes, hself]
  · intro y hy
    rw [List.mem_singleton.mp hy]
    exact hgone
  · intro y hy
    rw [List.mem_singleton.mp hy]
    exact hmapped
  · intro v hv
    exact hold v (hv x List.mem_cons_self).symm
  · dsimp only
    rw [hplain]
    exact List.perm_cons_erase hframe
  · exact (List.perm_cons_erase hupages).trans ((List.perm_cons_erase hvma).cons _)
  · intro base baseObjs mms l r h hmm hvmas
    have hok := h.inv.spaces.ok hmm hN
    rw [hvmas] at hok
    obtain ⟨-, hinv⟩ := h.inv.shrink hmm hvmas hok (hok.shrink hpte hleaf)
    rw [← hplain, ← hindexes] at hinv
    have hpage := hinv.unmapped (List.Nodup.not_mem_erase hreal1.plainNodup)
    exact ⟨hreal2, List.forall_mem_cons.mpr ⟨hpage, h.log_unmap hN hpte hfreed⟩, hinv⟩

/-- **`__unmap_and_free_vma`** takes the VMAs `xs` away, and nothing else. -/
theorem wp_unmapAndFreeLoop_exact {k size fuel i : Nat} (hreal : s.pages.Real)
    (hmm : s.desk.mms a = some mm) (hvmas : mm.vmas = l ++ (xs ++ r)) (hk : k = l.length)
    (hN : s.pages.indexes mm.pgindex = some N) (htight : N.Tight) (hxs : Intact N xs s)
    (hsize : size = i + xs.length * pageSize) (hlt : size < 2 ^ 32) (hfuel : xs.length ≤ fuel)
    (hQ : ∀ s' N', s'.pages.Real → s'.desk.mms = setVmas s.desk.mms a mm (l ++ r) →
      Tended s s' → Extra mm.pgindex N' N xs s' s → Q () s') :
    wp (unmapAndFreeLoop Books.ops a k size fuel i) Q s := by
  induction xs generalizing s mm fuel i N with
  | nil =>
    rw [unmapAndFreeLoop.eq_def, if_neg (by simp [hsize]), wp_pure]
    exact hQ s N hreal (setVmas_self hmm hvmas).symm ⟨id, rfl⟩ (.refl hN htight)
  | cons x xs ih =>
    have hpos : 0 < pageSize := by decide
    have hshape := hxs.shape x List.mem_cons_self
    rw [List.length_cons, Nat.add_mul, Nat.one_mul] at hsize
    obtain ⟨fuel, rfl⟩ : ∃ n, fuel = n + 1 := ⟨fuel - 1, by rw [List.length_cons] at hfuel; omega⟩
    have hget : mm.vmas[k]? = some x := by
      rw [hvmas, hk]
      simp
    have herase : mm.vmas.eraseIdx k = l ++ (xs ++ r) := by
      rw [hvmas, hk, List.eraseIdx_append_of_length_le (Nat.le_refl _), Nat.sub_self]
      rfl
    rw [unmapAndFreeLoop, if_pos (by omega), wp_bind]
    apply wp_getMm hmm
    rw [hget]
    rw [wp_bind, wp_setMm, herase, wp_bind]
    have hintact : Intact N (x :: xs) (s.setMms (setVmas s.desk.mms a mm (l ++ (xs ++ r)))) :=
      ⟨hxs.shape, hxs.mapped, hxs.apart, hxs.frames, hxs.objects⟩
    refine wp_mono (wp_freeVma a mm
      (Q := fun _ => wp (unmapAndFreeLoop Books.ops a k size fuel (u32 (i + x.size))) Q)
      hreal hN htight hintact ?_) ?_
    · -- the rounds that are left
      intro s1 N1 hreal1 hmms1 hfixed1 hone hgood
      have hnext : u32 (i + x.size) = i + pageSize := by
        rw [hshape.size]
        exact Nat.mod_eq_of_lt (by omega)
      have hspace : s1.desk.mms a = some { mm with vmas := l ++ (xs ++ r) } := by
        rw [hmms1]
        exact setVmas_apply ..
      have hone : Extra mm.pgindex N1 N [x] s1 s :=
        ⟨hone.before, hone.after, hone.overlay, hone.plain, hone.objs⟩
      refine ih hreal1 hspace rfl hone.before hone.overlay.tight (hxs.rest hone) (by omega)
        (by rw [List.length_cons] at hfuel; omega) ?_
      intro s' N' hreal' hmms' htended hmore
      refine hQ s' N' hreal' ?_ (Tended.trans ⟨fun h => ?_, hfixed1⟩ htended) ?_
      · rw [hmms', hmms1]
        exact setVmas_setVmas ..
      · rw [hmms1]
        exact hgood (h.setMms _) hmm hvmas
      · exact (hmore.trans hone).perm List.perm_append_comm
    · rintro ⟨unmapped, paddr⟩ s1 ⟨hunmapped, hrest⟩
      dsimp only at hunmapped ⊢
      rw [if_neg (not_not.mpr (congrArg Prod.fst hunmapped)), wp_bind]
      refine wp_mono hrest fun _ s2 h2 => ?_
      rw [wp_bind]
      exact h2

/-! ### Adding VMAs -/

/-- VMAs of one page each, at consecutive pages from `v` on. -/
structure PageVmas (xs : List Vma) (v flags : Nat) : Prop where
  shape : ∀ x ∈ xs, x.OK
  covers : Covers xs v
  flags : ∀ x ∈ xs, x.flags = flags

/-- The entries of the VMAs are those that their flags ask for. -/
def PageMap.Flagged (N : PageMap) (xs : List Vma) : Prop :=
  ∀ x ∈ xs, N.pte x.start = pteFor x.pages.paddr x.flags

/-- The frames that mapping `n` pages from `v` on takes. -/
def framesNeeded (missing : Nat → Bool) (v : Nat) : Nat → Nat
  | 0 => 0
  | n + 1 => framesNeeded (fun i => missing i && i != pdx v) (v + pageSize) n + pageCost missing v

/-- Every allocation that adding `n` pages from `v` on makes will succeed. -/
def Supplied (M : PageMap) (v n : Nat) (s : Vm Books) : Prop :=
  Stocked (· ≠ 0) s.desk.objs (2 * n) s.desk.ksupply ∧
    Stocked IsFrame s.pages.frames (framesNeeded M.missing v n) s.pages.supply

theorem Covers.mem_iff (h : Covers xs v) (hx : x ∈ xs) :
    ∃ j < xs.length, x.start = v + j * pageSize := by
  obtain ⟨j, hj, rfl⟩ := List.mem_iff_getElem.mp hx
  exact ⟨j, hj, h j _ (List.getElem?_eq_getElem hj)⟩

theorem Covers.apart (h : Covers xs v) :
    xs.Pairwise fun x y => x.start ≠ y.start := by
  rw [List.pairwise_iff_getElem]
  intro i j hi hj hij
  rw [h i _ (List.getElem?_eq_getElem hi), h j _ (List.getElem?_eq_getElem hj)]
  have hpos : 0 < pageSize := by decide
  have := Nat.mul_lt_mul_of_pos_right hij hpos
  omega

theorem Added.supplied {a : Nat} {mm : Mm} {l r : List Vma} {M' : PageMap}
    (h : Added a mm l r M M' x s s') (n : Nat) :
    Supplied M x.start (n + 1) s ↔ Supplied M' (x.start + pageSize) n s' := by
  have hmissing : M'.missing = fun i => M.missing i && i != pdx x.start := by
    funext i
    have hi := h.leaf i
    unfold PageMap.missing
    by_cases hx : i = pdx x.start
    · rw [hx, bne_self_eq_false, Bool.and_false]
      exact Option.isNone_eq_false_iff.mpr (Option.isSome_iff_ne_none.mpr
        ((h.leaf _).mpr (.inr rfl)))
    · rw [(bne_iff_ne).mpr hx, Bool.and_true, Bool.eq_iff_iff, Option.isNone_iff_eq_none,
        Option.isNone_iff_eq_none, ← not_iff_not]
      exact hi.trans (or_iff_left hx)
  unfold Supplied
  rw [hmissing, framesNeeded, h.supply, Nat.mul_add, h.ksupply]

theorem Undone.not_supplied {n : Nat} (h : Undone M v s s') :
    ¬ Supplied M v (n + 1) s := by
  rintro ⟨hk, hp⟩
  exact h.short ⟨hk.mono (by omega), hp.mono (by rw [framesNeeded]; omega)⟩

/-- From `s` to `s'` the VMAs `xs` have come between `l` and `r`, and nothing else has
changed. -/
structure Gained (a : Nat) (mm : Mm) (l r : List Vma) (M N : PageMap) (xs : List Vma)
    (s s' : Vm Books) : Prop where
  real : s'.pages.Real
  mms : s'.desk.mms = setVmas s.desk.mms a mm (l ++ (xs ++ r))
  fixed : s'.desk.fixed = s.desk.fixed
  extra : Extra mm.pgindex M N xs s s'
  shape : ∀ x ∈ xs, x.OK
  flagged : N.Flagged xs

namespace Gained

variable {M N O : PageMap} {x : Vma} {xs : List Vma} {s' s'' : Vm Books}

theorem refl (hreal : s.pages.Real) (hmm : s.desk.mms a = some mm) (hvmas : mm.vmas = l ++ r)
    (hM : s.pages.indexes mm.pgindex = some M) (htight : M.Tight) :
    Gained a mm l r M M [] s s :=
  ⟨hreal, (setVmas_self hmm hvmas).symm, rfl, .refl hM htight, (fun _ hy => nomatch hy),
    fun _ hy => nomatch hy⟩

theorem space (h : Gained a mm l r M N xs s s') :
    s'.desk.mms a = some { mm with vmas := l ++ (xs ++ r) } := by
  rw [h.mms]
  exact setVmas_apply ..

theorem undone {v : Nat} (h : Gained a mm l r M N xs s s') (hu : Undone N v s' s'') :
    Gained a mm l r M N xs s s'' :=
  ⟨hu.real, hu.mms.trans h.mms, hu.fixed.trans h.fixed,
    ⟨h.extra.before, hu.indexes.trans h.extra.after, h.extra.overlay, hu.plain ▸ h.extra.plain,
      hu.objs ▸ h.extra.objs⟩, h.shape, h.flagged⟩

theorem cons (hadd : Added a mm l r M N x s s') (hM : s.pages.indexes mm.pgindex = some M)
    (htight : M.Tight) (hfresh : M.pte x.start = 0)
    (h : Gained a { mm with vmas := l ++ x :: r } (l ++ [x]) r N O xs s' s'') :
    Gained a mm l r M O (x :: xs) s s'' := by
  have hlist : l ++ [x] ++ (xs ++ r) = l ++ (x :: xs ++ r) := by simp
  have hone := hadd.extra hM htight hfresh
  refine ⟨h.real, ?_, h.fixed.trans hadd.fixed, hone.trans h.extra, ?_, ?_⟩
  · rw [h.mms, hadd.mms, setVmas_setVmas, hlist]
  · intro y hy
    rcases List.mem_cons.mp hy with rfl | hy
    · exact hadd.shape
    · exact h.shape y hy
  · intro y hy
    rcases List.mem_cons.mp hy with rfl | hy
    · rw [h.extra.overlay.kept (hone.overlay.mapped y List.mem_cons_self), hadd.pte,
        update_self]
    · exact h.flagged y hy

/-- What has been added can be taken away again. -/
theorem intact (h : Gained a mm l r M N xs s s')
    (hxs : xs.Pairwise fun x y => x.start ≠ y.start) : Intact N xs s' where
  shape := h.shape
  mapped := h.extra.overlay.mapped
  apart := hxs
  frames := (List.sublist_append_left _ _).subperm.trans h.extra.plain.symm.subperm
  objects := (List.sublist_append_left _ _).subperm.trans h.extra.objs.symm.subperm

end Gained

/-- **The loop of `create_uvm`** adds one page after the other, and stops at the first
allocation that fails. -/
theorem wp_createLoop_exact {len flags n fuel mapped vcur place : Nat} {M : PageMap}
    (hreal : s.pages.Real) (hmm : s.desk.mms a = some mm) (hvmas : mm.vmas = l ++ r)
    (hplace : place = l.length) (hM : s.pages.indexes mm.pgindex = some M) (htight : M.Tight)
    (hfree : ∀ j < n, M.pte (vcur + j * pageSize) = 0) (hv : vcur % pageSize = 0)
    (hend : vcur + n * pageSize < 2 ^ 32) (hlen : len = mapped + n * pageSize)
    (hlt : len < 2 ^ 32) (hfuel : n ≤ fuel) :
    wp (createLoop Books.ops a len flags fuel mapped vcur place) (fun result s' =>
      ∃ xs N, Gained a mm l r M N xs s s' ∧ PageVmas xs vcur flags ∧
        result.2 = mapped + xs.length * pageSize ∧ xs.length ≤ n ∧
        (result.1 = 0 ∧ xs.length = n ∧ Supplied M vcur n s ∨
          result.1 = -ENOMEM ∧ ¬ Supplied M vcur n s) ∧
        ((∀ y ∈ l, y.start + pageSize ≤ vcur) → (∀ y ∈ r, vcur + n * pageSize ≤ y.start) →
          Tended s s')) s := by
  have hpos : 0 < pageSize := by decide
  induction n generalizing s mm l fuel mapped vcur place M with
  | zero =>
    rw [createLoop.eq_def, if_neg (by omega), wp_pure]
    have hnone : PageVmas [] vcur flags := ⟨by simp, by simp [Covers], by simp⟩
    exact ⟨[], M, .refl hreal hmm hvmas hM htight, hnone, by simp, Nat.le_refl _,
      .inl ⟨rfl, rfl, stocked_zero _ _, stocked_zero _ _⟩, fun _ _ => ⟨id, rfl⟩⟩
  | succ n ih =>
    rw [Nat.add_mul, Nat.one_mul] at hend hlen ⊢
    obtain ⟨fuel, rfl⟩ : ∃ f, fuel = f + 1 := ⟨fuel - 1, by omega⟩
    have hfresh : M.pte vcur = 0 := by simpa using hfree 0 (by omega)
    rw [createLoop, if_pos (by omega), wp_bind]
    refine wp_addVma hreal hmm hvmas hplace hM ⟨hv, by omega⟩ (by omega) hfresh
      (fun f t _ _ => wp_pure.mpr rfl) ?_ ?_
    · intro s' hundone
      have hnone : PageVmas [] vcur flags := ⟨by simp, by simp [Covers], by simp⟩
      rw [if_pos (by decide), wp_pure]
      exact ⟨[], M, (Gained.refl hreal hmm hvmas hM htight).undone hundone, hnone, by simp,
        by simp, .inr ⟨rfl, hundone.not_supplied⟩, fun _ _ => hundone.tended⟩
    · rintro s' x M' rfl rfl hadded
      have hstep : u32 (mapped + pageSize) = mapped + pageSize := Nat.mod_eq_of_lt (by omega)
      have hstep' : u32 (x.start + pageSize) = x.start + pageSize := Nat.mod_eq_of_lt (by omega)
      have hspace : s'.desk.mms a = some { mm with vmas := l ++ x :: r } := by
        rw [hadded.mms]
        exact setVmas_apply ..
      have hsplit : l ++ x :: r = (l ++ [x]) ++ r := by simp
      have hone := hadded.extra hM htight hfresh
      have hfree' : ∀ j < n, M'.pte (x.start + pageSize + j * pageSize) = 0 := by
        intro j hj
        have hold := hfree (j + 1) (by omega)
        rw [Nat.add_mul, Nat.one_mul, Nat.add_comm (j * pageSize), ← Nat.add_assoc] at hold
        rw [hadded.pte, update_of_ne (by omega)]
        exact hold
      rw [if_neg (by decide), hstep, hstep']
      refine wp_mono (ih hadded.real hspace hsplit (by simp [hplace]) hone.index
        hone.overlay.tight' hfree' ?_ (by omega) (by omega) (by omega)) ?_
      · rw [Nat.add_mod, hv, Nat.mod_self]
        rfl
      · rintro result s'' ⟨xs, N, hgained, hpages, hcount, hle, hret, htended⟩
        refine ⟨x :: xs, N, .cons hadded hM htight hfresh hgained, ⟨?_, Covers.cons_iff.mpr ⟨rfl, hpages.covers⟩, ?_⟩,
          ?_, Nat.succ_le_succ hle, ?_, fun hl hr => ?_⟩
        · exact List.forall_mem_cons.mpr ⟨hadded.shape, hpages.shape⟩
        · exact List.forall_mem_cons.mpr ⟨rfl, hpages.flags⟩
        · rw [hcount, List.length_cons, Nat.add_mul]
          omega
        · rw [hadded.supplied, List.length_cons, Nat.add_right_cancel_iff]
          exact hret
        · refine (hadded.tended hmm hvmas hM hl fun y hy => ?_).trans (htended
            (List.forall_mem_append.mpr ⟨fun y hy => Nat.le_add_right_of_le (hl y hy), by simp⟩)
            fun y hy => ?_)
          · have := hr y hy
            omega
          · have := hr y hy
            omega

end Loops

/-! ### `create_uvm` -/

/-- The two states hold the same: address spaces, page indexes, frames and objects. -/
structure Restored (s s' : Vm Books) : Prop where
  real : s'.pages.Real
  mms : s'.desk.mms = s.desk.mms
  indexes : s'.pages.indexes = s.pages.indexes
  plain : s'.pages.plain.Perm s.pages.plain
  objs : s'.desk.objs.Perm s.desk.objs

/-- Plain frames and page tables are all the frames there are. -/
theorem Restored.frames {s s' : Vm Books} (h : Restored s s') (hreal : s.pages.Real) :
    s'.pages.frames.Perm s.pages.frames := by
  obtain ⟨p, hp⟩ := hreal
  obtain ⟨p', hp'⟩ := h.real
  rw [List.perm_ext_iff_of_nodup hp'.owned.nodup hp.owned.nodup]
  intro f
  rw [hp'.owned.mem_iff, hp.owned.mem_iff, h.indexes, h.plain.mem_iff]

section Books

variable {s : Vm Books} {a : Nat} {mm : Mm} {l r : List Vma} {M N : PageMap} {xs : List Vma}

/-- Taking away what has been added restores the state. -/
theorem Gained.wp_rollback {s' : Vm Books} {size : Nat} {Q : Unit → Vm Books → Prop}
    (h : Gained a mm l r M N xs s s') (hmm : s.desk.mms a = some mm) (hvmas : mm.vmas = l ++ r)
    (hapart : xs.Pairwise fun x y => x.start ≠ y.start) (hsize : size = xs.length * pageSize)
    (hlt : size < 2 ^ 32) (hQ : ∀ s'', Restored s s'' → Tended s' s'' → Q () s'') :
    wp (unmapAndFreeVma Books.ops a l.length size) Q s' := by
  have hfuel : xs.length ≤ maxPages := by
    rw [maxPages_val]
    unfold pageSize at hsize
    omega
  refine wp_unmapAndFreeLoop_exact h.real h.space rfl rfl h.extra.index h.extra.overlay.tight'
    (h.intact hapart) (by rw [hsize, Nat.zero_add]) hlt hfuel ?_
  intro s'' N' hreal hmms htended hgone
  obtain ⟨hindexes, hplain, hobjs⟩ := h.extra.unique hgone
  refine hQ s'' ⟨hreal, ?_, hindexes, hplain, hobjs⟩ htended
  rw [hmms, h.mms, setVmas_setVmas, setVmas_self hmm hvmas]

/-- **`create_uvm`** once the gap is found: all the pages, or none. -/
theorem wp_createUvm_exact {sent : Sentinel} {addr len flags : Nat} (hreal : s.pages.Real)
    (hmm : s.desk.mms a = some mm) (hvmas : mm.vmas = l ++ r)
    (hM : s.pages.indexes mm.pgindex = some M) (htight : M.Tight)
    (hfree : ∀ v, addr ≤ v → v < addr + len → M.pte v = 0) (ha : a ≠ 0)
    (haddr : addr % pageSize = 0) (hlen : len % pageSize = 0) (hpos : 0 < len)
    (hend : addr + len < 2 ^ 32) (hfind : findVmaBefore sent mm.vmas addr len = some l.length) :
    wp (createUvm Books.ops sent a addr len flags) (fun retcode s' =>
      (retcode = 0 ∧ Supplied M addr (len / pageSize) s ∧
          (∃ xs N, Gained a mm l r M N xs s s' ∧ PageVmas xs addr flags ∧
            xs.length = len / pageSize) ∨
        retcode = -ENOMEM ∧ ¬ Supplied M addr (len / pageSize) s ∧ Restored s s') ∧
      ((∀ y ∈ l, y.start + pageSize ≤ addr) → (∀ y ∈ r, addr + len ≤ y.start) →
        Tended s s')) s := by
  have hmod := Nat.div_add_mod len pageSize
  rw [hlen, Nat.add_zero, Nat.mul_comm] at hmod
  have hfuel : len / pageSize ≤ maxPages := by
    rw [maxPages_val]
    unfold pageSize
    omega
  have hpages : ∀ j < len / pageSize, M.pte (addr + j * pageSize) = 0 := by
    intro j hj
    have hlt : j * pageSize < len / pageSize * pageSize :=
      Nat.mul_lt_mul_of_pos_right hj (by decide)
    exact hfree _ (by omega) (by omega)
  rw [createUvm, if_neg (by simp [hlen, ha, haddr]), if_neg (by omega), wp_bind]
  apply wp_getMm hmm
  rw [hfind]
  rw [wp_bind]
  refine wp_mono (wp_createLoop_exact hreal hmm hvmas rfl hM htight hpages haddr (by omega)
    (by rw [hmod, Nat.zero_add]) (by omega) hfuel) ?_
  rintro ⟨retcode, mapped⟩ s' ⟨xs, N, hgained, hxs, hcount, hle, hret, htended⟩
  rw [hmod] at htended
  dsimp only at hcount hret ⊢
  rcases hret with ⟨rfl, hall, hsupplied⟩ | ⟨rfl, hshort⟩
  · rw [if_neg (by decide), wp_pure]
    exact ⟨.inl ⟨rfl, hsupplied, xs, N, hgained, hxs, hall⟩, htended⟩
  · have hless : xs.length * pageSize ≤ len / pageSize * pageSize := Nat.mul_le_mul_right _ hle
    rw [if_pos (by decide), wp_bind]
    refine hgained.wp_rollback hmm hvmas hxs.covers.apart (by rw [hcount, Nat.zero_add]) (by omega) ?_
    intro s'' hrestored hback
    rw [wp_pure]
    exact ⟨.inr ⟨rfl, hshort, hrestored⟩, fun hl hr => (htended hl hr).trans hback⟩

end Books

/-- A range that the search refuses is refused, and nothing happens. -/
theorem createUvm_refused {P : Type} (B : PageOps P) {s : Vm P} {a : Nat} {mm : Mm}
    {sent : Sentinel} {addr len flags : Nat} (hmm : s.desk.mms a = some mm) (ha : a ≠ 0)
    (haddr : addr % pageSize = 0) (hlen : len % pageSize = 0) (hpos : 0 < len)
    (hfind : findVmaBefore sent mm.vmas addr len = none) :
    createUvm B sent a addr len flags s = .ok (-EFAULT, s) := by
  apply run_of_wp
  rw [createUvm, if_neg (by simp [hlen, ha, haddr]), if_neg (by omega), wp_bind]
  apply wp_getMm hmm
  rw [hfind, wp_pure]
  exact ⟨rfl, rfl⟩

section Cases

variable {base baseObjs : List Nat} {s : Vm Books} {a : Nat} {sent : Sentinel} {addr len flags : Nat}

/-- **`create_uvm`** with a gap, from any state that is in order. -/
theorem wp_createUvm_found {mm : Mm} {place : Nat} (h : Good base baseObjs s.desk.mms s)
    (hmm : s.desk.mms a = some mm) (ha : a ≠ 0) (haddr : addr % pageSize = 0)
    (hlen : len % pageSize = 0) (hpos : 0 < len) (hend : addr + len < 2 ^ 32)
    (hfind : findVmaBefore sent mm.vmas addr len = some place) :
    wp (createUvm Books.ops sent a addr len flags) (fun retcode s' =>
      (retcode = 0 ∧ (∃ M N l r xs, mm.vmas = l ++ r ∧ Gained a mm l r M N xs s s' ∧
          PageVmas xs addr flags ∧ xs.length = len / pageSize) ∨
        retcode = -ENOMEM ∧ Restored s s') ∧ Tended s s') s := by
  obtain ⟨M, hM, hok⟩ := h.inv.spaces.space hmm
  obtain ⟨l, r, hvmas, rfl, hgap⟩ := findVmaBefore_spec hok.ordered hend hfind
  have hfree : ∀ v, addr ≤ v → v < addr + len → M.pte v = 0 := by
    intro v hlo hhi
    refine Mm.OK.unmapped (hvmas ▸ hok) fun y hy heq => ?_
    have hpage : 0 < y.size := hok.ordered.size y (hvmas ▸ hy)
    rcases List.mem_append.mp hy with hy | hy
    · have := hgap.below y hy
      omega
    · have := hgap.above y hy
      omega
  refine wp_mono (wp_createUvm_exact h.real hmm hvmas hM hok.tight hfree ha haddr hlen hpos hend
    hfind) ?_
  rintro retcode s' ⟨hout, htended⟩
  refine ⟨?_, htended (fun y hy => ?_) hgap.above⟩
  · rcases hout with ⟨hcode, -, xs, N, hgained⟩ | ⟨hcode, -, hback⟩
    · exact .inl ⟨hcode, M, N, l, r, xs, hvmas, hgained⟩
    · exact .inr ⟨hcode, hback⟩
  · rw [← (hok.vma y (hvmas ▸ List.mem_append_left r hy)).size]
    exact hgap.below y hy

/-- **`create_uvm`** from any state that is in order: nothing has happened to the address
spaces, or the VMAs of the range are there. -/
theorem wp_createUvm_cases (h : Good base baseObjs s.desk.mms s)
    (hlive : a ≠ 0 → s.desk.mms a ≠ none) (hend : addr + len < 2 ^ 32) :
    wp (createUvm Books.ops sent a addr len flags) (fun _ s' => Tended s s' ∧
      (s'.desk.mms = s.desk.mms ∧ s'.pages.indexes = s.pages.indexes ∨
        ∃ mm M N l r xs, s.desk.mms a = some mm ∧ mm.vmas = l ++ r ∧
          Gained a mm l r M N xs s s')) s := by
  by_cases hargs : len % pageSize ≠ 0 ∨ a = 0 ∨ addr % pageSize ≠ 0
  · rw [createUvm, if_pos hargs, wp_pure]
    exact ⟨⟨id, rfl⟩, .inl ⟨rfl, rfl⟩⟩
  obtain ⟨hlen, ha, haddr⟩ := range_args hargs
  by_cases hzero : len = 0
  · rw [createUvm, if_neg hargs, if_pos hzero, wp_pure]
    exact ⟨⟨id, rfl⟩, .inl ⟨rfl, rfl⟩⟩
  obtain ⟨mm, hmm⟩ := Option.ne_none_iff_exists'.mp (hlive ha)
  have hpos : 0 < len := Nat.pos_of_ne_zero hzero
  cases hfind : findVmaBefore sent mm.vmas addr len with
  | none =>
    exact wp_of_run (createUvm_refused _ hmm ha haddr hlen hpos hfind)
      ⟨⟨id, rfl⟩, .inl ⟨rfl, rfl⟩⟩
  | some place =>
    refine wp_mono (wp_createUvm_found h hmm ha haddr hlen hpos hend hfind) ?_
    rintro retcode s' ⟨⟨-, M, N, l, r, xs, hvmas, hgained, -⟩ | ⟨-, hback⟩, htended⟩
    · exact ⟨htended, .inr ⟨mm, M, N, l, r, xs, hmm, hvmas, hgained⟩⟩
    · exact ⟨htended, .inl ⟨hback.mms, hback.indexes⟩⟩

end Cases

/-! ### `destroy_uvm` -/

section Destroy

variable {base baseObjs : List Nat} {s : Vm Books} {a addr len : Nat} {mm : Mm} {sent : Sentinel}

/-- **`destroy_uvm`** on a stretch of VMAs takes exactly these away. -/
theorem wp_destroyUvm_exact {M : PageMap} {l xs r : List Vma} (h : Good base baseObjs s.desk.mms s)
    (hmm : s.desk.mms a = some mm) (hM : s.pages.indexes mm.pgindex = some M)
    (hvmas : mm.vmas = l ++ (xs ++ r)) (hlength : xs.length * pageSize = len) (ha : a ≠ 0)
    (haddr : addr % pageSize = 0) (hlen : len % pageSize = 0) (hend : addr + len < 2 ^ 32)
    (hfind : findContinuousVma sent mm.vmas addr len = .ok (some l.length)) :
    wp (destroyUvm Books.ops sent a addr len) (fun retcode s' => retcode = 0 ∧
      Relist base baseObjs a mm (l ++ r) s s' ∧ ∃ N, Extra mm.pgindex N M xs s' s) s := by
  have hok := h.inv.spaces.ok hmm hM
  have hsize : len = 0 + xs.length * pageSize := by rw [hlength, Nat.zero_add]
  have hfuel : xs.length ≤ maxPages := by
    rw [maxPages_val]
    unfold pageSize at hlength
    omega
  rw [destroyUvm, if_neg (by simp [hlen, ha, haddr]), wp_bind]
  apply wp_getMm hmm
  rw [wp_bind, hfind]
  refine wp_of_run rfl ?_
  rw [wp_bind, unmapAndFreeVma]
  refine wp_unmapAndFreeLoop_exact h.real hmm hvmas rfl hM hok.tight (h.intact hmm hM hvmas) hsize
    (by omega) hfuel ?_
  intro s' N _ hmms htended hextra
  rw [wp_pure]
  exact ⟨rfl, ⟨htended.good h, hmms, htended.fixed⟩, N, hextra⟩

/-- A range that the search does not find is refused, and nothing happens. -/
theorem destroyUvm_refused {P : Type} (B : PageOps P) {s : Vm P} (hmm : s.desk.mms a = some mm)
    (ha : a ≠ 0) (haddr : addr % pageSize = 0) (hlen : len % pageSize = 0)
    (hfind : findContinuousVma sent mm.vmas addr len = .ok none) :
    destroyUvm B sent a addr len s = .ok (-EFAULT, s) := by
  apply run_of_wp
  rw [destroyUvm, if_neg (by simp [hlen, ha, haddr]), wp_bind]
  apply wp_getMm hmm
  rw [wp_bind, hfind]
  exact wp_of_run rfl (wp_pure.mpr ⟨rfl, rfl⟩)

/-- **`destroy_uvm`** from any state that is in order: nothing has happened, or the VMAs of a
stretch are gone. -/
theorem wp_destroyUvm_cases (h : Good base baseObjs s.desk.mms s)
    (hlive : a ≠ 0 → s.desk.mms a ≠ none) (hend : addr + len < 2 ^ 32)
    (hsent : sent.Misses addr len) :
    wp (destroyUvm Books.ops sent a addr len) (fun retcode s' => retcode ≠ 0 ∧ s' = s ∨
      retcode = 0 ∧ ∃ mm M N l xs r, s.desk.mms a = some mm ∧ mm.vmas = l ++ (xs ++ r) ∧
        Relist base baseObjs a mm (l ++ r) s s' ∧ Extra mm.pgindex N M xs s' s) s := by
  by_cases hargs : len % pageSize ≠ 0 ∨ a = 0 ∨ addr % pageSize ≠ 0
  · rw [destroyUvm, if_pos hargs, wp_pure]
    exact .inl ⟨by decide, rfl⟩
  obtain ⟨hlen, ha, haddr⟩ := range_args hargs
  obtain ⟨mm, hmm⟩ := Option.ne_none_iff_exists'.mp (hlive ha)
  obtain ⟨M, hM, hok⟩ := h.inv.spaces.space hmm
  obtain ⟨found, hfound, hstretch⟩ := findContinuousVma_spec hok haddr hlen hend hsent
  cases found with
  | none =>
    rw [destroyUvm, if_neg hargs, wp_bind]
    apply wp_getMm hmm
    rw [wp_bind, hfound]
    exact wp_of_run rfl (wp_pure.mpr (.inl ⟨by decide, rfl⟩))
  | some k =>
    obtain ⟨l, xs, r, hvmas, rfl, hcount, -⟩ := hstretch k rfl
    refine wp_mono (wp_destroyUvm_exact h hmm hM hvmas hcount ha haddr hlen hend hfound) ?_
    rintro retcode s' ⟨hcode, hgone, N, hextra⟩
    exact .inr ⟨hcode, mm, M, N, l, xs, r, hmm, hvmas, hgone, hextra⟩

end Destroy

/-! ### `mm_destroy` -/

section Specs

variable {base baseObjs : List Nat} {s : Vm Books} {a : Nat} {mm : Mm} {rest : List Vma}

/-- One round of `mm_destroy`: the invariant holds of the VMAs that are left. -/
theorem wp_destroyVma {mms : Nat → Option Mm} {x : Vma}
    (h : Good base baseObjs (setVmas mms a mm (x :: rest)) s) :
    wp (do
        cleanVma Books.ops mm.pgindex x
        unrefAndFreeUpages Books.ops x.pages
        kfree x.addr)
      (fun _ s' => Good base baseObjs (setVmas mms a mm rest) s' ∧ s'.desk.mms = s.desk.mms ∧
        s'.desk.fixed = s.desk.fixed ∧
        ∀ q, q ≠ mm.pgindex → s'.pages.indexes q = s.pages.indexes q) s := by
  have hmm := setVmas_apply mms a mm (x :: rest)
  obtain ⟨M, hM, hok⟩ := h.inv.spaces.space hmm
  have hx := hok.vma x List.mem_cons_self
  rw [wp_bind, cleanVma, if_neg (not_not.mpr (hx.size.trans hx.psize.symm)), wp_bind]
  refine wp_mono (wp_freeVma a { mm with vmas := x :: rest } h.real hM hok.tight
    (h.intact hmm hM (show x :: rest = [] ++ (x :: rest ++ []) by simp)) (Q := fun _ s' =>
      Good base baseObjs (setVmas mms a mm rest) s' ∧ s'.desk.mms = s.desk.mms ∧
        s'.desk.fixed = s.desk.fixed ∧
        ∀ q, q ≠ mm.pgindex → s'.pages.indexes q = s.pages.indexes q) ?_) ?_
  · intro s1 N1 _ hmms hfixed hone hgood
    have hleft := hgood h hmm (List.nil_append _).symm
    rw [List.nil_append, setVmas_setVmas] at hleft
    refine ⟨hleft, hmms, hfixed, fun q hq => ?_⟩
    rw [hone.after, update_of_ne hq]
  · rintro _ s1 ⟨rfl, hrest⟩
    dsimp only
    rw [(hok.mapped x List.mem_cons_self).2, if_neg (not_not.mpr rfl), if_neg (not_not.mpr rfl),
      wp_pure, wp_bind]
    exact hrest

/-- **`mm_destroy`** takes the address space away. -/
theorem wp_mmDestroy (h : Good base baseObjs s.desk.mms s) (hmm : s.desk.mms a = some mm)
    (ha : a ≠ 0) (hkernel : a ≠ s.desk.kernelMm) :
    wp (mmDestroy Books.ops a)
      (fun _ s' => Good base baseObjs s'.desk.mms s' ∧
        s'.desk.mms = update s.desk.mms a none ∧ s'.desk.fixed = s.desk.fixed ∧
        ∀ q, q ≠ mm.pgindex → s'.pages.indexes q = s.pages.indexes q) s := by
  rw [mmDestroy, wp_bind, onDesk, wp_zoom, wp_get, if_neg (by simp [ha, hkernel]), wp_bind]
  apply wp_getMm hmm
  rw [wp_bind]
  refine wp_forM (fun rest s' => Good base baseObjs (setVmas s.desk.mms a mm rest) s' ∧
    s'.desk.mms = s.desk.mms ∧ s'.desk.fixed = s.desk.fixed ∧
    ∀ q, q ≠ mm.pgindex → s'.pages.indexes q = s.pages.indexes q) ?_ ?_ ?_
  · exact ⟨(setVmas_self hmm rfl).symm ▸ h, rfl, rfl, fun _ _ => rfl⟩
  · rintro x rest s' ⟨hgood, hmms, hfixed, hother⟩
    refine wp_mono (wp_destroyVma hgood) ?_
    rintro _ s'' ⟨hgood', hmms', hfixed', hother'⟩
    exact ⟨hgood', hmms'.trans hmms, hfixed'.trans hfixed,
      fun q hq => (hother' q hq).trans (hother q hq)⟩
  rintro s' ⟨hgood, hmms, hfixed, hother⟩
  have hempty := setVmas_apply s.desk.mms a mm []
  obtain ⟨M, hM, hok⟩ := hgood.inv.spaces.space hempty
  obtain ⟨hmem, hinv⟩ := hgood.inv.drop hempty rfl
  have hnone : ∀ i, M.leaf i = none := by
    intro i
    by_contra hne
    obtain ⟨x, hx, -⟩ := (hok.leaf i).mp hne
    cases hx
  rw [setVmas, update_idem] at hinv
  rw [wp_bind, wp_onPages]
  apply wp_books_destroyPgindex hgood.real hM hnone
  intro t hreal hplain hindexes hfreed
  rw [wp_bind, onDesk, wp_zoom, Desk.setMm, wp_modify]
  apply wp_kfree
  · exact hmem
  refine ⟨⟨hreal, ?_, ?_⟩, ?_, hfixed, fun q hq => ?_⟩
  · dsimp only [Vm.setObjs]
    rw [hfreed]
    intro y hy
    rcases List.mem_cons.mp hy with rfl | hy
    · exact hgood.inv.unmapped (hgood.real.dir_not_plain hM)
    · exact hgood.log y hy
  · dsimp only [Vm.setObjs]
    rw [hplain, hindexes, hmms]
    exact hinv
  · dsimp only [Vm.setObjs]
    rw [hmms]
  · dsimp only [Vm.setObjs]
    rw [hindexes, update_of_ne hq]
    exact hother q hq

end Specs

end AimKernel
