import AimKernel.Mm.UvmInv

/-!
# AimKernel.Mm.UvmCalls

The operations on the books, and the state between calls.

`Good` collects what holds between calls: the books are those of some memory, the
address spaces satisfy `Inv`, and no frame was freed while a page index still mapped
it. The list of address spaces is a parameter of its own, because `mm_destroy` takes
the VMAs apart without unlinking them: in its loop the invariant holds of the list
that is left.

Every operation is specified by total correctness. `addVma`, which the loops of
`create_uvm` and `mm_clone` share, either adds a VMA or undoes everything.
-/

namespace AimKernel

open Function (update update_eq_self_iff update_idem update_of_ne update_self)

/-! ### The operations on the books -/

/-- The books of some memory. -/
def Books.Real (t : Books) : Prop := ∃ p, Represents p t

/-- No page index maps the frame. -/
def Unmapped (indexes : Indexes) (f : Nat) : Prop :=
  ∀ pgindex M v, indexes pgindex = some M → M.pte v ≠ 0 → ptePaddr (M.pte v) ≠ f

section BooksSpecs

variable {t : Books} {pgindex v : Nat} {M : PageMap}

variable {f flags : Nat} {Q : Unit → Books → Prop}

/-- Whatever memory simulates leads from real books to real books. -/
theorem Books.Real.wp {α : Type} {m : PhysM α} {n : StateT Books (Except Fault) α}
    (hreal : t.Real) (hsim : Sim Represents m n) {Q : α → Books → Prop} (a : α) (t' : Books)
    (hn : n t = .ok (a, t')) (hQ : t'.Real → Q a t') : AimKernel.wp n Q t := by
  obtain ⟨p, hp⟩ := hreal
  obtain ⟨p', -, hp'⟩ := hsim p t a t' hp hn
  exact wp_iff.mpr ⟨a, t', hn, hQ ⟨p', hp'⟩⟩

theorem Books.Real.plainNodup (h : t.Real) : t.plain.Nodup :=
  let ⟨_, hp⟩ := h
  hp.plainNodup

theorem Books.Real.mem_frames (h : t.Real) (hf : f ∈ t.plain) : f ∈ t.frames :=
  let ⟨_, hp⟩ := h
  hp.plain_mem hf

theorem Books.Real.leaf_not_plain (h : t.Real) (hM : t.indexes pgindex = some M) {i l : Nat}
    (hl : M.leaf i = some l) : l ∉ t.plain :=
  let ⟨_, hp⟩ := h
  hp.owned.apart ((tableRole_leaf hM i).trans hl)

theorem Books.Real.dir_not_plain (h : t.Real) (hM : t.indexes pgindex = some M) :
    kva2pa pgindex ∉ t.plain :=
  let ⟨_, hp⟩ := h
  hp.owned.apart (tableRole_dir hM)

theorem Books.Real.vacant (h : t.Real) (hf : IsFrame f) (hfree : f ∉ t.frames) :
    t.indexes (pa2kva f) = none := by
  obtain ⟨p, hp⟩ := h
  cases hM : t.indexes (pa2kva f) with
  | none => rfl
  | some M => exact absurd (hf.kva2pa_pa2kva ▸ hp.dir_mem hM) hfree

theorem wp_books_allocPages (hreal : t.Real) {paddr : Nat} {Q : Int × Pages → Books → Prop}
    (hshort : ¬ Stocked IsFrame t.frames 1 t.supply →
      Books.Real { t with supply := t.supply.tail } →
      Q (-1, ⟨paddr, pageSize, 0⟩) { t with supply := t.supply.tail })
    (hnew : ∀ f rest, t.supply = some f :: rest → IsFrame f → f ∉ t.frames →
      Books.Real { t with frames := f :: t.frames, plain := f :: t.plain, supply := rest } →
      Q (0, ⟨f, pageSize, 0⟩)
        { t with frames := f :: t.frames, plain := f :: t.plain, supply := rest }) :
    wp (Books.ops.allocPages ⟨paddr, pageSize, 0⟩) Q t := by
  rcases pageAnswer_cases t.supply t.frames with ⟨hans, hstock⟩ | ⟨f, rest, hans, hsup, hf, hnot⟩
  · refine hreal.wp (sim_allocPages _) _ _ ?_ (hshort hstock)
    simp [Books.allocPages, Books.answer, hans]
  · have htail : t.supply.tail = rest := congrArg List.tail hsup
    refine hreal.wp (sim_allocPages _) _ _ ?_ (hnew f rest hsup hf hnot)
    simp [Books.allocPages, Books.answer, hans, htail]

theorem wp_books_freePages (hreal : t.Real) (hf : f ∈ t.plain) (hQ : Books.Real { t with
        frames := t.frames.erase f
        plain := t.plain.erase f
        freed := (f, t.indexes) :: t.freed } →
      Q () { t with
        frames := t.frames.erase f
        plain := t.plain.erase f
        freed := (f, t.indexes) :: t.freed }) :
    wp (Books.ops.freePages ⟨f, pageSize, 0⟩) Q t := by
  refine hreal.wp (sim_freePages _) () _ ?_ hQ
  simp [Books.freePages, hf, gfpUnsafe, List.diff_cons]

theorem wp_books_initPgindex (hreal : t.Real) {Q : Nat → Books → Prop}
    (hshort : ∀ t', t'.Real → t'.plain = t.plain → t'.indexes = t.indexes → t'.freed = t.freed →
      Q 0 t')
    (hnew : ∀ q t', t'.Real → q ≠ 0 → t.indexes q = none → t'.plain = t.plain →
      t'.indexes = update t.indexes q (some .empty) → t'.freed = t.freed → Q q t') :
    wp Books.ops.initPgindex Q t := by
  cases hans : t.answer pageSize with
  | none =>
    refine hreal.wp sim_initPgindex 0 { t with supply := t.supply.tail } ?_
      fun h' => hshort _ h' rfl rfl rfl
    simp [Books.initPgindex, hans]
  | some f =>
    obtain ⟨-, hfree⟩ := pageAnswer_free hans
    obtain ⟨hf, hnot⟩ := hfree f (by simp)
    refine hreal.wp sim_initPgindex (pa2kva f) { t with
      frames := f :: t.frames
      supply := t.supply.tail
      indexes := update t.indexes (pa2kva f) (some .empty) } ?_
      fun h' => hnew _ _ h' hf.pa2kva_ne_zero (hreal.vacant hf hnot) rfl rfl rfl
    simp [Books.initPgindex, hans]

theorem wp_books_destroyPgindex (hreal : t.Real) (hM : t.indexes pgindex = some M)
    (hnone : ∀ i, M.leaf i = none) (hQ : ∀ t', t'.Real → t'.plain = t.plain →
      t'.indexes = update t.indexes pgindex none →
      t'.freed = (kva2pa pgindex, t.indexes) :: t.freed → Q () t') :
    wp (Books.ops.destroyPgindex pgindex) Q t := by
  refine hreal.wp (sim_destroyPgindex _) () { t with
    frames := t.frames.erase (kva2pa pgindex)
    indexes := update t.indexes pgindex none
    freed := (kva2pa pgindex, t.indexes) :: t.freed } ?_ fun h' => hQ _ h' rfl rfl rfl
  unfold Books.destroyPgindex
  rw [hM]
  dsimp only
  rw [if_pos hnone]

/-- The slots without a leaf table. -/
def PageMap.missing (M : PageMap) (i : Nat) : Bool := (M.leaf i).isNone

/-- The frames that mapping a page at `v` takes: its own, and one for the leaf table if
that is missing. -/
def pageCost (missing : Nat → Bool) (v : Nat) : Nat := if missing (pdx v) then 2 else 1

theorem wp_books_mapPages (hreal : t.Real) {p : Nat} {Q : Int → Books → Prop}
    (hM : t.indexes pgindex = some M) (hv : IsPage v) (hp : IsFrame p) (hfree : M.pte v = 0)
    (hshort : M.leaf (pdx v) = none → ¬ Stocked IsFrame t.frames 1 t.supply →
      Books.Real { t with supply := t.supply.tail } →
      Q (-ENOMEM) { t with supply := t.supply.tail })
    (hmaps : ∀ M' t', t'.Real → M'.pte = update M.pte v (pteFor p flags) →
      (∀ i, M'.leaf i ≠ none ↔ M.leaf i ≠ none ∨ i = pdx v) →
      (∀ i, M.leaf i ≠ none → M'.leaf i = M.leaf i) → t'.plain = t.plain →
      t'.indexes = update t.indexes pgindex (some M') → t'.freed = t.freed →
      (∀ n, Stocked IsFrame t.frames (n + (pageCost M.missing v - 1)) t.supply ↔
        Stocked IsFrame t'.frames n t'.supply) → Q 0 t') :
    wp (Books.ops.mapPages pgindex v p pageSize flags) Q t := by
  cases hl : M.leaf (pdx v) with
  | some f =>
    refine hreal.wp (sim_mapPages _ _ _ _ _) 0 { t with
      indexes := update t.indexes pgindex
        (some { M with pte := update M.pte v (pteFor p flags) }) } ?_
      fun h' => hmaps { M with pte := update M.pte v (pteFor p flags) } _ h' rfl ?_
        (fun _ _ => rfl) rfl rfl rfl ?_
    · simp [Books.mapPages, hM, hv, hp, hfree, hl]
    · intro i
      constructor
      · exact .inl
      · rintro (hi | rfl)
        · exact hi
        · exact fun hc => Option.some_ne_none f (hl.symm.trans hc)
    · intro n
      simp [pageCost, PageMap.missing, hl]
  | none =>
    rcases pageAnswer_cases t.supply t.frames with
      ⟨hans, hstock⟩ | ⟨f, rest, hans, hsup, hf, hnot⟩
    · refine hreal.wp (sim_mapPages _ _ _ _ _) (-ENOMEM) { t with supply := t.supply.tail } ?_
        (hshort hl hstock)
      simp [Books.mapPages, Books.answer, hM, hv, hp, hfree, hl, hans]
    · refine hreal.wp (sim_mapPages _ _ _ _ _) 0 { t with
        frames := f :: t.frames
        supply := t.supply.tail
        indexes := update t.indexes pgindex
          (some ⟨update M.leaf (pdx v) (some f),
            update M.pte v (pteFor p flags)⟩) } ?_
        fun h' => hmaps ⟨update M.leaf (pdx v) (some f),
          update M.pte v (pteFor p flags)⟩ _ h' rfl ?_ ?_ rfl rfl rfl ?_
      · simp [Books.mapPages, Books.answer, hM, hv, hp, hfree, hl, hans]
      · intro i
        dsimp only
        by_cases hi : i = pdx v
        · rw [hi, update_self]
          simp
        · rw [update_of_ne hi]
          simp [hi]
      · intro i hi
        have hne : i ≠ pdx v := fun heq => hi (heq ▸ hl)
        exact update_of_ne hne ..
      · intro n
        simpa [pageCost, PageMap.missing, hl, hsup] using stocked_take IsFrame hf hnot n rest

/-- Unmapping one page. What is freed then is an empty leaf table. -/
theorem wp_books_unmapPages (hreal : t.Real) {Q : Nat × Option Nat → Books → Prop}
    (hM : t.indexes pgindex = some M) (hv : IsPage v) (hend : v + pageSize < 2 ^ 32)
    (hl : M.leaf (pdx v) ≠ none)
    (hQ : ∀ M' t', t'.Real → M'.pte = update M.pte v 0 →
      (∀ i, M'.leaf i ≠ none ↔
        M.leaf i ≠ none ∧ (i = pdx v → ∃ w, pdx w = i ∧ M'.pte w ≠ 0)) →
      (∀ i, M'.leaf i ≠ none → M.leaf i = M'.leaf i) → t'.plain = t.plain →
      t'.indexes = update t.indexes pgindex (some M') →
      (t'.freed = t.freed ∨ ∃ l, M.leaf (pdx v) = some l ∧ t'.freed = (l,
        update t.indexes pgindex (some { M with pte := M'.pte })) :: t.freed) →
      Q (pageSize, some (ptePaddr (M.pte v))) t') :
    wp (Books.ops.unmapPages pgindex v pageSize) Q t := by
  obtain ⟨l, hl⟩ := Option.ne_none_iff_exists'.mp hl
  by_cases hempty : ∀ w, pdx w = pdx v → update M.pte v 0 w = 0
  · refine hreal.wp (sim_unmapPages _ _ _) (pageSize, some (ptePaddr (M.pte v))) { t with
      frames := t.frames.erase l
      indexes := update t.indexes pgindex
        (some ⟨update M.leaf (pdx v) none, update M.pte v 0⟩)
      freed := (l, update t.indexes pgindex
        (some { M with pte := update M.pte v 0 })) :: t.freed } ?_ fun h' =>
      hQ ⟨update M.leaf (pdx v) none, update M.pte v 0⟩ _ h' rfl ?_ ?_ rfl rfl
        (.inr ⟨l, hl, rfl⟩)
    · show Books.unmapPages pgindex v pageSize t = _
      unfold Books.unmapPages
      rw [hM]
      dsimp only
      rw [if_pos ⟨rfl, hv, hend⟩, hl]
      dsimp only
      rw [if_pos hempty]
    · intro i
      dsimp only
      by_cases hi : i = pdx v
      · rw [hi, update_self]
        constructor
        · exact fun hc => absurd rfl hc
        · rintro ⟨-, hw⟩
          obtain ⟨w, hslot, hne⟩ := hw rfl
          exact absurd (hempty w hslot) hne
      · rw [update_of_ne hi]
        simp [hi]
    · intro i hi
      dsimp only at hi ⊢
      have hne : i ≠ pdx v := by
        rintro rfl
        exact hi (update_self ..)
      exact (update_of_ne hne ..).symm
  · refine hreal.wp (sim_unmapPages _ _ _) (pageSize, some (ptePaddr (M.pte v))) { t with
      indexes := update t.indexes pgindex
        (some { M with pte := update M.pte v 0 }) } ?_ fun h' =>
      hQ { M with pte := update M.pte v 0 } _ h' rfl ?_ (fun _ _ => rfl) rfl rfl (.inl rfl)
    · show Books.unmapPages pgindex v pageSize t = _
      unfold Books.unmapPages
      rw [hM]
      dsimp only
      rw [if_pos ⟨rfl, hv, hend⟩, hl]
      dsimp only
      rw [if_neg hempty]
    obtain ⟨w, hw⟩ := not_forall.mp hempty
    obtain ⟨hslot, hne⟩ := Classical.not_imp.mp hw
    intro i
    constructor
    · rintro hi
      refine ⟨hi, ?_⟩
      rintro rfl
      exact ⟨w, hslot, hne⟩
    · exact And.left

theorem wp_books_setPagesPerm (hreal : t.Real) {Q : Int → Books → Prop}
    (hM : t.indexes pgindex = some M) (hv : IsPage v) (hl : M.leaf (pdx v) ≠ none)
    (hQ : ∀ M' t', t'.Real →
      M'.pte = update M.pte v (ptePaddr (M.pte v) ||| pgtablePerm flags) →
      M'.leaf = M.leaf → t'.plain = t.plain →
      t'.indexes = update t.indexes pgindex (some M') → t'.freed = t.freed → Q 0 t') :
    wp (Books.ops.setPagesPerm pgindex v pageSize flags) Q t := by
  obtain ⟨l, hl⟩ := Option.ne_none_iff_exists'.mp hl
  refine hreal.wp (sim_setPagesPerm _ _ _ _) 0
    { t with indexes := update t.indexes pgindex (some ⟨M.leaf,
      update M.pte v (ptePaddr (M.pte v) ||| pgtablePerm flags)⟩) } ?_
    fun h' => hQ ⟨M.leaf, _⟩ _ h' rfl rfl rfl rfl rfl
  simp [Books.setPagesPerm, hM, hv, hl]

theorem wp_books_memmove {src : Nat} (hf : IsFrame f) (hplain : f ∈ t.plain) (hQ : Q () t) :
    wp (Books.ops.memmove (pa2kva f) src pageSize) Q t := by
  have hw : t.Writable (pa2kva f) pageSize := by
    intro g hg hlo hhi
    by_contra hnot
    have hne : g ≠ f := by
      rintro rfl
      exact hnot hplain
    have := hg.apart hf hne
    omega
  refine wp_iff.mpr ⟨(), t, ?_, hQ⟩
  show Books.scribble (pa2kva f) pageSize t = _
  unfold Books.scribble
  rw [if_pos hw]

end BooksSpecs

/-! ### The kernel objects -/

section DeskSpecs

variable {P : Type} {s : Vm P}

/-- The state with other live objects. -/
def Vm.setObjs (s : Vm P) (objs : List Nat) : Vm P := ⟨s.pages, { s.desk with objs := objs }⟩

/-- The state with other address spaces. -/
def Vm.setMms (s : Vm P) (mms : Nat → Option Mm) : Vm P := ⟨s.pages, { s.desk with mms := mms }⟩

variable {Q : Unit → Vm P → Prop} {a x : Nat} {mm : Mm}

theorem wp_kmalloc {Q : Nat → Vm P → Prop}
    (hshort : ¬ Stocked (· ≠ 0) s.desk.objs 1 s.desk.ksupply →
      ∀ sup, Q 0 { s with desk := { s.desk with ksupply := sup } })
    (hnew : ∀ x sup, s.desk.ksupply = some x :: sup → x ≠ 0 → x ∉ s.desk.objs →
      Q x { s with desk := { s.desk with objs := x :: s.desk.objs, ksupply := sup } }) :
    wp kmalloc Q s := by
  rw [kmalloc, onDesk, wp_zoom, Desk.kmalloc, wp_bind, wp_get]
  match hsup : s.desk.ksupply with
  | [] =>
    exact wp_of_run rfl (hshort (hsup ▸ id) _)
  | none :: rest =>
    exact wp_of_run rfl (hshort (hsup ▸ id) _)
  | some x :: rest =>
    rw [List.head?_cons, List.tail_cons]
    dsimp only
    by_cases hx : x ≠ 0 ∧ x ∉ s.desk.objs
    · rw [if_pos hx, wp_bind, wp_set, wp_pure]
      exact hnew x rest hsup hx.1 hx.2
    · rw [if_neg hx, wp_bind, wp_set, wp_pure]
      refine hshort ?_ _
      rw [hsup]
      exact fun h => hx ⟨h.1, h.2.1⟩

theorem wp_kfree (hx : x ∈ s.desk.objs) (hQ : Q () (s.setObjs (s.desk.objs.erase x)))
    : wp (kfree x) Q s := by
  rw [kfree, onDesk, wp_zoom, Desk.kfree, wp_bind, wp_get, if_pos hx, wp_set]
  exact hQ

/-- The two objects taken last go back, the later one first. -/
theorem wp_kfree_both {p : Nat} {objs : List Nat} {e : Int} {Q : Int → Vm P → Prop}
    (hobjs : s.desk.objs = p :: x :: objs) (hQ : Q e (s.setObjs objs)) :
    wp (do kfree p; kfree x; pure e) Q s := by
  rw [wp_bind]
  apply wp_kfree (hobjs ▸ List.mem_cons_self)
  rw [hobjs, List.erase_cons_head, wp_bind]
  apply wp_kfree List.mem_cons_self
  dsimp only [Vm.setObjs]
  rw [wp_pure, List.erase_cons_head]
  exact hQ

theorem wp_getMm {Q : Mm → Vm P → Prop} (hmm : s.desk.mms a = some mm) (hQ : Q mm s)
    : wp (getMm a) Q s := by
  rw [getMm, onDesk, wp_zoom, Desk.getMm, wp_bind, wp_get, hmm, wp_pure]
  exact hQ

@[simp] theorem wp_setMm :
    wp (setMm a mm) Q s ↔ Q () (s.setMms (update s.desk.mms a (some mm))) := by
  rw [setMm, onDesk, wp_zoom, Desk.setMm, wp_modify]
  exact Iff.rfl

@[simp] theorem wp_onPages {α : Type} {m : StateT P (Except Fault) α} {Q : α → Vm P → Prop} :
    wp (onPages m) Q s ↔ wp m (fun a p => Q a { s with pages := p }) s.pages := by
  rw [onPages, wp_zoom]

/-! A run that has returned, step by step. -/

variable {α : Type} {s' : Vm P}

theorem run_onPages {m : StateT P (Except Fault) α} {a : α} (h : onPages m s = .ok (a, s')) :
    m s.pages = .ok (a, s'.pages) ∧ s'.desk = s.desk := by
  obtain ⟨p, hp, rfl⟩ := run_zoom.mp h
  exact ⟨hp, rfl⟩

theorem run_onDesk {m : StateT Desk (Except Fault) α} {a : α} (h : onDesk m s = .ok (a, s')) :
    s'.pages = s.pages := by
  obtain ⟨d, -, rfl⟩ := run_zoom.mp h
  rfl

theorem run_kmalloc {x : Nat} (h : kmalloc s = .ok (x, s')) :
    s'.pages = s.pages ∧ s'.desk.mms = s.desk.mms :=
  wp_run (Q := fun _ s1 => s1.pages = s.pages ∧ s1.desk.mms = s.desk.mms)
    (wp_kmalloc (fun _ _ => ⟨rfl, rfl⟩) fun _ _ _ _ _ => ⟨rfl, rfl⟩) h

theorem run_getMm {a : Nat} {mm : Mm} (h : getMm a s = .ok (mm, s')) :
    s' = s ∧ s.desk.mms a = some mm := by
  rw [getMm, onDesk] at h
  obtain ⟨d, hd, rfl⟩ := run_zoom.mp h
  obtain ⟨d', _, hget, hrest⟩ := run_bind.mp hd
  cases hget
  cases hmm : s.desk.mms a with
  | none =>
    rw [hmm] at hrest
    cases hrest
  | some mm' =>
    rw [hmm] at hrest
    obtain ⟨rfl, rfl⟩ := run_pure.mp hrest
    exact ⟨rfl, rfl⟩

theorem run_setMm {a : Nat} {mm : Mm} (h : setMm a mm s = .ok ((), s')) :
    s' = s.setMms (update s.desk.mms a (some mm)) :=
  wp_run (Q := fun _ s1 => s1 = s.setMms (update s.desk.mms a (some mm)))
    (wp_setMm.mpr rfl) h

theorem run_lift {x : Except Fault α} {a : α} (h : (liftM x : VmM P α) s = .ok (a, s')) :
    x = .ok a ∧ s' = s := by
  cases x with
  | error e => cases h
  | ok b =>
    obtain ⟨rfl, rfl⟩ := Prod.mk.inj (Except.ok.inj h)
    exact ⟨rfl, rfl⟩

end DeskSpecs

/-! ### Between calls -/

/-- What no call changes: `kernel_mm`, `current_proc->mm` and the loaded page index. -/
def Desk.fixed (d : Desk) : Nat × Option Nat × Nat := (d.kernelMm, d.currentMm, d.currentPgdir)

/-- What holds between calls, with `mms` as the address spaces. -/
structure Good (base baseObjs : List Nat) (mms : Nat → Option Mm) (s : Vm Books) : Prop where
  real : s.pages.Real
  log : ∀ x ∈ s.pages.freed, Unmapped x.2 x.1
  inv : Inv base baseObjs s.pages.plain s.pages.indexes s.desk.objs mms

variable {base baseObjs objs plain : List Nat} {mms : Nat → Option Mm} {indexes : Indexes} {f : Nat}

theorem Good.setMms {s : Vm Books} (h : Good base baseObjs mms s) (mms' : Nat → Option Mm) :
    Good base baseObjs mms (s.setMms mms') :=
  ⟨h.real, h.log, h.inv⟩

theorem range_args {len a addr : Nat} (h : ¬ (len % pageSize ≠ 0 ∨ a = 0 ∨ addr % pageSize ≠ 0)) :
    len % pageSize = 0 ∧ a ≠ 0 ∧ addr % pageSize = 0 := by
  simpa only [not_or, not_not, ne_eq] using h

theorem Inv.unmapped_of_role (h : Inv base baseObjs plain indexes objs mms)
    (hf : ∀ place, userRole mms place ≠ some f) : Unmapped indexes f := by
  rintro pgindex M v hM hne rfl
  obtain ⟨a, mm, hmm, rfl⟩ := h.spaces.index hM
  have hok := h.spaces.ok hmm hM
  obtain ⟨x, hx, rfl⟩ := hok.backed v hne
  rw [(hok.mapped x hx).2] at hf
  exact hf _ (hok.userRole_start hmm hx)

theorem Inv.unmapped (h : Inv base baseObjs plain indexes objs mms) (hf : f ∉ plain)
    : Unmapped indexes f :=
  h.unmapped_of_role fun _ hrole => hf (h.user.mem_of_role hrole)

theorem insertIdx_length {α : Type} (l r : List α) (x : α) :
    (l ++ r).insertIdx l.length x = l ++ x :: r := by
  induction l with
  | nil => rfl
  | cons y l ih => simp [ih]

section Calls

variable {base baseObjs : List Nat} {s : Vm Books} {mms : Nat → Option Mm} {a : Nat} {mm : Mm}
  {l r : List Vma} {x : Vma}

variable {vmas : List Vma} {s' : Vm Books} {flags place v : Nat}
  {init : Nat → StateT Books (Except Fault) Unit} {Q : Int → Vm Books → Prop} {M : PageMap}

theorem setVmas_self (hmm : mms a = some mm) (hvmas : mm.vmas = vmas) :
    setVmas mms a mm vmas = mms := by
  rw [setVmas, ← hvmas, update_eq_self_iff]
  exact hmm.symm

theorem setVmas_setVmas (mms : Nat → Option Mm) (a : Nat) (mm : Mm) (vmas vmas' : List Vma) :
    setVmas (setVmas mms a mm vmas) a { mm with vmas := vmas } vmas' = setVmas mms a mm vmas' := by
  rw [setVmas, setVmas, update_idem]
  rfl

theorem setVmas_apply (mms : Nat → Option Mm) (a : Nat) (mm : Mm) (vmas : List Vma) :
    setVmas mms a mm vmas a = some { mm with vmas := vmas } :=
  update_self ..

/-- From `s` to `s'` the VMA list of one address space has become `vmas`, and the
invariant holds. -/
structure Relist (base baseObjs : List Nat) (a : Nat) (mm : Mm) (vmas : List Vma)
    (s s' : Vm Books) : Prop where
  good : Good base baseObjs s'.desk.mms s'
  mms : s'.desk.mms = setVmas s.desk.mms a mm vmas
  fixed : s'.desk.fixed = s.desk.fixed

theorem Relist.refl (h : Good base baseObjs s.desk.mms s) (hmm : s.desk.mms a = some mm)
    (hvmas : mm.vmas = vmas) : Relist base baseObjs a mm vmas s s :=
  ⟨h, (setVmas_self hmm hvmas).symm, rfl⟩

theorem Relist.space (h : Relist base baseObjs a mm vmas s s') :
    s'.desk.mms a = some { mm with vmas := vmas } := by
  rw [h.mms]
  exact setVmas_apply ..

theorem Relist.trans {vmas' : List Vma} {s'' : Vm Books} (h : Relist base baseObjs a mm vmas s s')
    (h' : Relist base baseObjs a { mm with vmas := vmas } vmas' s' s'') :
    Relist base baseObjs a mm vmas' s s'' :=
  ⟨h'.good, by rw [h'.mms, h.mms, setVmas_setVmas], h'.fixed.trans h.fixed⟩

/-- The invariant goes along from `s` to `s'`, and so does what no call changes. -/
structure Tended (s s' : Vm Books) : Prop where
  good : ∀ {base baseObjs}, Good base baseObjs s.desk.mms s → Good base baseObjs s'.desk.mms s'
  fixed : s'.desk.fixed = s.desk.fixed

theorem Tended.trans {s'' : Vm Books} (h : Tended s s') (h' : Tended s' s'') : Tended s s'' :=
  ⟨fun hgood => h'.good (h.good hgood), h'.fixed.trans h.fixed⟩

/-! ### Adding a VMA -/

/-- What a round of `create_uvm` or `mm_clone` has done when it succeeds: there is the
VMA `x` between `l` and `r`, with its entry, its frame and its objects. -/
structure Added (a : Nat) (mm : Mm) (l r : List Vma) (M M' : PageMap) (x : Vma)
    (s s' : Vm Books) : Prop where
  real : s'.pages.Real
  shape : x.OK
  mms : s'.desk.mms = setVmas s.desk.mms a mm (l ++ x :: r)
  fixed : s'.desk.fixed = s.desk.fixed
  plain : s'.pages.plain = x.pages.paddr :: s.pages.plain
  frame : x.pages.paddr ∉ s.pages.plain
  objs : s'.desk.objs = x.pages.addr :: x.addr :: s.desk.objs
  vma : x.addr ∉ s.desk.objs
  upages : x.pages.addr ∉ x.addr :: s.desk.objs
  freed : s'.pages.freed = s.pages.freed
  indexes : s'.pages.indexes = Function.update s.pages.indexes mm.pgindex (some M')
  pte : M'.pte = Function.update M.pte x.start (pteFor x.pages.paddr x.flags)
  leaf : ∀ i, M'.leaf i ≠ none ↔ M.leaf i ≠ none ∨ i = pdx x.start
  kept : ∀ i, M.leaf i ≠ none → M'.leaf i = M.leaf i
  ksupply : ∀ n, Stocked (· ≠ 0) s.desk.objs (n + 2) s.desk.ksupply ↔
    Stocked (· ≠ 0) s'.desk.objs n s'.desk.ksupply
  supply : ∀ n, Stocked IsFrame s.pages.frames (n + pageCost M.missing x.start) s.pages.supply ↔
    Stocked IsFrame s'.pages.frames n s'.pages.supply

/-- What such a round has done when it fails: nothing but to use up answers, and some
answer it asked for was no good. -/
structure Undone (M : PageMap) (v : Nat) (s s' : Vm Books) : Prop where
  real : s'.pages.Real
  mms : s'.desk.mms = s.desk.mms
  fixed : s'.desk.fixed = s.desk.fixed
  frames : s'.pages.frames = s.pages.frames
  plain : s'.pages.plain = s.pages.plain
  indexes : s'.pages.indexes = s.pages.indexes
  objs : s'.desk.objs = s.desk.objs
  log : ∀ y ∈ s'.pages.freed, y ∈ s.pages.freed ∨ y.1 ∉ s.pages.plain ∧ y.2 = s.pages.indexes
  short : ¬ (Stocked (· ≠ 0) s.desk.objs 2 s.desk.ksupply ∧
    Stocked IsFrame s.pages.frames (pageCost M.missing v) s.pages.supply)

theorem pageCost_pos (missing : Nat → Bool) (v : Nat) :
    pageCost missing v = (pageCost missing v - 1) + 1 := by
  unfold pageCost
  split <;> rfl

/-- **One round of `create_uvm` and `mm_clone`**: a new VMA, or nothing. -/
theorem wp_addVma (hreal : s.pages.Real) (hmm : s.desk.mms a = some mm) (hvmas : mm.vmas = l ++ r)
    (hplace : place = l.length) (hM : s.pages.indexes mm.pgindex = some M) (hv : IsPage v)
    (hend : v + pageSize < 2 ^ 32) (hunmapped : M.pte v = 0)
    (hinit : ∀ f t, IsFrame f → f ∈ t.plain → wp (init f) (fun _ t' => t' = t) t)
    (hfail : ∀ s', Undone M v s s' → Q (-ENOMEM) s')
    (hadd : ∀ s' x M', x.start = v → x.flags = flags → Added a mm l r M M' x s s' → Q 0 s') :
    wp (addVma Books.ops a place v pageSize flags pageSize 0 init) Q s := by
  rw [addVma, wp_bind]
  apply wp_kmalloc
  · intro hshort sup
    rw [if_pos rfl, wp_pure]
    exact hfail _ ⟨hreal, rfl, rfl, rfl, rfl, rfl, rfl, fun _ => .inl, fun h => hshort (h.1.mono (by decide))⟩
  intro x sup hsup hx0 hx
  have hk : ∀ n, Stocked (· ≠ 0) s.desk.objs (n + 1) s.desk.ksupply ↔
      Stocked (· ≠ 0) (x :: s.desk.objs) n sup := by
    intro n
    rw [hsup]
    exact stocked_take (· ≠ 0) hx0 hx n sup
  rw [if_neg hx0, wp_bind]
  apply wp_kmalloc
  · intro hshort sup'
    rw [if_pos rfl, wp_bind]
    apply wp_kfree List.mem_cons_self
    rw [wp_pure, List.erase_cons_head]
    exact hfail _ ⟨hreal, rfl, rfl, rfl, rfl, rfl, rfl, fun _ => .inl,
      fun h => hshort ((hk 1).mp h.1)⟩
  intro p sup' hsup' hp0 hp
  have hk' : ∀ n, Stocked (· ≠ 0) s.desk.objs (n + 2) s.desk.ksupply ↔
      Stocked (· ≠ 0) (p :: x :: s.desk.objs) n sup' := by
    intro n
    dsimp only at hsup'
    rw [hk (n + 1), hsup']
    exact stocked_take (· ≠ 0) hp0 hp n sup'
  rw [if_neg hp0, wp_bind, wp_onPages]
  apply wp_books_allocPages hreal
  · intro hshort hreal'
    dsimp only
    apply wp_kfree_both rfl
    refine hfail _ ⟨hreal', rfl, rfl, rfl, rfl, rfl, rfl, fun _ => .inl, fun h => hshort ?_⟩
    exact h.2.mono (by rw [pageCost_pos]; omega)
  intro f rest hrest hf hnew hreal'
  have hfnew : f ∉ s.pages.plain := fun hplain => hnew (hreal.mem_frames hplain)
  have hstock : ∀ n, Stocked IsFrame s.pages.frames (n + 1) s.pages.supply ↔
      Stocked IsFrame (f :: s.pages.frames) n rest := by
    intro n
    rw [hrest]
    exact stocked_take IsFrame hf hnew n rest
  dsimp only
  rw [if_neg (by decide), wp_bind]
  apply wp_getMm
  · exact hmm
  rw [wp_bind, wp_onPages]
  apply wp_books_mapPages hreal' hM hv hf hunmapped
  · -- no frame for the leaf table: the page goes back
    intro hleaf hshort hreal''
    rw [if_pos (by decide), wp_bind, wp_onPages]
    apply wp_books_freePages hreal'' List.mem_cons_self
    intro hreal3
    simp only [List.erase_cons_head] at hreal3 ⊢
    apply wp_kfree_both rfl
    refine hfail _ ⟨hreal3, rfl, rfl, rfl, rfl, rfl, rfl, ?_, fun h => hshort ?_⟩
    · intro y hy
      rcases List.mem_cons.mp hy with rfl | hy
      · exact .inr ⟨hfnew, rfl⟩
      · exact .inl hy
    · have hcost : pageCost M.missing v = 1 + 1 := by simp [pageCost, PageMap.missing, hleaf]
      exact (hstock 1).mp (hcost ▸ h.2)
  · intro M' t' hreal'' hpte hleaf hkept hplain hindexes hfreed hsupply
    rw [if_neg (by decide), wp_bind, wp_onPages]
    refine wp_mono (hinit f t' hf (by rw [hplain]; exact List.mem_cons_self)) ?_
    rintro _ _ rfl
    rw [wp_bind, wp_setMm, wp_pure, hvmas, hplace, insertIdx_length]
    refine hadd _ _ M' rfl rfl ⟨hreal'', ⟨hv, hend, rfl, rfl, rfl, rfl, hf⟩, rfl, rfl, hplain, hfnew,
      rfl, hx, hp, hfreed, hindexes, hpte, hleaf, hkept, hk', fun n => ?_⟩
    rw [pageCost_pos, ← Nat.add_assoc]
    exact (hstock _).trans (hsupply n)

theorem Undone.tended (hu : Undone M v s s') : Tended s s' := by
  refine ⟨fun h => ⟨hu.real, ?_, ?_⟩, hu.fixed⟩
  · intro y hy
    rcases hu.log y hy with hold | ⟨hnot, heq⟩
    · exact h.log y hold
    · exact heq ▸ h.inv.unmapped hnot
  · rw [hu.plain, hu.indexes, hu.objs, hu.mms]
    exact h.inv

/-- The invariant after a round that succeeded. -/
theorem Added.tended {M' : PageMap} (hadd : Added a mm l r M M' x s s')
    (hmm : s.desk.mms a = some mm) (hvmas : mm.vmas = l ++ r)
    (hM : s.pages.indexes mm.pgindex = some M) (hl : ∀ y ∈ l, y.start + pageSize ≤ x.start)
    (hr : ∀ y ∈ r, x.start + pageSize ≤ y.start) : Tended s s' := by
  refine ⟨fun h => ⟨hadd.real, ?_, ?_⟩, hadd.fixed⟩
  · rw [hadd.freed]
    exact h.log
  · have hok := h.inv.spaces.ok hmm hM
    rw [hvmas] at hok
    have hgrown : Mm.OK M' (l ++ x :: r) :=
      hok.grow hadd.shape hl hr hadd.pte (pteFor_ne_zero _ _)
        (ptePaddr_pteFor hadd.shape.frame _) hadd.leaf
    rw [hadd.plain, hadd.indexes, hadd.objs, hadd.mms]
    exact h.inv.grow hmm hvmas hgrown hadd.frame hadd.vma hadd.upages

end Calls

end AimKernel
