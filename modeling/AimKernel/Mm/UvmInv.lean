import AimKernel.Lib.Links
import AimKernel.Mm.UvmSim

/-!
# AimKernel.Mm.UvmInv

The invariant of the address spaces.

`Mm.OK` ties a VMA list to the map of its page index: the list ascends, the entries
are those of the VMAs, and a leaf table is there exactly where a VMA lies in its
region. `Inv` adds what holds across address spaces: every page index belongs to one
`mm`, and every plain frame and every object that is handed out either belongs to
somebody else (`base`, `baseObjs`) or serves exactly one purpose.

A VMA comes or goes with one entry, one frame and two objects. The lemmas `Inv.grow`
and `Inv.shrink` say that the invariant goes along; the rest of the development never
looks at the parts.
-/

namespace AimKernel

open Function (update update_comm update_of_ne update_self)

/-! ### One address space -/

/-- A VMA as the calls make it: one page below the top, with a frame of its own. -/
structure Vma.OK (vma : Vma) : Prop where
  page : IsPage vma.start
  bound : vma.start + pageSize < 2 ^ 32
  size : vma.size = pageSize
  psize : vma.pages.size = pageSize
  pflags : vma.pages.flags = 0
  refs : vma.pages.refs = 1
  frame : IsFrame vma.pages.paddr

/-- The VMA list and the page index of an address space say the same. -/
structure Mm.OK (M : PageMap) (vmas : List Vma) : Prop where
  sorted : vmas.Pairwise fun x y => x.start + pageSize ≤ y.start
  vma : ∀ x ∈ vmas, x.OK
  mapped : ∀ x ∈ vmas, M.pte x.start ≠ 0 ∧ ptePaddr (M.pte x.start) = x.pages.paddr
  backed : ∀ v, M.pte v ≠ 0 → ∃ x ∈ vmas, x.start = v
  leaf : ∀ i, M.leaf i ≠ none ↔ ∃ x ∈ vmas, pdx x.start = i

namespace Mm.OK

variable {M M' : PageMap} {l r : List Vma} {x : Vma}

theorem empty : Mm.OK .empty [] where
  sorted := .nil
  vma := by simp
  mapped := by simp
  backed v h := absurd rfl h
  leaf i := by simp [PageMap.empty]

/-- The other VMAs of the list start elsewhere. -/
theorem start_ne (h : Mm.OK M (l ++ x :: r)) {y : Vma} (hy : y ∈ l ++ r) : y.start ≠ x.start := by
  obtain ⟨-, hl, hr⟩ := pairwise_middle.mp h.sorted
  have hpos : 0 < pageSize := by decide
  rcases List.mem_append.mp hy with hy | hy
  · have := hl y hy
    omega
  · have := hr y hy
    omega

theorem unmapped (h : Mm.OK M (l ++ r)) {v : Nat} (hv : ∀ y ∈ l ++ r, y.start ≠ v) :
    M.pte v = 0 := by
  by_contra hne
  obtain ⟨y, hy, heq⟩ := h.backed v hne
  exact hv y hy heq

theorem grow (h : Mm.OK M (l ++ r)) (hx : x.OK) (hl : ∀ y ∈ l, y.start + pageSize ≤ x.start)
    (hr : ∀ y ∈ r, x.start + pageSize ≤ y.start) {e : Nat}
    (hpte : M'.pte = update M.pte x.start e) (he : e ≠ 0)
    (hpaddr : ptePaddr e = x.pages.paddr)
    (hleaf : ∀ i, M'.leaf i ≠ none ↔ M.leaf i ≠ none ∨ i = pdx x.start) :
    Mm.OK M' (l ++ x :: r) := by
  have hsorted : (l ++ x :: r).Pairwise fun x y => x.start + pageSize ≤ y.start :=
    pairwise_middle.mpr ⟨h.sorted, hl, hr⟩
  have hne : ∀ y ∈ l ++ r, y.start ≠ x.start := by
    intro y hy
    have hpos : 0 < pageSize := by decide
    rcases List.mem_append.mp hy with hy | hy
    · have := hl y hy
      omega
    · have := hr y hy
      omega
  refine ⟨hsorted, forall_mem_insert h.vma hx, forall_mem_insert (fun y hy => ?_) ?_, ?_, ?_⟩
  · rw [hpte, update_of_ne (hne y hy)]
    exact h.mapped y hy
  · rw [hpte, update_self]
    exact ⟨he, hpaddr⟩
  · intro v hv
    rw [hpte] at hv
    by_cases hvx : v = x.start
    · exact ⟨x, mem_middle.mpr (.inl rfl), hvx.symm⟩
    · rw [update_of_ne hvx] at hv
      obtain ⟨y, hy, heq⟩ := h.backed v hv
      exact ⟨y, mem_of_mem_rest hy, heq⟩
  · intro i
    rw [hleaf, h.leaf, exists_mem_middle, or_comm, @eq_comm _ i]

theorem shrink (h : Mm.OK M (l ++ x :: r)) (hpte : M'.pte = update M.pte x.start 0)
    (hleaf : ∀ i, M'.leaf i ≠ none ↔
      M.leaf i ≠ none ∧ (i = pdx x.start → ∃ w, pdx w = i ∧ M'.pte w ≠ 0)) :
    Mm.OK M' (l ++ r) := by
  have hsub : ∀ y ∈ l ++ r, y ∈ l ++ x :: r := fun _ => mem_of_mem_rest
  have hrest : ∀ y ∈ l ++ x :: r, y.start ≠ x.start → y ∈ l ++ r := by
    intro y hy hne
    refine (mem_middle.mp hy).resolve_left ?_
    rintro rfl
    exact hne rfl
  have hkeep : ∀ y ∈ l ++ r, M'.pte y.start = M.pte y.start := by
    intro y hy
    rw [hpte, update_of_ne (h.start_ne hy)]
  have hbacked : ∀ v, M'.pte v ≠ 0 → ∃ y ∈ l ++ r, y.start = v := by
    intro v hv
    have hvx : v ≠ x.start := by
      rintro rfl
      rw [hpte, update_self] at hv
      exact hv rfl
    rw [hpte, update_of_ne hvx] at hv
    obtain ⟨y, hy, rfl⟩ := h.backed v hv
    exact ⟨y, hrest y hy hvx, rfl⟩
  refine ⟨(pairwise_middle.mp h.sorted).1, fun y hy => h.vma y (hsub y hy), ?_, hbacked, ?_⟩
  · intro y hy
    rw [hkeep y hy]
    exact h.mapped y (hsub y hy)
  · intro i
    rw [hleaf, h.leaf]
    constructor
    · rintro ⟨⟨y, hy, rfl⟩, hlast⟩
      by_cases hyx : y.start = x.start
      · -- the table of the page that went: something else keeps it
        obtain ⟨w, hw, hne⟩ := hlast (congrArg pdx hyx)
        obtain ⟨z, hz, rfl⟩ := hbacked w hne
        exact ⟨z, hz, hw⟩
      · exact ⟨y, hrest y hy hyx, rfl⟩
    · rintro ⟨y, hy, rfl⟩
      refine ⟨⟨y, hsub y hy, rfl⟩, fun _ => ⟨y.start, rfl, ?_⟩⟩
      rw [hkeep y hy]
      exact (h.mapped y (hsub y hy)).1

end Mm.OK

/-! ### All address spaces -/

/-- Every `mm` has a page index of its own, and there are no others. -/
structure Spaces (indexes : Indexes) (mms : Nat → Option Mm) : Prop where
  space : ∀ {a mm}, mms a = some mm → ∃ M, indexes mm.pgindex = some M ∧ Mm.OK M mm.vmas
  index : ∀ {pgindex M}, indexes pgindex = some M → ∃ a mm, mms a = some mm ∧ mm.pgindex = pgindex
  inj : ∀ {a b mm mm'}, mms a = some mm → mms b = some mm' → mm.pgindex = mm'.pgindex → a = b

/-- The VMA of an address space that starts at a page. -/
def vmaAt (mms : Nat → Option Mm) : Nat × Nat → Option Vma
  | (a, v) => (mms a).bind fun mm => mm.vmas.find? fun x => x.start == v

/-- What a plain frame serves as. -/
def userRole (mms : Nat → Option Mm) (place : Nat × Nat) : Option Nat :=
  (vmaAt mms place).map fun x => x.pages.paddr

/-- What an object is: an address space, or the VMA or the `upages` of a page. -/
inductive Use
  | mm (a : Nat)
  | vma (place : Nat × Nat)
  | upages (place : Nat × Nat)
  deriving DecidableEq

/-- The object for each use. -/
def objRole (mms : Nat → Option Mm) : Use → Option Nat
  | .mm a => (mms a).map fun _ => a
  | .vma place => (vmaAt mms place).map Vma.addr
  | .upages place => (vmaAt mms place).map fun x => x.pages.addr

/-- The invariant of the address spaces, beside frames `base` and objects `baseObjs` of
others. -/
structure Inv (base baseObjs plain : List Nat) (indexes : Indexes) (objs : List Nat)
    (mms : Nat → Option Mm) : Prop where
  spaces : Spaces indexes mms
  user : Owned plain base (userRole mms)
  object : Owned objs baseObjs (objRole mms)

/-- The same address space with another VMA list. -/
def setVmas (mms : Nat → Option Mm) (a : Nat) (mm : Mm) (vmas : List Vma) : Nat → Option Mm :=
  Function.update mms a (some { mm with vmas := vmas })

section Changes

variable {base baseObjs plain objs : List Nat} {indexes : Indexes} {mms : Nat → Option Mm}
  {a : Nat} {mm : Mm} {M M' : PageMap} {l r : List Vma} {x : Vma}

theorem Spaces.ok (h : Spaces indexes mms) (hmm : mms a = some mm)
    (hM : indexes mm.pgindex = some M) : Mm.OK M mm.vmas := by
  obtain ⟨N, hN, hok⟩ := h.space hmm
  obtain rfl := Option.some.inj (hM.symm.trans hN)
  exact hok

/-- The list and the page index of one address space change together. -/
theorem Spaces.change (h : Spaces indexes mms) (hmm : mms a = some mm) {vmas : List Vma}
    (hok : Mm.OK M' vmas) :
    Spaces (update indexes mm.pgindex (some M')) (setVmas mms a mm vmas) := by
  -- the page index of a space afterwards is the one it had
  have hsame : ∀ {b mm'}, setVmas mms a mm vmas b = some mm' →
      ∃ old, mms b = some old ∧ old.pgindex = mm'.pgindex := by
    intro b mm' hb
    rcases update_some_eq hb with ⟨rfl, rfl⟩ | ⟨-, hb⟩
    · exact ⟨mm, hmm, rfl⟩
    · exact ⟨mm', hb, rfl⟩
  refine ⟨?_, ?_, ?_⟩
  · intro b mm' hb
    rcases update_some_eq hb with ⟨-, rfl⟩ | ⟨hba, hb⟩
    · exact ⟨M', update_self .., hok⟩
    · obtain ⟨N, hN, hNok⟩ := h.space hb
      have hne : mm'.pgindex ≠ mm.pgindex := fun heq => hba (h.inj hb hmm heq)
      exact ⟨N, by rw [update_of_ne hne]; exact hN, hNok⟩
  · intro pgindex N hN
    rcases update_some_eq hN with ⟨hpg, -⟩ | ⟨hpg, hN⟩
    · exact ⟨a, _, update_self .., hpg.symm⟩
    · obtain ⟨b, mm', hb, rfl⟩ := h.index hN
      have hba : b ≠ a := by
        rintro rfl
        rw [hmm] at hb
        cases hb
        exact hpg rfl
      exact ⟨b, mm', by rw [setVmas, update_of_ne hba]; exact hb, rfl⟩
  · intro b c mm1 mm2 hb hc heq
    obtain ⟨old1, hb', hpg1⟩ := hsame hb
    obtain ⟨old2, hc', hpg2⟩ := hsame hc
    exact h.inj hb' hc' (by rw [hpg1, hpg2, heq])

theorem vmaAt_setVmas (mms : Nat → Option Mm) (a : Nat) (mm : Mm) (vmas : List Vma) (b v : Nat) :
    vmaAt (setVmas mms a mm vmas) (b, v) =
      if b = a then vmas.find? (fun x => x.start == v) else vmaAt mms (b, v) := by
  unfold vmaAt setVmas
  dsimp only
  by_cases hba : b = a
  · rw [hba, update_self, if_pos rfl]
    rfl
  · rw [update_of_ne hba, if_neg hba]

/-- The VMA that starts at a page, in a list with one VMA more. -/
theorem find?_insert (hne : ∀ y ∈ l ++ r, y.start ≠ x.start) (v : Nat) :
    (l ++ x :: r).find? (fun y => y.start == v) =
      if v = x.start then some x else (l ++ r).find? fun y => y.start == v := by
  rw [List.find?_append, List.find?_cons]
  by_cases hv : v = x.start
  · have hl : l.find? (fun y => y.start == v) = none := by
      rw [List.find?_eq_none]
      intro y hy
      rw [hv, beq_iff_eq]
      exact hne y (List.mem_append_left r hy)
    rw [if_pos hv, hl, Option.none_or, hv, beq_self_eq_true]
  · have hx : (x.start == v) = false := beq_false_of_ne fun heq => hv heq.symm
    rw [if_neg hv, List.find?_append, hx]

/-- Lists that differ at one page. -/
theorem vmaAt_update {vmas : List Vma} {y : Option Vma} {v : Nat} (hmm : mms a = some mm)
    (hfind : ∀ w, vmas.find? (fun x => x.start == w) =
      if w = v then y else mm.vmas.find? fun x => x.start == w) :
    vmaAt (setVmas mms a mm vmas) = update (vmaAt mms) (a, v) y := by
  funext place
  obtain ⟨b, w⟩ := place
  rw [vmaAt_setVmas, hfind]
  by_cases hplace : (b, w) = (a, v)
  · obtain ⟨hba, hw⟩ := Prod.mk.inj hplace
    rw [if_pos hba, if_pos hw, hplace, update_self]
  · rw [update_of_ne hplace]
    by_cases hba : b = a
    · have hw : w ≠ v := fun heq => hplace (by rw [hba, heq])
      rw [if_pos hba, if_neg hw, hba]
      simp [vmaAt, hmm]
    · rw [if_neg hba]

theorem vmaAt_insert (hmm : mms a = some mm) (hvmas : mm.vmas = l ++ r)
    (hne : ∀ y ∈ l ++ r, y.start ≠ x.start) :
    vmaAt (setVmas mms a mm (l ++ x :: r)) =
      update (vmaAt mms) (a, x.start) (some x) :=
  vmaAt_update hmm (hvmas ▸ find?_insert hne)

theorem vmaAt_erase (hmm : mms a = some mm) (hvmas : mm.vmas = l ++ x :: r)
    (hne : ∀ y ∈ l ++ r, y.start ≠ x.start) :
    vmaAt (setVmas mms a mm (l ++ r)) = update (vmaAt mms) (a, x.start) none := by
  refine vmaAt_update hmm fun w => ?_
  by_cases hw : w = x.start
  · rw [if_pos hw, List.find?_eq_none, hw]
    simpa using hne
  · rw [if_neg hw, hvmas, find?_insert hne, if_neg hw]

/-- The VMA of the list at the page where it starts. -/
theorem vmaAt_mem (hmm : mms a = some mm) (hvmas : mm.vmas = l ++ x :: r)
    (hne : ∀ y ∈ l ++ r, y.start ≠ x.start) : vmaAt mms (a, x.start) = some x := by
  have hfind := find?_insert hne x.start
  simp [vmaAt, hmm, hvmas, hfind]

theorem Mm.OK.vmaAt_start (hok : Mm.OK M mm.vmas) (hmm : mms a = some mm) (hx : x ∈ mm.vmas) :
    vmaAt mms (a, x.start) = some x := by
  obtain ⟨l, r, hvmas⟩ := List.append_of_mem hx
  exact vmaAt_mem hmm hvmas fun y hy => (hvmas ▸ hok).start_ne hy

theorem Mm.OK.userRole_start (hok : Mm.OK M mm.vmas) (hmm : mms a = some mm) (hx : x ∈ mm.vmas) :
    userRole mms (a, x.start) = some x.pages.paddr := by
  simp [userRole, hok.vmaAt_start hmm hx]

theorem vmaAt_none (hmm : mms a = some mm) {v : Nat} (hne : ∀ y ∈ mm.vmas, y.start ≠ v) :
    vmaAt mms (a, v) = none := by
  simpa [vmaAt, hmm] using hne

theorem map_update {ι α β : Type} [DecidableEq ι] (f : ι → Option α) (i : ι) (y : Option α)
    (g : α → β) :
    (fun j => (update f i y j).map g) =
      update (fun j => (f j).map g) i (y.map g) := by
  funext j
  by_cases hj : j = i
  · rw [hj, update_self, update_self]
  · rw [update_of_ne hj, update_of_ne hj]

theorem userRole_update {mms mms' : Nat → Option Mm} {place : Nat × Nat} {y : Option Vma}
    (h : vmaAt mms' = update (vmaAt mms) place y) :
    userRole mms' =
      update (userRole mms) place (y.map fun x => x.pages.paddr) := by
  show (fun j => (vmaAt mms' j).map _) = _
  rw [h, map_update]
  rfl

theorem objRole_update {mms mms' : Nat → Option Mm} {place : Nat × Nat} {y : Option Vma}
    (hmms : ∀ a, (mms' a).isSome = (mms a).isSome)
    (h : vmaAt mms' = update (vmaAt mms) place y) :
    objRole mms' =
      update (update (objRole mms) (.vma place) (y.map Vma.addr))
        (.upages place) (y.map fun x => x.pages.addr) := by
  funext use
  cases use with
  | mm a =>
    have ha := hmms a
    unfold objRole
    cases hm : mms a <;> cases hm' : mms' a <;> simp_all
  | vma place' =>
    rw [update_of_ne (by simp)]
    by_cases hp : place' = place
    · rw [hp, update_self, objRole, h, update_self]
    · rw [update_of_ne (by simpa using hp), objRole, h, update_of_ne hp, objRole]
  | upages place' =>
    by_cases hp : place' = place
    · rw [hp, update_self, objRole, h, update_self]
    · rw [update_of_ne (by simpa using hp), update_of_ne (by simp), objRole, h,
        update_of_ne hp, objRole]

theorem setVmas_isSome (hmm : mms a = some mm) (vmas : List Vma) (b : Nat) :
    (setVmas mms a mm vmas b).isSome = (mms b).isSome := by
  unfold setVmas
  by_cases hba : b = a
  · rw [hba, update_self, hmm]
    rfl
  · rw [update_of_ne hba]

/-- A VMA comes in, with its entry, its frame and its two objects. -/
theorem Inv.grow (h : Inv base baseObjs plain indexes objs mms) (hmm : mms a = some mm)
    (hvmas : mm.vmas = l ++ r) (hok : Mm.OK M' (l ++ x :: r))
    (hf : x.pages.paddr ∉ plain) (hv : x.addr ∉ objs) (hp : x.pages.addr ∉ x.addr :: objs) :
    Inv base baseObjs (x.pages.paddr :: plain)
      (update indexes mm.pgindex (some M')) (x.pages.addr :: x.addr :: objs)
      (setVmas mms a mm (l ++ x :: r)) := by
  have hne : ∀ y ∈ l ++ r, y.start ≠ x.start := fun y => hok.start_ne
  have hat := vmaAt_insert hmm hvmas hne
  have hvacant : vmaAt mms (a, x.start) = none := vmaAt_none hmm (hvmas ▸ hne)
  refine ⟨h.spaces.change hmm hok, ?_, ?_⟩
  · rw [userRole_update hat]
    exact h.user.claim hf (by simp [userRole, hvacant])
  · rw [objRole_update (setVmas_isSome hmm _) hat]
    refine (h.object.claim hv (by simp [objRole, hvacant])).claim hp ?_
    simp [objRole, hvacant]

/-- A VMA goes, with its entry, its frame and its two objects. -/
theorem Inv.shrink (h : Inv base baseObjs plain indexes objs mms) (hmm : mms a = some mm)
    (hvmas : mm.vmas = l ++ x :: r) (hold : Mm.OK M (l ++ x :: r)) (hok : Mm.OK M' (l ++ r)) :
    (x.pages.paddr ∈ plain ∧ x.pages.addr ∈ objs ∧ x.addr ∈ objs.erase x.pages.addr) ∧
      Inv base baseObjs (plain.erase x.pages.paddr)
        (update indexes mm.pgindex (some M'))
        ((objs.erase x.pages.addr).erase x.addr) (setVmas mms a mm (l ++ r)) := by
  have hne : ∀ y ∈ l ++ r, y.start ≠ x.start := fun y => hold.start_ne
  have hat := vmaAt_erase hmm hvmas hne
  have hthere := vmaAt_mem hmm hvmas hne
  have huser : userRole mms (a, x.start) = some x.pages.paddr := by simp [userRole, hthere]
  have hupages : objRole mms (.upages (a, x.start)) = some x.pages.addr := by
    simp [objRole, hthere]
  have hvma : update (objRole mms) (.upages (a, x.start)) none (.vma (a, x.start)) =
      some x.addr := by
    simp [objRole, hthere]
  have hreleased := h.object.release hupages
  refine ⟨⟨h.user.mem_of_role huser, h.object.mem_of_role hupages,
    hreleased.mem_of_role hvma⟩, h.spaces.change hmm hok, ?_, ?_⟩
  · rw [userRole_update hat]
    exact h.user.release huser
  · rw [objRole_update (setVmas_isSome hmm _) hat, update_comm (by simp)]
    exact hreleased.release hvma

/-! ### Flags and permissions -/

/-- A VMA without its flags, which nothing in the invariant depends on. -/
def Vma.body (x : Vma) : Vma := { x with flags := 0 }

theorem Mm.OK.body {vmas : List Vma} : Mm.OK M (vmas.map Vma.body) ↔ Mm.OK M vmas := by
  have hregion : ∀ i, (∃ x ∈ vmas.map Vma.body, pdx x.start = i) ↔ ∃ x ∈ vmas, pdx x.start = i := by
    intro i
    constructor
    · rintro ⟨y, hy, hi⟩
      obtain ⟨x, hx, rfl⟩ := List.mem_map.mp hy
      exact ⟨x, hx, hi⟩
    · rintro ⟨x, hx, hi⟩
      exact ⟨x.body, List.mem_map_of_mem hx, hi⟩
  constructor
  · intro h
    refine ⟨List.pairwise_map.mp h.sorted, ?_, ?_, ?_, ?_⟩
    · intro x hx
      have hok := h.vma _ (List.mem_map_of_mem hx)
      exact ⟨hok.page, hok.bound, hok.size, hok.psize, hok.pflags, hok.refs, hok.frame⟩
    · exact fun x hx => h.mapped x.body (List.mem_map_of_mem hx)
    · intro v hv
      obtain ⟨y, hy, rfl⟩ := h.backed v hv
      obtain ⟨x, hx, rfl⟩ := List.mem_map.mp hy
      exact ⟨x, hx, rfl⟩
    · exact fun i => (h.leaf i).trans (hregion i)
  · intro h
    refine ⟨List.pairwise_map.mpr h.sorted, ?_, ?_, ?_, ?_⟩
    · rw [List.forall_mem_map]
      intro x hx
      have hok := h.vma x hx
      exact ⟨hok.page, hok.bound, hok.size, hok.psize, hok.pflags, hok.refs, hok.frame⟩
    · rw [List.forall_mem_map]
      exact h.mapped
    · intro v hv
      obtain ⟨x, hx, hxv⟩ := h.backed v hv
      exact ⟨x.body, List.mem_map_of_mem hx, hxv⟩
    · exact fun i => (h.leaf i).trans (hregion i).symm

theorem Mm.OK.permit {vmas : List Vma} (h : Mm.OK M vmas) {x : Vma} (hx : x ∈ vmas) {e : Nat}
    (hpte : M'.pte = update M.pte x.start e) (he : e ≠ 0)
    (hpaddr : ptePaddr e = x.pages.paddr) (hleaf : M'.leaf = M.leaf) : Mm.OK M' vmas := by
  have hfunctional : ∀ y ∈ vmas, y.start = x.start → y.pages.paddr = x.pages.paddr := by
    intro y hy heq
    rw [← (h.mapped y hy).2, ← (h.mapped x hx).2, heq]
  refine ⟨h.sorted, h.vma, ?_, ?_, ?_⟩
  · intro y hy
    rw [hpte]
    by_cases hyx : y.start = x.start
    · rw [hyx, update_self]
      exact ⟨he, hpaddr.trans (hfunctional y hy hyx).symm⟩
    · rw [update_of_ne hyx]
      exact h.mapped y hy
  · intro v hv
    by_cases hvx : v = x.start
    · exact ⟨x, hx, hvx.symm⟩
    · rw [hpte, update_of_ne hvx] at hv
      exact h.backed v hv
  · rw [hleaf]
    exact h.leaf

/-- Flags and permissions in one address space change. -/
theorem Inv.permit (h : Inv base baseObjs plain indexes objs mms) (hmm : mms a = some mm)
    {vmas : List Vma} (hok : Mm.OK M' vmas) (hbody : vmas.map Vma.body = mm.vmas.map Vma.body) :
    Inv base baseObjs plain (update indexes mm.pgindex (some M')) objs
      (setVmas mms a mm vmas) := by
  have hfind : ∀ v, (vmas.find? fun x => x.start == v).map Vma.body =
      (mm.vmas.find? fun x => x.start == v).map Vma.body := by
    intro v
    have := congrArg (List.find? fun x => x.start == v) hbody
    rw [List.find?_map, List.find?_map] at this
    exact this
  have hat : ∀ place, (vmaAt (setVmas mms a mm vmas) place).map Vma.body =
      (vmaAt mms place).map Vma.body := by
    rintro ⟨b, v⟩
    rw [vmaAt_setVmas]
    by_cases hba : b = a
    · rw [if_pos hba, hfind, hba]
      simp [vmaAt, hmm]
    · rw [if_neg hba]
  have huser : userRole (setVmas mms a mm vmas) = userRole mms := by
    funext place
    have := congrArg (Option.map fun x : Vma => x.pages.paddr) (hat place)
    rw [Option.map_map, Option.map_map] at this
    exact this
  have hobj : objRole (setVmas mms a mm vmas) = objRole mms := by
    funext use
    cases use with
    | mm b =>
      have hb := setVmas_isSome hmm vmas b
      unfold objRole
      cases hm : mms b <;> cases hm' : setVmas mms a mm vmas b <;> simp_all
    | vma place =>
      have := congrArg (Option.map Vma.addr) (hat place)
      rw [Option.map_map, Option.map_map] at this
      exact this
    | upages place =>
      have := congrArg (Option.map fun x : Vma => x.pages.addr) (hat place)
      rw [Option.map_map, Option.map_map] at this
      exact this
  exact ⟨h.spaces.change hmm hok, huser ▸ h.user, hobj ▸ h.object⟩

/-! ### New and destroyed address spaces -/

theorem vmaAt_update_empty {new : Option Mm} (hold : ∀ mm, mms a = some mm → mm.vmas = [])
    (hnew : ∀ mm, new = some mm → mm.vmas = []) :
    vmaAt (update mms a new) = vmaAt mms := by
  have hempty : ∀ (o : Option Mm) v, (∀ mm, o = some mm → mm.vmas = []) →
      (o.bind fun mm => mm.vmas.find? fun x => x.start == v) = none := by
    intro o v ho
    cases o with
    | none => rfl
    | some mm => simp [ho mm rfl]
  funext place
  obtain ⟨b, v⟩ := place
  unfold vmaAt
  dsimp only
  by_cases hba : b = a
  · rw [hba, update_self, hempty new v hnew, hempty (mms a) v hold]
  · rw [update_of_ne hba]

theorem objRole_update_mm {new : Option Mm} (hold : ∀ mm, mms a = some mm → mm.vmas = [])
    (hnew : ∀ mm, new = some mm → mm.vmas = []) :
    objRole (update mms a new) =
      update (objRole mms) (.mm a) (new.map fun _ => a) := by
  have hat := vmaAt_update_empty hold hnew
  funext use
  cases use with
  | mm b =>
    by_cases hba : b = a
    · rw [hba, update_self, objRole, update_self]
    · rw [update_of_ne (by simpa using hba), objRole, objRole, update_of_ne hba]
  | vma place => rw [update_of_ne (by simp), objRole, objRole, hat]
  | upages place => rw [update_of_ne (by simp), objRole, objRole, hat]

theorem Inv.new (h : Inv base baseObjs plain indexes objs mms) (ha : a ∉ objs) {pgindex : Nat}
    (hpg : indexes pgindex = none) :
    Inv base baseObjs plain (update indexes pgindex (some .empty)) (a :: objs)
      (update mms a (some ⟨pgindex, []⟩)) := by
  have hvacant : mms a = none := by
    cases hmm : mms a with
    | none => rfl
    | some mm =>
      have hrole : objRole mms (.mm a) = some a := by simp [objRole, hmm]
      exact absurd (h.object.mem_of_role hrole) ha
  have hold : ∀ mm, mms a = some mm → mm.vmas = [] := by
    intro mm hmm
    rw [hvacant] at hmm
    cases hmm
  have hnew : ∀ mm, some (⟨pgindex, []⟩ : Mm) = some mm → mm.vmas = [] := by
    rintro mm hmm
    cases hmm
    rfl
  have hother : ∀ {b mm}, mms b = some mm → mm.pgindex ≠ pgindex := by
    intro b mm hb heq
    obtain ⟨M, hM, -⟩ := h.spaces.space hb
    rw [heq, hpg] at hM
    cases hM
  refine ⟨⟨?_, ?_, ?_⟩, ?_, ?_⟩
  · intro b mm hb
    rcases update_some_eq hb with ⟨-, rfl⟩ | ⟨-, hb⟩
    · exact ⟨.empty, update_self .., Mm.OK.empty⟩
    · obtain ⟨M, hM, hok⟩ := h.spaces.space hb
      exact ⟨M, by rw [update_of_ne (hother hb)]; exact hM, hok⟩
  · intro q M hM
    rcases update_some_eq hM with ⟨hq, -⟩ | ⟨-, hM⟩
    · exact ⟨a, _, update_self .., hq.symm⟩
    · obtain ⟨b, mm, hb, hpgb⟩ := h.spaces.index hM
      have hba : b ≠ a := by
        rintro rfl
        rw [hvacant] at hb
        cases hb
      exact ⟨b, mm, by rw [update_of_ne hba]; exact hb, hpgb⟩
  · intro b c mm mm' hb hc heq
    rcases update_some_eq hb with ⟨rfl, rfl⟩ | ⟨-, hb⟩
    · rcases update_some_eq hc with ⟨rfl, -⟩ | ⟨-, hc⟩
      · rfl
      · exact absurd heq.symm (hother hc)
    · rcases update_some_eq hc with ⟨-, rfl⟩ | ⟨-, hc⟩
      · exact absurd heq (hother hb)
      · exact h.spaces.inj hb hc heq
  · have huser : userRole (update mms a (some ⟨pgindex, []⟩)) = userRole mms := by
      funext place
      rw [userRole, userRole, vmaAt_update_empty hold hnew]
    rw [huser]
    exact h.user
  · rw [objRole_update_mm hold hnew]
    exact h.object.claim ha (by simp [objRole, hvacant])

/-- The end of an address space without VMAs. -/
theorem Inv.drop (h : Inv base baseObjs plain indexes objs mms) (hmm : mms a = some mm)
    (hempty : mm.vmas = []) :
    a ∈ objs ∧
      Inv base baseObjs plain (update indexes mm.pgindex none) (objs.erase a)
        (update mms a none) := by
  have hold : ∀ mm', mms a = some mm' → mm'.vmas = [] := by
    intro mm' hmm'
    rw [hmm] at hmm'
    cases hmm'
    exact hempty
  have hnew : ∀ mm', (none : Option Mm) = some mm' → mm'.vmas = [] := fun _ hn => nomatch hn
  have hrole : objRole mms (.mm a) = some a := by simp [objRole, hmm]
  refine ⟨h.object.mem_of_role hrole, ⟨?_, ?_, ?_⟩, ?_, ?_⟩
  · intro b mm' hb
    obtain ⟨hba, hb⟩ := update_none_eq hb
    obtain ⟨M, hM, hok⟩ := h.spaces.space hb
    have hne : mm'.pgindex ≠ mm.pgindex := fun heq => hba (h.spaces.inj hb hmm heq)
    exact ⟨M, by rw [update_of_ne hne]; exact hM, hok⟩
  · intro q M hM
    obtain ⟨hq, hM⟩ := update_none_eq hM
    obtain ⟨b, mm', hb, hpg⟩ := h.spaces.index hM
    have hba : b ≠ a := by
      rintro rfl
      rw [hmm] at hb
      cases hb
      exact hq hpg.symm
    exact ⟨b, mm', by rw [update_of_ne hba]; exact hb, hpg⟩
  · intro b c mm1 mm2 hb hc heq
    exact h.spaces.inj (update_none_eq hb).2 (update_none_eq hc).2 heq
  · have huser : userRole (update mms a none) = userRole mms := by
      funext place
      rw [userRole, userRole, vmaAt_update_empty hold hnew]
    rw [huser]
    exact h.user
  · rw [objRole_update_mm hold hnew]
    exact h.object.release hrole

end Changes

end AimKernel
