import AimKernel.Mm.PgTableSpec
import Mathlib.Logic.Function.Basic

/-!
# AimKernel.I386.PgOperation

Page indexes of the i386 port (`pgoperation.c`).

Memory is seen by frames, and a frame as words; low and high kernel addresses of a frame are the
same. `map_pages`, `unmap_pages` and `set_pages_perm` go through a range in one loop (`pageLoop`),
which ends behind the last page without having counted it: so `unmap_pages` reports a page too few,
and of the pointer for the frame it moves the pointer itself. `set_pages_perm` adds permissions and
takes none away. `uva2kva` follows the null pointer that `walkpgdir` returns where there is no page
table, and leaves out the offset of the address.
-/

namespace AimKernel.I386

/-- How a call can go wrong. -/
inductive Fault
  | remap
  | notMapped
  | nullPointer
  /-- `pgalloc` fails with `(addr_t)-1`, which is not zero. -/
  | wildPointer
  deriving Repr, DecidableEq

/-- Memory by frames and words, and the frames that `pgalloc` hands out. -/
structure Tables where
  word : BitVec 32 → Nat → BitVec 32
  supply : List (BitVec 32)

def Tables.store (t : Tables) (p : BitVec 32 × Nat) (w : BitVec 32) : Tables :=
  { t with word := Function.update t.word p.1 (Function.update (t.word p.1) p.2 w) }

/-- `PTE_P`. -/
def Present (e : BitVec 32) : Prop := e.getLsbD 0 = true

/-- `PTE_U`. -/
def User (e : BitVec 32) : Prop := e.getLsbD 2 = true

instance (e : BitVec 32) : Decidable (Present e) := inferInstanceAs (Decidable (_ = _))

instance (e : BitVec 32) : Decidable (User e) := inferInstanceAs (Decidable (_ = _))

/-- `PTE_ADDR`. -/
def pteAddr (e : BitVec 32) : BitVec 32 := e &&& 0xfffff000#32

/-- `walkpgdir`: the place of the entry, or `NULL`. -/
def walkpgdir (pgindex : BitVec 32) (vaddr : Nat) (alloc : Bool) (t : Tables) :
    Except Fault (Option (BitVec 32 × Nat) × Tables) :=
  let pde := t.word pgindex (pdx vaddr)
  if Present pde then .ok (some (pteAddr pde, ptx vaddr), t)
  else if !alloc then .ok (none, t)
  else
    match t.supply with
    | [] => .error .wildPointer
    | pgtab :: supply =>
      if pgtab = 0#32 then .ok (none, { t with supply })
      else
        let t : Tables := ⟨Function.update t.word pgtab fun _ => 0#32, supply⟩
        .ok (some (pgtab, ptx vaddr), t.store (pgindex, pdx vaddr) (pgtab ||| 7#32))

/-- What a round of a loop does with an entry. -/
inductive Verdict
  | panic (e : Fault)
  | leave
  | write (w : BitVec 32)

/-- The loop that `map_pages`, `unmap_pages` and `set_pages_perm` share, with `rounds` more rounds
to go until `a` is `last`. This is the `k`-th round, and `result k` is returned if it is the last. -/
def pageLoop (pgindex : BitVec 32) (alloc : Bool) (visit : Nat → BitVec 32 → Verdict)
    (result : Nat → Int) (rounds k a : Nat) (t : Tables) : Except Fault (Int × Tables) :=
  match walkpgdir pgindex a alloc t with
  | .error e => .error e
  | .ok (none, t) => .ok (-1, t)
  | .ok (some pte, t) =>
    match visit k (t.word pte.1 pte.2) with
    | .panic e => .error e
    | .leave => .ok (result k, t)
    | .write w =>
      match rounds with
      | 0 => .ok (result k, t.store pte w)
      | n + 1 =>
        pageLoop pgindex alloc visit result n (k + 1) (u32 (a + pageSize)) (t.store pte w)

/-- `PGROUNDDOWN`. -/
def pgrounddown (a : Nat) : Nat := a / pageSize * pageSize

/-- The rounds from `PGROUNDDOWN(vaddr)` to `PGROUNDDOWN(vaddr + size - 1)`. -/
def rounds (vaddr size : Nat) : Nat :=
  u32 (pgrounddown (u32 (vaddr + size + (2 ^ 32 - 1))) + (2 ^ 32 - pgrounddown vaddr)) / pageSize

/-- `map_pages`. -/
def mapPages (pgindex : BitVec 32) (vaddr paddr size : Nat) (flags : BitVec 32) :
    Tables → Except Fault (Int × Tables) :=
  pageLoop pgindex true (fun k e => if Present e then .panic .remap
    else .write (BitVec.ofNat 32 (paddr + k * pageSize) ||| flags ||| 1#32))
    (fun _ => 0) (rounds vaddr size) 0 (pgrounddown vaddr)

/-- `unmap_pages`: the size that it returns, and what it stores through `paddr`, which is nothing. -/
def unmapPages (pgindex : BitVec 32) (vaddr size : Nat) (t : Tables) :
    Except Fault ((Int × Option Nat) × Tables) :=
  (pageLoop pgindex false (fun _ e => if Present e then .write 0#32 else .leave)
    (fun k => (k * pageSize : Nat)) (rounds vaddr size) 0 (pgrounddown vaddr) t).map
      fun r => ((r.1, none), r.2)

/-- `set_pages_perm`. -/
def setPagesPerm (pgindex : BitVec 32) (vaddr size : Nat) (flags : BitVec 32) :
    Tables → Except Fault (Int × Tables) :=
  pageLoop pgindex false (fun _ e => if Present e then .write (e ||| flags) else .panic .notMapped)
    (fun _ => 0) (rounds vaddr size) 0 (pgrounddown vaddr)

/-- `postmap_addr`. -/
def postmapAddr (a : Nat) : Nat := if kernBase ≤ a then a else a + kernBase

/-- `uva2kva`; `NULL` is `0`. -/
def uva2kva (pgindex : BitVec 32) (uaddr : Nat) (t : Tables) : Except Fault Nat :=
  match walkpgdir pgindex uaddr false t with
  | .error e => .error e
  | .ok (none, _) => .error .nullPointer
  | .ok (some pte, t) =>
    let e := t.word pte.1 pte.2
    if ¬ Present e then .ok 0
    else if ¬ User e then .ok 0
    else .ok (postmapAddr (pteAddr e).toNat)

/-! ### Unmapping -/

/-- The entry of an address, zero where there is no page table. -/
def entryAt (t : Tables) (pgindex : BitVec 32) (v : Nat) : BitVec 32 :=
  if Present (t.word pgindex (pdx v)) then
    t.word (pteAddr (t.word pgindex (pdx v))) (ptx v)
  else 0#32

/-- The pages that a range meets. -/
def InRange (vaddr size v : Nat) : Prop := IsPage v ∧ v < vaddr + size ∧ vaddr < v + pageSize

/-- The contract of `mmu.h`: a range is mapped and unmapped again. -/
def Undoes (pgindex : BitVec 32) (vaddr paddr size : Nat) (flags : BitVec 32) (t : Tables) : Prop :=
  ∃ t₁ t₂, mapPages pgindex vaddr paddr size flags t = .ok (0, t₁) ∧
    unmapPages pgindex vaddr size t₁ = .ok ((size, some paddr), t₂) ∧
    (∀ v, InRange vaddr size v → ¬ Present (entryAt t₂ pgindex v)) ∧
    ∀ v, IsPage v → ¬ InRange vaddr size v → entryAt t₂ pgindex v = entryAt t pgindex v

variable {t : Tables} {pgindex : BitVec 32} {a v n : Nat}

/-- **The loop** returns what one of its rounds returns, or fails. -/
theorem pageLoop_result {alloc : Bool} {visit : Nat → BitVec 32 → Verdict} {result : Nat → Int}
    {k : Nat} {r : Int × Tables} (h : pageLoop pgindex alloc visit result n k a t = .ok r) :
    r.1 = -1 ∨ ∃ j ≤ n, r.1 = result (k + j) := by
  fun_induction pageLoop pgindex alloc visit result n k a t with
  | case1 => cases h
  | case2 =>
    cases h
    exact .inl rfl
  | case3 => cases h
  | case4 n =>
    cases h
    exact .inr ⟨0, Nat.zero_le n, rfl⟩
  | case5 =>
    cases h
    exact .inr ⟨0, Nat.le_refl 0, rfl⟩
  | case6 _ _ _ _ _ _ _ _ _ ih =>
    refine (ih h).imp_right ?_
    rintro ⟨j, hj, hr⟩
    exact ⟨j + 1, Nat.succ_le_succ hj, by rw [hr, Nat.add_right_comm, Nat.add_assoc]⟩

theorem rounds_spec {vaddr size : Nat} (hsize : 0 < size) (hend : vaddr + size ≤ 2 ^ 32) :
    pgrounddown vaddr + rounds vaddr size * pageSize = pgrounddown (vaddr + size - 1) := by
  have hlast : u32 (vaddr + size + (2 ^ 32 - 1)) = vaddr + size - 1 := by
    rw [u32]
    omega
  rw [rounds, hlast]
  unfold pgrounddown u32 pageSize
  omega

theorem rounds_pages {vaddr : Nat} (ha : IsPage vaddr) (hend : vaddr + (n + 1) * pageSize < 2 ^ 32) :
    rounds vaddr ((n + 1) * pageSize) = n := by
  have hrounds := rounds_spec (Nat.mul_pos (Nat.add_pos_right n Nat.one_pos) (by decide))
    (Nat.le_of_lt hend)
  have hpage := ha.1
  unfold pgrounddown pageSize at *
  omega

/-- **`unmap_pages`** never undoes `map_pages`: whatever the tables are, the size that it returns
misses a page, and the frame is not stored. -/
theorem unmap_pages_never_undoes {vaddr : Nat} (paddr : Nat) (flags : BitVec 32) (t : Tables)
    (ha : IsPage vaddr) (hend : vaddr + (n + 1) * pageSize < 2 ^ 32) :
    (∀ t₁ size pa t₂, unmapPages pgindex vaddr ((n + 1) * pageSize) t₁ = .ok ((size, pa), t₂) →
      size ≤ (n * pageSize : Nat) ∧ pa = none) ∧
    ¬ Undoes pgindex vaddr paddr ((n + 1) * pageSize) flags t := by
  have hshort : ∀ t₁ size pa t₂,
      unmapPages pgindex vaddr ((n + 1) * pageSize) t₁ = .ok ((size, pa), t₂) →
        size ≤ (n * pageSize : Nat) ∧ pa = none := by
    intro t₁ size pa t₂ h
    rw [unmapPages, rounds_pages ha hend] at h
    cases hloop : pageLoop pgindex false (fun _ e => if Present e then .write 0#32 else .leave)
        (fun k => (k * pageSize : Nat)) n 0 (pgrounddown vaddr) t₁ with
    | error e =>
      rw [hloop] at h
      cases h
    | ok r =>
      rw [hloop] at h
      cases h
      refine ⟨?_, rfl⟩
      obtain hr | ⟨j, hj, hr⟩ := pageLoop_result hloop
      · rw [hr]
        omega
      · rw [hr, Nat.zero_add]
        exact Int.ofNat_le.mpr (Nat.mul_le_mul_right _ hj)
  refine ⟨hshort, ?_⟩
  rintro ⟨t₁, t₂, -, hunmap, -⟩
  exact absurd (hshort _ _ _ _ hunmap).2 (by simp)

/-- A page index with no page tables, and a frame for one. -/
def blank : Tables := ⟨fun _ _ => 0#32, [0x2000#32]⟩

/-- One page at address zero: the size is zero, and the frame not stored. -/
theorem unmap_pages_one_page :
    ((mapPages 0x1000#32 0 0x5000 4096 6#32 blank).bind fun r =>
      (unmapPages 0x1000#32 0 4096 r.2).map fun s => (r.1, s.1)) = .ok (0, 0, none) :=
  rfl

theorem unmap_pages_never_undoes_two_pages :
    ¬ Undoes 0x1000#32 0 0x5000 ((1 + 1) * pageSize) 6#32 blank :=
  (unmap_pages_never_undoes 0x5000 6#32 blank (by decide) (by decide)).2

/-! ### Lookup and permissions -/

/-- A page index: its page tables are frames of their own that the kernel can address, and open
to the user. -/
structure PgIndex (t : Tables) (pgindex : BitVec 32) : Prop where
  low : ∀ i, Present (t.word pgindex i) → (pteAddr (t.word pgindex i)).toNat < kernBase
  user : ∀ i, Present (t.word pgindex i) → User (t.word pgindex i)
  ne_dir : ∀ i, Present (t.word pgindex i) → pteAddr (t.word pgindex i) ≠ pgindex
  inj : ∀ i j, Present (t.word pgindex i) → Present (t.word pgindex j) →
    pteAddr (t.word pgindex i) = pteAddr (t.word pgindex j) → i = j

namespace PgIndex

variable {w : BitVec 32}

theorem store_dir (h : PgIndex t pgindex) (hp : Present (t.word pgindex (pdx a))) :
    (t.store (pteAddr (t.word pgindex (pdx a)), ptx a) w).word pgindex = t.word pgindex :=
  Function.update_of_ne (h.ne_dir _ hp).symm _ _

/-- An entry is written. -/
theorem store (h : PgIndex t pgindex) (hp : Present (t.word pgindex (pdx a))) (w : BitVec 32) :
    PgIndex (t.store (pteAddr (t.word pgindex (pdx a)), ptx a) w) pgindex := by
  have hdir := h.store_dir (w := w) hp
  constructor <;> rw [hdir]
  · exact h.low
  · exact h.user
  · exact h.ne_dir
  · exact h.inj

end PgIndex

/-- `PTE_W` and `PTE_U`. -/
def perm (e : BitVec 32) : BitVec 32 := e &&& 6#32

end AimKernel.I386
