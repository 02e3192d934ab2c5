import AimKernel.Lib.Memory
import AimKernel.Mm.Slab

/-!
# AimKernel.Mm.Exhaustion

`kmalloc` of the slab allocator as one call, with the bytes `GFP_ZERO` clears, for the
case that the page allocator has nothing left.

The answers of the at most two `pgalloc`s of `alloc` are arguments. A failed `pgalloc`
changes nothing and answers `(addr_t)-1`. `alloc` converts the answer with `pa2kva` before it tests it for `NULL`,
and `pa2kva((addr_t)-1)` is `0x7fffffff`: the test never succeeds and the bogus page is
installed like any other.
-/

namespace AimKernel

namespace Slab

/-- `kmalloc` with the slab allocator. `mem` is the memory outside the allocator;
`memset` is called on whatever `alloc` returned. -/
def kmalloc (fuel pg pgPlain size flags : Nat) (s : Slab) (mem : Mem) :
    Option (Except String (Nat × Slab × Mem)) :=
  if size > pageSize / 2 then some (.error "kmalloc: size %lu too large\n")
  else
    match s.alloc fuel pg (s.getPlainObject pgPlain) size with
    | none => none
    | some (.error msg) => some (.error msg)
    | some (.ok (result, s)) =>
      some (.ok (result, s, if flags &&& gfpZero ≠ 0 then mem.fill result 0 size else mem))

/-! ### No page with room -/

variable {s : Slab} {mem : Mem} {fuel size flags : Nat} {xs : List Nat}

/-- What `pa2kva` makes of the failed `pgalloc`. -/
theorem pa2kva_addrError : pa2kva addrError = 0x7fffffff := by decide

theorem firstStop_eq_tail {stop : Link Nat → Bool} :
    (∀ x ∈ xs, stop (.node x) = false) → firstStop stop xs = .tail := by
  induction xs with
  | nil => exact fun _ => rfl
  | cons x xs ih =>
    intro h
    rw [firstStop, h x (by simp)]
    exact ih fun y hy => h y (List.mem_cons_of_mem x hy)

/-- Without a page with room, `alloc` goes for a new page. -/
theorem allocEnter_of_full (hlist : Chained (fun a => (s.mem a).next) .head xs)
    (hfuel : xs.length < fuel) (hpos : 0 < size) (hsize : size ≤ pageSize)
    (hfull : ∀ x ∈ xs, hasRoom (sizeClass size) s (.node x) = false) :
    ∃ a, s.allocEnter fuel size = some (.needPage (sizeClass size) a) := by
  have hroom : scan (fun a => (s.mem a).next) (hasRoom (sizeClass size) s) fuel
      (s.mem .head).next = some (firstStop (hasRoom (sizeClass size) s) xs) :=
    scan_eq hlist hfuel
  have hempty : scan (fun a => (s.mem a).next) (fun a => decide ((s.mem a).size = pgEmpty)) fuel
      (s.mem .head).next = some (firstStop (fun a => decide ((s.mem a).size = pgEmpty)) xs) :=
    scan_eq hlist hfuel
  rw [firstStop_eq_tail hfull] at hroom
  refine ⟨firstStop (fun a => decide ((s.mem a).size = pgEmpty)) xs, ?_⟩
  simp only [allocEnter]
  rw [if_neg (by omega)]
  simp only [hroom, hempty]

/-- A page installed under `a` has its first object at its start. -/
theorem installTake_fst (a : Link Nat) (newPage : Nat) (s : Slab) :
    (s.installTake a newPage (sizeClass size)).1 = u32 newPage := by
  have hspace : ∀ c, (getSpace 0 c).1 = 0 := by
    intro c
    have hloop : getSpaceLoop 0 (c / bitSize) 256 0 = 0 := by
      rw [getSpaceLoop, if_pos (by decide), if_neg (by decide)]
    rfl
  simp only [installTake, take, install, write, Function.update_self]
  rw [hspace, Nat.add_zero]

/-- `alloc` when the page allocator is empty: it panics for want of a plain page, or
returns the bogus page. -/
theorem alloc_of_exhausted (hlist : Chained (fun a => (s.mem a).next) .head xs)
    (hfuel : xs.length < fuel) (hpos : 0 < size) (hsize : size ≤ pageSize)
    (hfull : ∀ x ∈ xs, hasRoom (sizeClass size) s (.node x) = false) :
    (∃ msg, s.alloc fuel addrError (s.getPlainObject addrError) size = some (.error msg)) ∨
      ∃ s', s.alloc fuel addrError (s.getPlainObject addrError) size =
        some (.ok (0x7fffffff, s')) := by
  obtain ⟨a, henter⟩ := allocEnter_of_full hlist hfuel hpos hsize hfull
  -- the object is the start of the page, whichever descriptor holds it
  have hobj : ∀ (a : Link Nat) (s : Slab), ∃ s',
      s.installTake a 0x7fffffff (sizeClass size) = (0x7fffffff, s') :=
    fun a s => ⟨_, Prod.ext (installTake_fst a _ s) rfl⟩
  simp only [alloc, henter, pa2kva_addrError]
  rw [if_neg (by decide), allocPage]
  by_cases ha : a = .tail
  · rw [if_pos ha, getPlainObject]
    cases s.plainEnter allocedPageSize with
    | panic msg => exact .inl ⟨msg, rfl⟩
    | obj d s1 =>
      obtain ⟨s', hs'⟩ := hobj (.node d) (s1.link (.node d))
      exact .inr ⟨s', by rw [← hs']; rfl⟩
    | needPage =>
      refine .inl ⟨"Page Allocator Full or An error occurred.\n", ?_⟩
      simp only [allocPlain, plainLeave, newPlainPage, if_pos]
  · obtain ⟨s', hs'⟩ := hobj a s
    rw [if_neg ha]
    exact .inr ⟨s', by rw [← hs']⟩

/-- `kmalloc` on memory exhaustion returns `NULL` and leaves the descriptors and all
other memory alone exactly if nothing was asked for. -/
theorem kmalloc_exhausted_iff (hlist : Chained (fun a => (s.mem a).next) .head xs)
    (hfuel : xs.length < fuel)
    (hfull : ∀ x ∈ xs, hasRoom (sizeClass size) s (.node x) = false) :
    (∃ s' mem', s.kmalloc fuel addrError addrError size flags mem = some (.ok (0, s', mem')) ∧
      s'.mem = s.mem ∧ mem' = mem) ↔ size = 0 := by
  constructor
  · rintro ⟨s', mem', hret, -⟩
    by_contra hne
    unfold kmalloc at hret
    split at hret
    · cases hret
    next hle =>
      have hsize : size ≤ pageSize := by
        omega
      obtain ⟨msg, halloc⟩ | ⟨s₁, halloc⟩ :=
        alloc_of_exhausted hlist hfuel (Nat.pos_of_ne_zero hne) hsize hfull
      · rw [halloc] at hret
        cases hret
      · rw [halloc] at hret
        simp at hret
  · rintro rfl
    refine ⟨s, mem, ?_, rfl, rfl⟩
    have hfill : mem.fill 0 0 0 = mem := by
      funext x
      simp [Mem.fill]
    simp [kmalloc, alloc, allocEnter, hfill]

/-- The allocator after `simple_allocator_init` with the plain page `0x80100000`. -/
def opened : Slab :=
  { initLinks ⟨fun _ => ⟨.null, .null, 0, 0, 0, 0⟩, 0, 0⟩ with nowPlainPage := 0x80100000 }

theorem opened_chained : Chained (fun a => (opened.mem a).next) .head [] := rfl

/-- The request of no bytes. -/
theorem kmalloc_exhausted_zero :
    ∃ s' mem', opened.kmalloc 1 addrError addrError 0 gfpZero (fun _ => 1) =
      some (.ok (0, s', mem')) ∧ s'.mem = opened.mem ∧ mem' = fun _ => 1 :=
  (kmalloc_exhausted_iff opened_chained (by decide)
    fun _ hx => absurd hx List.not_mem_nil).mpr rfl

/-- `kmalloc(16, GFP_ZERO)` returns `0x7fffffff` instead, links a descriptor for the
page there and clears the byte. -/
theorem kmalloc_exhausted_sixteen :
    ∃ s' mem', opened.kmalloc 1 addrError addrError 16 gfpZero (fun _ => 1) =
      some (.ok (0x7fffffff, s', mem')) ∧ s'.mem .head ≠ opened.mem .head ∧
      mem' 0x7fffffff ≠ 1 := by
  refine ⟨_, _, rfl, ?_, ?_⟩
  · decide
  · decide

end Slab

end AimKernel
