import AimKernel.Lib.Owners
import AimKernel.Mm.PgTableSpec
import AimKernel.Mm.Uvm

/-!
# AimKernel.Mm.Books

Pages and page tables without memory: the abstract side of `PageOps`.

`Books` keeps the frames that are handed out, apart from those that serve as page
tables (`plain`), and each page index as a pair of maps. `Books.ops` says what every
operation of `PageOps` does to it, for the calls that the user memory code makes: one
page at a time, on page indexes that exist. Outside of that an operation faults, and
so it does where the code on memory would overwrite something it must not: writing to
a table or a free frame, freeing a table through `free_pages`, destroying a page index
that still has leaf tables.

`Represents` relates the books to physical memory. Besides the maps it says that frames
are owned once, that the history of freed frames is the same, and that a freed frame
holds nothing but `JUNKBYTE` as long as it is free.
-/

namespace AimKernel

/-- A page index as a map: its leaf tables and its entries. -/
structure PageMap where
  leaf : Nat → Option Nat
  pte : Nat → Nat

/-- The page index that `init_pgindex` makes. -/
def PageMap.empty : PageMap := ⟨fun _ => none, fun _ => 0⟩

namespace PageMap

/-- Another leaf table, or none, for a directory slot. -/
def setLeaf (M : PageMap) (i : Nat) (new : Option Nat) : PageMap :=
  { M with leaf := Function.update M.leaf i new }

/-- Another entry for a page. -/
def setPte (M : PageMap) (v e : Nat) : PageMap := { M with pte := Function.update M.pte v e }

/-- No page of the slot is mapped. -/
def Vacant (M : PageMap) (i : Nat) : Prop := ∀ w, pdx w = i → M.pte w = 0

@[simp] theorem setLeaf_pte (M : PageMap) (i : Nat) (new : Option Nat) :
    (M.setLeaf i new).pte = M.pte := rfl

@[simp] theorem setLeaf_self (M : PageMap) (i : Nat) (new : Option Nat) :
    (M.setLeaf i new).leaf i = new := Function.update_self ..

theorem setLeaf_of_ne (M : PageMap) {i j : Nat} (h : j ≠ i) (new : Option Nat) :
    (M.setLeaf i new).leaf j = M.leaf j := Function.update_of_ne h ..

@[simp] theorem setPte_leaf (M : PageMap) (v e : Nat) : (M.setPte v e).leaf = M.leaf := rfl

@[simp] theorem setPte_self (M : PageMap) (v e : Nat) : (M.setPte v e).pte v = e :=
  Function.update_self ..

theorem setPte_of_ne (M : PageMap) {v w : Nat} (h : w ≠ v) (e : Nat) :
    (M.setPte v e).pte w = M.pte w := Function.update_of_ne h ..

end PageMap

/-- The page indexes there are, by address. -/
abbrev Indexes : Type := Nat → Option PageMap

/-- Pages and page tables as books are kept of them. -/
structure Books where
  /-- The frames that are handed out. -/
  frames : List Nat
  /-- Those that are not page tables. -/
  plain : List Nat
  /-- The allocator's coming answers. -/
  supply : List (Option Nat)
  indexes : Indexes
  /-- Every frame freed so far and the page indexes when it was. -/
  freed : List (Nat × Indexes)

namespace Books

/-! ### Operations -/

/-- Writing `n` bytes from `kva` on reaches no table and no free frame. -/
def Writable (t : Books) (kva n : Nat) : Prop :=
  ∀ f, IsFrame f → pa2kva f < kva + n → kva < pa2kva f + pageSize → f ∈ t.plain

def answer (t : Books) (size : Nat) : Option Nat := pageAnswer t.supply t.frames size

/-- `alloc_pages`. The block is cleared on request even if the allocator failed. -/
def allocPages (pages : Pages) : StateT Books (Except Fault) (Int × Pages) := fun t =>
  match t.answer pages.size with
  | some f =>
    .ok ((0, { pages with paddr := f }), { t with
      frames := block f pages.size ++ t.frames
      plain := block f pages.size ++ t.plain
      supply := t.supply.tail })
  | none =>
    if pages.flags &&& gfpZero = 0 ∨
        pages.size % pageSize = 0 ∧ ∀ f ∈ block pages.paddr pages.size, f ∈ t.plain then
      .ok ((-1, pages), { t with supply := t.supply.tail })
    else .error (.wild pages.paddr)

/-- `free_pages` without `GFP_UNSAFE`. -/
def freePages (pages : Pages) : StateT Books (Except Fault) Unit := fun t =>
  let frames := block pages.paddr pages.size
  if pages.flags &&& gfpUnsafe = 0 ∧ pages.size % pageSize = 0 ∧ ∀ f ∈ frames, f ∈ t.plain then
    .ok ((), { t with
      frames := t.frames.diff frames
      plain := t.plain.diff frames
      freed := frames.map (fun f => (f, t.indexes)) ++ t.freed })
  else .error (.badFree pages.paddr)

/-- `init_pgindex`. -/
def initPgindex : StateT Books (Except Fault) Nat := fun t =>
  match t.answer pageSize with
  | some f =>
    .ok (pa2kva f, { t with
      frames := f :: t.frames
      supply := t.supply.tail
      indexes := Function.update t.indexes (pa2kva f) (some .empty) })
  | none => .ok (0, { t with supply := t.supply.tail })

open Classical in
/-- `destroy_pgindex` of a page index without leaf tables. -/
noncomputable def destroyPgindex (pgindex : Nat) : StateT Books (Except Fault) Unit := fun t =>
  match t.indexes pgindex with
  | some M =>
    if ∀ i, M.leaf i = none then
      .ok ((), { t with
        frames := t.frames.erase (kva2pa pgindex)
        indexes := Function.update t.indexes pgindex none
        freed := (kva2pa pgindex, t.indexes) :: t.freed })
    else .error (.badFree pgindex)
  | none => .error (.wild pgindex)

/-- `map_pages` for one page that is not mapped. -/
def mapPages (pgindex vaddr paddr size flags : Nat) : StateT Books (Except Fault) Int := fun t =>
  match t.indexes pgindex with
  | some M =>
    if size = pageSize ∧ IsPage vaddr ∧ IsFrame paddr ∧ M.pte vaddr = 0 then
      let pte := Function.update M.pte vaddr (pteFor paddr flags)
      match M.leaf (pdx vaddr) with
      | some _ =>
        .ok (0, { t with
          indexes := Function.update t.indexes pgindex (some { M with pte := pte }) })
      | none =>
        match t.answer pageSize with
        | some l =>
          .ok (0, { t with
            frames := l :: t.frames
            supply := t.supply.tail
            indexes := Function.update t.indexes pgindex
              (some ⟨Function.update M.leaf (pdx vaddr) (some l), pte⟩) })
        | none => .ok (-ENOMEM, { t with supply := t.supply.tail })
    else .error (.wild vaddr)
  | none => .error (.wild pgindex)

open Classical in
/-- `unmap_pages` for one page. A leaf table that becomes empty is freed. -/
noncomputable def unmapPages (pgindex vaddr size : Nat) :
    StateT Books (Except Fault) (Nat × Option Nat) := fun t =>
  match t.indexes pgindex with
  | some M =>
    if size = pageSize ∧ IsPage vaddr ∧ vaddr + pageSize < 2 ^ 32 then
      match M.leaf (pdx vaddr) with
      | some l =>
        let pte := Function.update M.pte vaddr 0
        let result := (pageSize, some (ptePaddr (M.pte vaddr)))
        let emptied := Function.update t.indexes pgindex (some { M with pte := pte })
        if ∀ w, pdx w = pdx vaddr → pte w = 0 then
          .ok (result, { t with
            frames := t.frames.erase l
            indexes := Function.update t.indexes pgindex
              (some ⟨Function.update M.leaf (pdx vaddr) none, pte⟩)
            freed := (l, emptied) :: t.freed })
        else .ok (result, { t with indexes := emptied })
      | none => .error (.unmapNonExistent vaddr)
    else .error (.wild vaddr)
  | none => .error (.wild pgindex)

/-- `set_pages_perm` for one page. -/
def setPagesPerm (pgindex addr len flags : Nat) : StateT Books (Except Fault) Int := fun t =>
  match t.indexes pgindex with
  | some M =>
    if len = pageSize ∧ IsPage addr then
      match M.leaf (pdx addr) with
      | some _ =>
        let pte := Function.update M.pte addr (ptePaddr (M.pte addr) ||| pgtablePerm flags)
        .ok (0, { t with
          indexes := Function.update t.indexes pgindex (some { M with pte := pte }) })
      | none => .error (.changePermNonExistent addr)
    else .error (.wild addr)
  | none => .error (.wild pgindex)

open Classical in
/-- A write to memory that the books do not follow. -/
noncomputable def scribble (kva n : Nat) : StateT Books (Except Fault) Unit := fun t =>
  if t.Writable kva n then .ok ((), t) else .error (.wild kva)

/-- Pages and page tables as plain maps. -/
noncomputable def ops : PageOps Books where
  allocPages := allocPages
  freePages := freePages
  initPgindex := initPgindex
  destroyPgindex := destroyPgindex
  mapPages := mapPages
  unmapPages := unmapPages
  setPagesPerm := setPagesPerm
  memmove dst _ len := scribble dst len

end Books

theorem pageAnswer_cases (supply : List (Option Nat)) (frames : List Nat) :
    pageAnswer supply frames pageSize = none ∧ ¬ Stocked IsFrame frames 1 supply ∨
      ∃ f rest, pageAnswer supply frames pageSize = some f ∧ supply = some f :: rest ∧
        IsFrame f ∧ f ∉ frames := by
  match supply with
  | [] => exact .inl ⟨rfl, id⟩
  | none :: rest => exact .inl ⟨rfl, id⟩
  | some f :: rest =>
    have hsize : pageSize % pageSize = 0 := Nat.mod_self _
    by_cases hf : IsFrame f ∧ f ∉ frames
    · exact .inr ⟨f, rest, by simp [pageAnswer, hsize, hf.1, hf.2], rfl, hf⟩
    · refine .inl ⟨?_, fun h => hf ⟨h.1, h.2.1⟩⟩
      simpa [pageAnswer, hsize] using fun h => not_and.mp hf h

/-! ### Relation to memory -/

/-- What a frame serves as: the directory of a page index, or one of its leaf tables. -/
def tableRole (indexes : Indexes) : Nat × Option Nat → Option Nat
  | (pgindex, none) => (indexes pgindex).map fun _ => kva2pa pgindex
  | (pgindex, some i) => (indexes pgindex).bind fun M => M.leaf i

/-- Memory shows the given map at the page index. -/
structure Shows (m : Mem) (pgindex : Nat) (M : PageMap) : Prop where
  tables : Tables m pgindex (kva2pa pgindex)
  leaf : leafAt m pgindex = M.leaf
  pte : pteAt m pgindex = M.pte

/-- Every byte of the frame is `JUNKBYTE`. -/
def Scrubbed (m : Mem) (f : Nat) : Prop :=
  ∀ x, pa2kva f ≤ x → x < pa2kva f + pageSize → m x = junkbyte

namespace Scrubbed

variable {m m' : Mem} {f : Nat}

theorem keep (h : Scrubbed m f) (hu : Untouched m m' f) : Scrubbed m' f :=
  fun x hlo hhi => (hu x hlo hhi).trans (h x hlo hhi)

theorem fill (m : Mem) (f : Nat) : Scrubbed (m.fill (pa2kva f) junkbyte pageSize) f := by
  intro x hlo hhi
  unfold Mem.fill
  rw [if_pos ⟨hlo, hhi⟩]

end Scrubbed

namespace Shows

variable {m m' : Mem} {pgindex i f l e v : Nat} {M : PageMap}

theorem leafAt_eq (h : Shows m pgindex M) (i : Nat) : leafAt m pgindex i = M.leaf i :=
  congrFun h.leaf i

/-- Another entry for a page whose leaf table is there. -/
theorem storePte (h : Shows m pgindex M) (hv : IsPage v) (he : e < 2 ^ 32)
    (hf : M.leaf (pdx v) = some f) (hm : m' = m.store32 (entry (pa2kva f) (ptx v)) e) :
    Shows m' pgindex (M.setPte v e) ∧ ∀ g, IsFrame g → g ≠ f → Untouched m m' g := by
  have hf' := (h.leafAt_eq _).trans hf
  obtain ⟨htables, hleaf, hpte⟩ := h.tables.storePte hv he hf' hm
  refine ⟨⟨htables, hleaf.trans h.leaf, ?_⟩, fun g hg hne => ?_⟩
  · rw [hpte, h.pte]
    rfl
  · rw [hm]
    exact (Untouched.refl m g).store hg (h.tables.frame hf') hne (ptx_lt v)

/-- An empty leaf table for a slot that has none. -/
theorem newLeaf (h : Shows m pgindex M) (hi : i < nrPtentries) (hl : IsFrame l)
    (hnone : M.leaf i = none) (hld : l ≠ kva2pa pgindex) (hother : ∀ j, M.leaf j ≠ some l)
    (hm : m' = (m.fill (pa2kva l) 0 pageSize).store32 (entry pgindex i) (pa2kva l)) :
    Shows m' pgindex (M.setLeaf i (some l)) ∧
      ∀ g, IsFrame g → g ≠ l → g ≠ kva2pa pgindex → Untouched m m' g := by
  rw [← h.leaf] at hnone hother
  obtain ⟨htables, hleaf, hpte⟩ := h.tables.newLeaf hi hl hnone hld hother hm
  refine ⟨⟨htables, ?_, hpte.trans h.pte⟩, fun g hg hne hdir => ?_⟩
  · rw [hleaf, h.leaf]
    rfl
  · rw [hm, h.tables.index]
    exact ((Untouched.refl m g).fill hg hl hne).store hg h.tables.dir hdir hi

/-- An empty leaf table is filled with junk and taken away. -/
theorem dropLeaf (h : Shows m pgindex M) (hf : M.leaf i = some f) (hvacant : M.Vacant i)
    (hm : m' = (m.fill (pa2kva f) junkbyte pageSize).store32 (entry pgindex i) 0) :
    Shows m' pgindex (M.setLeaf i none) ∧
      (∀ g, IsFrame g → g ≠ f → g ≠ kva2pa pgindex → Untouched m m' g) ∧ Scrubbed m' f := by
  have ht := h.tables
  rw [← h.leaf] at hf
  have hframe := ht.frame hf
  obtain ⟨htables, hleaf, hpte⟩ := ht.dropLeaf hf (by rw [h.pte]; exact hvacant) hm
  refine ⟨⟨htables, ?_, hpte.trans h.pte⟩, fun g hg hne hdir => ?_, ?_⟩
  · rw [hleaf, h.leaf]
    rfl
  · rw [hm, ht.index]
    exact ((Untouched.refl m g).fill hg hframe hne).store hg ht.dir hdir (leafAt_lt hf)
  · -- the word that was cleared lies in the directory
    rw [hm, ht.index]
    refine (Scrubbed.fill m f).keep ?_
    exact (Untouched.refl _ f).store hframe ht.dir (ht.ne_dir hf) (leafAt_lt hf)

end Shows

/-- The books are those of physical memory. -/
structure Represents (p : Phys) (t : Books) : Prop where
  frames : p.frames = t.frames
  supply : p.supply = t.supply
  owned : Owned t.frames t.plain (tableRole t.indexes)
  plainNodup : t.plain.Nodup
  plainFrame : ∀ f ∈ t.plain, IsFrame f
  index : ∀ {pgindex M}, t.indexes pgindex = some M → Shows p.mem pgindex M
  freed : List.Forall₂ (fun x y => x.1 = y.1 ∧
    ∀ pgindex M, y.2 pgindex = some M → pteAt x.2 pgindex = M.pte) p.freed t.freed
  scrubbed : ∀ f ∈ t.freed.map Prod.fst, IsFrame f ∧ (f ∉ t.frames → Scrubbed p.mem f)

end AimKernel
