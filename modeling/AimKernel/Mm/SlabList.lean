import AimKernel.Lib.Bitmap
import AimKernel.Mm.Slab

/-!
# AimKernel.Mm.SlabList

The descriptors of the simple allocator as a list: what each piece of `simple.c`
does to the sequence of descriptors between the sentinels.

`Rep s ds` says that the list of `s` holds exactly the descriptors `ds`. Every
piece of `alloc` and `free` gets one lemma here; no proof elsewhere looks at a
link.
-/

namespace AimKernel

/-- A descriptor on the list: the address it is stored at, and its fields other
than the links. -/
structure Desc where
  node : Nat
  paddr : Nat
  size : Nat
  num : Int
  status : BitVec 256
  deriving Repr, DecidableEq

/-- The fields of a stored descriptor, other than the links. -/
def AllocedPage.desc (p : AllocedPage) (node : Nat) : Desc :=
  ⟨node, p.paddr, p.size, p.num, p.status⟩

/-- The test of the first search of `alloc`. -/
def Desc.Room (size : Nat) (d : Desc) : Prop :=
  size = d.size ∧ u32 ((d.num % 2 ^ 32).toNat * d.size) < pageSize

/-- The test of the search of `free`. -/
def Desc.Covers (obj : Nat) (d : Desc) : Prop :=
  d.paddr ≤ obj ∧ obj < u32 (d.paddr + pageSize)

/-- A descriptor that was just given a page. -/
def Desc.fresh (node page size : Nat) : Desc := ⟨node, page, size, 0, 0⟩

@[simp] theorem Desc.fresh_node (node page size : Nat) :
    (Desc.fresh node page size).node = node := rfl
@[simp] theorem Desc.fresh_paddr (node page size : Nat) :
    (Desc.fresh node page size).paddr = page := rfl
@[simp] theorem Desc.fresh_size (node page size : Nat) :
    (Desc.fresh node page size).size = size := rfl

/-- The descriptor `d` with its first free object of a size marked. -/
def Desc.taken (size : Nat) (d : Desc) : Desc :=
  { d with status := (getSpace d.status size).2, num := d.num + 1 }

@[simp] theorem Desc.taken_node (size : Nat) (d : Desc) : (d.taken size).node = d.node := rfl
@[simp] theorem Desc.taken_paddr (size : Nat) (d : Desc) : (d.taken size).paddr = d.paddr := rfl
@[simp] theorem Desc.taken_size (size : Nat) (d : Desc) : (d.taken size).size = d.size := rfl

/-- The descriptor `d` after an object of its page was freed. -/
def Desc.released (obj : Nat) (d : Desc) : Desc :=
  { d with
    status := freeSpace d.status ((obj - d.paddr) / bitSize)
    num := d.num - 1
    size := if d.num = 1 then pgEmpty else d.size }

@[simp] theorem Desc.released_node (obj : Nat) (d : Desc) : (d.released obj).node = d.node := rfl
@[simp] theorem Desc.released_paddr (obj : Nat) (d : Desc) :
    (d.released obj).paddr = d.paddr := rfl

namespace Slab

/-! ### Reading back a write -/

@[simp] theorem write_mem_same (s : Slab) (p : Link Nat) (f : AllocedPage → AllocedPage) :
    (s.write p f).mem p = f (s.mem p) := by
  simp [write]

@[simp] theorem write_mem_ne (s : Slab) {p q : Link Nat} (f : AllocedPage → AllocedPage)
    (h : q ≠ p) : (s.write p f).mem q = s.mem q := by
  simp [write, h]

@[simp] theorem write_nowPlainPage (s : Slab) (p : Link Nat) (f : AllocedPage → AllocedPage) :
    (s.write p f).nowPlainPage = s.nowPlainPage := rfl
@[simp] theorem write_offset (s : Slab) (p : Link Nat) (f : AllocedPage → AllocedPage) :
    (s.write p f).offset = s.offset := rfl

/-! ### The descriptors on the list -/

/-- The list of `s` holds exactly the descriptors `ds`, in this order. -/
structure Rep (s : Slab) (ds : List Desc) : Prop where
  chain : Chained (fun p => (s.mem p).next) .head (ds.map Desc.node)
  nodup : (ds.map Desc.node).Nodup
  fields : ∀ d ∈ ds, (s.mem (.node d.node)).desc d.node = d

variable {s : Slab} {ds l r : List Desc} {d : Desc} {fuel : Nat}

variable {m n size : Nat} {status : BitVec 256}

theorem initLinks_rep (s : Slab) : Rep s.initLinks [] := by
  refine ⟨?_, by simp, by simp⟩
  simp [Chained, initLinks]

/-- The list does not depend on the plain page. -/
theorem Rep.plain (h : Rep s ds) {s' : Slab} (hs : s'.mem = s.mem) : Rep s' ds := by
  refine ⟨?_, h.nodup, ?_⟩
  · rw [hs]
    exact h.chain
  · rw [hs]
    exact h.fields

theorem Rep.paddr_eq (h : Rep s ds) (hd : d ∈ ds) : (s.mem (.node d.node)).paddr = d.paddr :=
  congrArg Desc.paddr (h.fields d hd)
theorem Rep.size_eq (h : Rep s ds) (hd : d ∈ ds) : (s.mem (.node d.node)).size = d.size :=
  congrArg Desc.size (h.fields d hd)
theorem Rep.num_eq (h : Rep s ds) (hd : d ∈ ds) : (s.mem (.node d.node)).num = d.num :=
  congrArg Desc.num (h.fields d hd)
theorem Rep.status_eq (h : Rep s ds) (hd : d ∈ ds) : (s.mem (.node d.node)).status = d.status :=
  congrArg Desc.status (h.fields d hd)

/-- A descriptor on the list is the only one stored at its address. -/
theorem Rep.node_ne (h : Rep s (l ++ d :: r)) : ∀ e ∈ l ++ r, e.node ≠ d.node :=
  map_ne_of_nodup h.nodup

/-- A search of the list stops at the tail or cuts `ds` at the first hit. -/
theorem Rep.scan_cases (h : Rep s ds) (hf : ds.length < fuel) (stop : Link Nat → Bool) :
    (scan (fun a => (s.mem a).next) stop fuel (s.mem .head).next = some .tail ∧
      ∀ d ∈ ds, stop (.node d.node) = false) ∨
    ∃ l d r, ds = l ++ d :: r ∧
      scan (fun a => (s.mem a).next) stop fuel (s.mem .head).next = some (.node d.node) ∧
      stop (.node d.node) = true ∧ ∀ e ∈ l, stop (.node e.node) = false := by
  rw [AimKernel.scan_eq (a := .head) h.chain (by simpa using hf)]
  rcases firstStop_map Desc.node stop ds with ⟨hstop, hall⟩ | ⟨l, d, r, hds, hstop, hd, hl⟩
  · exact Or.inl ⟨by rw [hstop], hall⟩
  · exact Or.inr ⟨l, d, r, hds, by rw [hstop], hd, hl⟩

theorem Rep.hasRoom_iff (h : Rep s ds) (hd : d ∈ ds) (size : Nat) :
    hasRoom size s (.node d.node) = true ↔ d.Room size := by
  simp [hasRoom, Desc.Room, h.size_eq hd, h.num_eq hd]

theorem Rep.covers_iff (h : Rep s ds) (hd : d ∈ ds) (obj : Nat) :
    covers obj s (.node d.node) = true ↔ d.Covers obj := by
  simp [covers, Desc.Covers, h.paddr_eq hd]

/-- Writing fields of one descriptor, its link apart. -/
theorem Rep.write (h : Rep s (l ++ d :: r)) (f : AllocedPage → AllocedPage) (d' : Desc)
    (hf : ∀ p, (f p).next = p.next) (hd' : (f (s.mem (.node d.node))).desc d.node = d') :
    Rep (s.write (.node d.node) f) (l ++ d' :: r) := by
  have hnode : d'.node = d.node := by rw [← hd']; rfl
  have hmap : (l ++ d' :: r).map Desc.node = (l ++ d :: r).map Desc.node := by simp [hnode]
  refine ⟨?_, by rw [hmap]; exact h.nodup, ?_⟩
  · rw [hmap]
    refine h.chain.congr (by simp) ?_
    intro x _
    by_cases hx : x = d.node
    · simp [hx, hf]
    · simp [hx]
  · refine forall_mem_insert (fun e he => ?_) ?_
    · rw [write_mem_ne _ _ (by simpa using h.node_ne e he)]
      exact h.fields e (mem_of_mem_rest he)
    · rw [hnode, write_mem_same]
      exact hd'

/-! ### `alloc` on the list -/

/-- What the first part of `alloc` finds in `ds`. -/
inductive AllocResult (size : Nat) (ds : List Desc) : AllocStep → Prop
  | null : size = 0 ∨ size > pageSize → AllocResult size ds .null
  /-- The first descriptor with room. -/
  | slot {l r : List Desc} {d : Desc} : 0 < size → size ≤ pageSize → ds = l ++ d :: r →
      d.Room (sizeClass size) → d.size ≠ pgEmpty →
      AllocResult size ds (.slot (sizeClass size) (.node d.node))
  /-- No descriptor has room; the first unused one. -/
  | unused {l r : List Desc} {d : Desc} : 0 < size → size ≤ pageSize → ds = l ++ d :: r →
      d.size = pgEmpty → (∀ e ∈ l, e.size ≠ pgEmpty) →
      (∀ e ∈ ds, ¬ e.Room (sizeClass size)) →
      AllocResult size ds (.needPage (sizeClass size) (.node d.node))
  /-- No descriptor has room and none is unused. -/
  | full : 0 < size → size ≤ pageSize → (∀ e ∈ ds, ¬ e.Room (sizeClass size)) →
      (∀ e ∈ ds, e.size ≠ pgEmpty) → AllocResult size ds (.needPage (sizeClass size) .tail)

theorem sizeClass_mem (h : size ≤ pageSize) :
    sizeClass size ∈ friSize ∧ size ≤ sizeClass size := by
  unfold sizeClass
  cases hfind : friSize.reverse.find? (fun c => c ≥ size) with
  | none =>
    rw [List.find?_eq_none] at hfind
    exact absurd h (by simpa [friSize, pageSize] using hfind 0x1000 (by simp [friSize]))
  | some c =>
    refine ⟨?_, by simpa using List.find?_some hfind⟩
    have := List.mem_of_find?_eq_some hfind
    simpa using this

theorem pgEmpty_notMem : pgEmpty ∉ friSize := by decide

/-- **`alloc` on the list.** With enough fuel for the searches, the first part of
`alloc` returns what `AllocResult` says. -/
theorem allocEnter_spec (size : Nat) (h : Rep s ds) (hf : ds.length < fuel) :
    ∃ res, allocEnter fuel size s = some res ∧ AllocResult size ds res := by
  unfold allocEnter
  by_cases hsize : size = 0 ∨ size > pageSize
  · exact ⟨_, by rw [if_pos hsize], .null hsize⟩
  rw [if_neg hsize]
  have hpos : 0 < size := by omega
  have hle : size ≤ pageSize := by omega
  have hcls : sizeClass size ≠ pgEmpty := by
    intro heq
    exact pgEmpty_notMem (heq ▸ (sizeClass_mem hle).1)
  dsimp only
  rcases h.scan_cases hf (hasRoom (sizeClass size) s) with
    ⟨hscan, hall⟩ | ⟨l, d, r, rfl, hscan, hd, -⟩
  · -- no page of this size has room
    have hroom : ∀ e ∈ ds, ¬ e.Room (sizeClass size) := by
      intro e he hr
      have := hall e he
      rw [(h.hasRoom_iff he _).mpr hr] at this
      exact absurd this (by simp)
    rw [hscan]
    rcases h.scan_cases hf (fun a => decide ((s.mem a).size = pgEmpty)) with
      ⟨hscan', hall'⟩ | ⟨l, d, r, rfl, hscan', hd, hl⟩
    · refine ⟨_, by rw [hscan'], .full hpos hle hroom ?_⟩
      intro e he
      have := hall' e he
      rw [h.size_eq he] at this
      simpa using this
    · refine ⟨_, by rw [hscan'], .unused hpos hle rfl ?_ ?_ ?_⟩
      · rw [h.size_eq (by simp)] at hd
        simpa using hd
      · intro e he
        have := hl e he
        rw [h.size_eq (by simp [he])] at this
        simpa using this
      · exact hroom
  · rw [hscan]
    dsimp only
    have hr := (h.hasRoom_iff (by simp) _).mp hd
    have hne : d.size ≠ pgEmpty := by
      rw [← hr.1]
      exact hcls
    rw [h.size_eq (by simp), if_neg hne]
    exact ⟨_, rfl, .slot hpos hle rfl hr hne⟩

/-- A new descriptor, linked in at the front and given a page. -/
theorem link_install_rep (h : Rep s ds) (hn : ∀ d ∈ ds, d.node ≠ n) (newPage size : Nat) :
    Rep (install (.node n) newPage size (link (.node n) s)) (.fresh n newPage size :: ds) := by
  -- apart from `prev`, which is not read, only `head` and the new node change
  have hnext : ∀ x, x ≠ .head → x ≠ .node n →
      ((install (.node n) newPage size (link (.node n) s)).mem x).next = (s.mem x).next ∧
      ∀ m, ((install (.node n) newPage size (link (.node n) s)).mem x).desc m =
        (s.mem x).desc m := by
    intro x hx hxn
    by_cases hxh : x = (s.mem .head).next
    · subst hxh
      simp [install, link, hx, hxn, AllocedPage.desc]
    · simp [install, link, hx, hxn, hxh]
  have hnode : ∀ d ∈ ds, Link.node d.node ≠ .node n := by
    intro d hd
    simpa using hn d hd
  refine ⟨⟨?_, ?_⟩, ?_, ?_⟩
  · simp [install, link]
  · -- the old chain hangs below the new node
    have hfirst : ((install (.node n) newPage size (link (.node n) s)).mem (.node n)).next =
        (s.mem .head).next := by
      by_cases hxh : Link.node n = (s.mem .head).next
      · simp [install, link, ← hxh]
      · simp [install, link, hxh]
    cases ds with
    | nil => exact hfirst.trans h.chain
    | cons d ds =>
      refine ⟨hfirst.trans h.chain.1, h.chain.2.congr ?_ ?_⟩
      · exact (hnext _ (by simp) (hnode d (by simp))).1
      · intro x hx
        obtain ⟨e, he, rfl⟩ := List.mem_map.mp hx
        exact (hnext _ (by simp) (hnode e (by simp [he]))).1
  · rw [List.map_cons, List.nodup_cons]
    refine ⟨?_, h.nodup⟩
    intro hmem
    obtain ⟨e, he, heq⟩ := List.mem_map.mp hmem
    exact hn e he heq
  · intro e he
    rcases List.mem_cons.mp he with rfl | he
    · simp [install, AllocedPage.desc, Desc.fresh]
    · rw [(hnext _ (by simp) (hnode e he)).2]
      exact h.fields e he

theorem install_rep (h : Rep s (l ++ d :: r)) (newPage size : Nat) :
    Rep (install (.node d.node) newPage size s) (l ++ .fresh d.node newPage size :: r) := by
  refine h.write _ _ ?_ rfl
  intro p
  rfl

@[simp] theorem take_nowPlainPage (s : Slab) (a : Link Nat) (size : Nat) :
    (s.take a size).2.nowPlainPage = s.nowPlainPage := rfl
@[simp] theorem install_nowPlainPage (s : Slab) (a : Link Nat) (newPage size : Nat) :
    (s.install a newPage size).nowPlainPage = s.nowPlainPage := rfl
@[simp] theorem link_nowPlainPage (s : Slab) (a : Link Nat) :
    (s.link a).nowPlainPage = s.nowPlainPage := rfl

theorem take_rep (h : Rep s (l ++ d :: r)) (size : Nat) :
    (take (.node d.node) size s).1 = u32 (d.paddr + (getSpace d.status size).1) ∧
      Rep (take (.node d.node) size s).2 (l ++ Desc.taken size d :: r) := by
  have hd : d ∈ l ++ d :: r := by simp
  have h1 := h.write (fun p => { p with status := (getSpace d.status size).2 })
    ({ d with status := (getSpace d.status size).2 }) (fun _ => rfl) (by
      simp [AllocedPage.desc, h.paddr_eq hd, h.size_eq hd, h.num_eq hd])
  have h2 := h1.write (fun p => { p with num := p.num + 1 }) (Desc.taken size d)
    (fun _ => rfl) (by
      simp [AllocedPage.desc, Desc.taken, h.paddr_eq hd, h.size_eq hd, h.num_eq hd])
  simp only [take, h.status_eq hd]
  refine ⟨?_, h2⟩
  simp [h.paddr_eq hd]

/-! ### `free` on the list -/

/-- What the first part of `free` does to `ds`. -/
inductive FreeResult (obj : Nat) (s : Slab) (ds : List Desc) : FreeStep → Prop
  | null : obj = 0 → FreeResult obj s ds (.kept s)
  | panic : obj ≠ 0 → (∀ d ∈ ds, ¬ d.Covers obj) →
      FreeResult obj s ds (.panic "Free: Can't find object\n")
  /-- The first page that covers the object keeps other objects. -/
  | kept {l r : List Desc} {d : Desc} {s' : Slab} : obj ≠ 0 → ds = l ++ d :: r →
      d.Covers obj → (∀ e ∈ l, ¬ e.Covers obj) → d.num ≠ 1 →
      Rep s' (l ++ Desc.released obj d :: r) → s'.nowPlainPage = s.nowPlainPage →
      s'.offset = s.offset → FreeResult obj s ds (.kept s')
  /-- The first page that covers the object becomes empty. -/
  | emptied {l r : List Desc} {d : Desc} {s' : Slab} : obj ≠ 0 → ds = l ++ d :: r →
      d.Covers obj → (∀ e ∈ l, ¬ e.Covers obj) → d.num = 1 →
      Rep s' (l ++ Desc.released obj d :: r) → s'.nowPlainPage = s.nowPlainPage →
      s'.offset = s.offset → FreeResult obj s ds (.emptied (kva2pa d.paddr) s')

/-- **`free` on the list.** -/
theorem freeEnter_spec (obj : Nat) (h : Rep s ds) (hf : ds.length < fuel) :
    ∃ res, freeEnter fuel obj s = some res ∧ FreeResult obj s ds res := by
  unfold freeEnter
  by_cases hobj : obj = 0
  · exact ⟨_, by rw [if_pos hobj], .null hobj⟩
  rw [if_neg hobj]
  rcases h.scan_cases hf (covers obj s) with ⟨hscan, hall⟩ | ⟨l, d, r, rfl, hscan, hcov, hl⟩
  · refine ⟨_, by rw [hscan], .panic hobj ?_⟩
    intro d hd hc
    have := hall d hd
    rw [(h.covers_iff hd _).mpr hc] at this
    exact absurd this (by simp)
  · rw [hscan]
    dsimp only
    have hd : d ∈ l ++ d :: r := by simp
    have hcov' := (h.covers_iff hd _).mp hcov
    have hl' : ∀ e ∈ l, ¬ e.Covers obj := by
      intro e he hc
      have := hl e he
      rw [(h.covers_iff (by simp [he]) _).mpr hc] at this
      exact absurd this (by simp)
    have hpaddr := h.paddr_eq hd
    -- the two writes before the test
    have h1 := h.write
      (fun p => { p with status := freeSpace p.status ((obj - d.paddr) / bitSize) })
      ({ d with status := freeSpace d.status ((obj - d.paddr) / bitSize) })
      (fun _ => rfl) (by
        simp [AllocedPage.desc, h.paddr_eq hd, h.size_eq hd, h.num_eq hd, h.status_eq hd])
    have h2 := h1.write (fun p => { p with num := p.num - 1 })
      ({ d with
        status := freeSpace d.status ((obj - d.paddr) / bitSize)
        num := d.num - 1 })
      (fun _ => rfl) (by
        simp [AllocedPage.desc, h.paddr_eq hd, h.size_eq hd, h.num_eq hd, h.status_eq hd])
    rw [hpaddr]
    have hnum := h2.num_eq (by simp :
      ({ d with
        status := freeSpace d.status ((obj - d.paddr) / bitSize)
        num := d.num - 1 } : Desc) ∈ l ++ { d with
        status := freeSpace d.status ((obj - d.paddr) / bitSize)
        num := d.num - 1 } :: r)
    dsimp only at hnum
    by_cases hone : d.num = 1
    · rw [if_pos (by omega)]
      have h3 := h2.write (fun p => { p with size := pgEmpty })
        (Desc.released obj d) (fun _ => rfl) (by
          simp [AllocedPage.desc, Desc.released, h.paddr_eq hd, h.num_eq hd, h.status_eq hd, hone])
      refine ⟨_, ?_, .emptied hobj rfl hcov' hl' hone h3 rfl rfl⟩
      simp [hpaddr]
    · rw [if_neg (by omega)]
      refine ⟨_, rfl, .kept hobj rfl hcov' hl' hone ?_ rfl rfl⟩
      have : Desc.released obj d = { d with
        status := freeSpace d.status ((obj - d.paddr) / bitSize)
        num := d.num - 1 } := by
        simp [Desc.released, hone]
      rw [this]
      exact h2

/-! ### Fuel -/

theorem allocEnter_mono {res : AllocStep} (h : allocEnter n size s = some res) (hnm : n ≤ m)
    : allocEnter m size s = some res := by
  unfold allocEnter at h ⊢
  by_cases hsize : size = 0 ∨ size > pageSize
  · rw [if_pos hsize] at h ⊢
    exact h
  · rw [if_neg hsize] at h ⊢
    dsimp only at h ⊢
    cases hscan : scan (fun a => (s.mem a).next) (hasRoom (sizeClass size) s) n
        (s.mem .head).next with
    | none => rw [hscan] at h; exact absurd h (by simp)
    | some a =>
      rw [hscan] at h
      rw [scan_mono hscan hnm]
      cases a with
      | tail =>
        cases hscan' : scan (fun a => (s.mem a).next)
            (fun a => decide ((s.mem a).size = pgEmpty)) n (s.mem .head).next with
        | none => rw [hscan'] at h; exact absurd h (by simp)
        | some b =>
          rw [hscan'] at h
          rw [scan_mono hscan' hnm]
          exact h
      | null => exact h
      | head => exact h
      | node a => exact h

theorem freeEnter_mono {obj : Nat} {res : FreeStep} (h : freeEnter n obj s = some res) (hnm : n ≤ m)
    : freeEnter m obj s = some res := by
  unfold freeEnter at h ⊢
  by_cases hobj : obj = 0
  · rw [if_pos hobj] at h ⊢
    exact h
  · rw [if_neg hobj] at h ⊢
    cases hscan : scan (fun a => (s.mem a).next) (covers obj s) n (s.mem .head).next with
    | none => rw [hscan] at h; exact absurd h (by simp)
    | some a =>
      rw [hscan] at h
      rw [scan_mono hscan hnm]
      exact h

/-! ### The free cell found by `get_space` -/

/-- The loop stops at a clear bit on the grid if there is one ahead of it. -/
theorem getSpaceLoop_spec {leap : Nat} (hleap : 0 < leap) :
    ∀ {n i : Nat}, leap ∣ i → 256 ≤ i + n →
      (∃ k, i ≤ k ∧ leap ∣ k ∧ k < 256 ∧ k ∉ ones status) →
      leap ∣ getSpaceLoop status leap n i ∧ getSpaceLoop status leap n i < 256 ∧
        getSpaceLoop status leap n i ∉ ones status := by
  intro n
  induction n with
  | zero =>
    rintro i hi hn ⟨k, hik, -, hk, -⟩
    omega
  | succ n ih =>
    rintro i hi hn ⟨k, hik, hkd, hk, hclear⟩
    have hlt : i * bitSize < pageSize := by unfold bitSize pageSize; omega
    rw [getSpaceLoop, if_pos hlt]
    by_cases hbit : bit status i = true
    · rw [if_pos hbit]
      refine ih (Nat.dvd_add hi (Nat.dvd_refl leap)) (by omega) ⟨k, ?_, hkd, hk, hclear⟩
      -- the clear bit is another multiple of the stride
      have hne : k ≠ i := by
        rintro rfl
        exact hclear (mem_ones.mpr hbit)
      obtain ⟨a, rfl⟩ := hi
      obtain ⟨b, rfl⟩ := hkd
      have hab : a < b := by
        by_contra hba
        have := Nat.mul_le_mul_left leap (not_lt.mp hba)
        omega
      calc leap * a + leap = leap * (a + 1) := (Nat.mul_succ leap a).symm
        _ ≤ leap * b := Nat.mul_le_mul_left leap hab
    · rw [if_neg hbit]
      exact ⟨hi, by omega, fun h => hbit (mem_ones.mp h)⟩

/-- **`get_space`** marks a cell on the grid that was clear, provided that not all
of them are taken. -/
theorem getSpace_spec {sz : Nat} (hsz : 0 < sz / bitSize)
    (hcard : (ones status).card < 256 / (sz / bitSize)) :
    ∃ i, (sz / bitSize) ∣ i ∧ i < 256 ∧ i ∉ ones status ∧
      (getSpace status sz).1 = bitSize * i ∧
      ones (getSpace status sz).2 = insert i (ones status) := by
  obtain ⟨k, hkd, hk, hclear⟩ := exists_clear_multiple hsz hcard
  have hspec := getSpaceLoop_spec hsz (n := pageSize / bitSize) (i := 0)
    (Nat.dvd_zero _) (by decide) ⟨k, Nat.zero_le k, hkd, hk, hclear⟩
  refine ⟨_, hspec.1, hspec.2.1, hspec.2.2, rfl, ?_⟩
  have hlt : getSpaceLoop status (sz / bitSize) (pageSize / bitSize) 0 * bitSize < pageSize := by
    unfold bitSize pageSize at *
    omega
  simp only [getSpace, if_pos hlt]
  exact ones_toggle_clear hspec.2.1 hspec.2.2

end Slab

end AimKernel
