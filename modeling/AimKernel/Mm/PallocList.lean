import AimKernel.Mm.Palloc

/-!
# AimKernel.Mm.PallocList

The free list as a list: what the pointer surgery of `palloc.c` does to the
sequence of blocks between the sentinels.

`Rep s bs` says that the linked list of `s` holds exactly the blocks `bs`. Every
piece of `alloc` and `free` gets one lemma here that says how `bs` changes; no
proof elsewhere looks at a link.
-/

namespace AimKernel

open Function (update update_comm update_of_ne)

/-- A block on the free list: the address of its node, and the memory it
describes. -/
structure Blk where
  node : Nat
  paddr : Nat
  size : Nat
  deriving Repr, DecidableEq

/-- The end of a block. -/
def Blk.stop (b : Blk) : Nat := b.paddr + b.size

namespace Palloc

/-! ### Reading back a field write -/

section Writes

variable (s : Palloc) (p q v : Link Nat) (n : Nat)

@[simp] theorem setPrev_prev :
    ((s.setPrev p v).mem q).prev = if q = p then v else (s.mem q).prev := by
  by_cases h : q = p <;> simp [setPrev, update, h]
@[simp] theorem setPrev_next : ((s.setPrev p v).mem q).next = (s.mem q).next := by
  by_cases h : q = p <;> simp [setPrev, update, h]
@[simp] theorem setPrev_paddr : ((s.setPrev p v).mem q).paddr = (s.mem q).paddr := by
  by_cases h : q = p <;> simp [setPrev, update, h]
@[simp] theorem setPrev_size : ((s.setPrev p v).mem q).size = (s.mem q).size := by
  by_cases h : q = p <;> simp [setPrev, update, h]
@[simp] theorem setPrev_freeSize : (s.setPrev p v).freeSize = s.freeSize := rfl

@[simp] theorem setNext_prev : ((s.setNext p v).mem q).prev = (s.mem q).prev := by
  by_cases h : q = p <;> simp [setNext, update, h]
@[simp] theorem setNext_next :
    ((s.setNext p v).mem q).next = if q = p then v else (s.mem q).next := by
  by_cases h : q = p <;> simp [setNext, update, h]
@[simp] theorem setNext_paddr : ((s.setNext p v).mem q).paddr = (s.mem q).paddr := by
  by_cases h : q = p <;> simp [setNext, update, h]
@[simp] theorem setNext_size : ((s.setNext p v).mem q).size = (s.mem q).size := by
  by_cases h : q = p <;> simp [setNext, update, h]
@[simp] theorem setNext_freeSize : (s.setNext p v).freeSize = s.freeSize := rfl

@[simp] theorem setPaddr_prev : ((s.setPaddr p n).mem q).prev = (s.mem q).prev := by
  by_cases h : q = p <;> simp [setPaddr, update, h]
@[simp] theorem setPaddr_next : ((s.setPaddr p n).mem q).next = (s.mem q).next := by
  by_cases h : q = p <;> simp [setPaddr, update, h]
@[simp] theorem setPaddr_paddr :
    ((s.setPaddr p n).mem q).paddr = if q = p then n else (s.mem q).paddr := by
  by_cases h : q = p <;> simp [setPaddr, update, h]
@[simp] theorem setPaddr_size : ((s.setPaddr p n).mem q).size = (s.mem q).size := by
  by_cases h : q = p <;> simp [setPaddr, update, h]
@[simp] theorem setPaddr_freeSize : (s.setPaddr p n).freeSize = s.freeSize := rfl

@[simp] theorem setSize_prev : ((s.setSize p n).mem q).prev = (s.mem q).prev := by
  by_cases h : q = p <;> simp [setSize, update, h]
@[simp] theorem setSize_next : ((s.setSize p n).mem q).next = (s.mem q).next := by
  by_cases h : q = p <;> simp [setSize, update, h]
@[simp] theorem setSize_paddr : ((s.setSize p n).mem q).paddr = (s.mem q).paddr := by
  by_cases h : q = p <;> simp [setSize, update, h]
@[simp] theorem setSize_size :
    ((s.setSize p n).mem q).size = if q = p then n else (s.mem q).size := by
  by_cases h : q = p <;> simp [setSize, update, h]
@[simp] theorem setSize_freeSize : (s.setSize p n).freeSize = s.freeSize := rfl

end Writes

/-! ### The blocks on the list -/

/-- The free list of `s` holds exactly the blocks `bs`, in this order. -/
structure Rep (s : Palloc) (bs : List Blk) : Prop where
  linked : Linked (fun p => (s.mem p).next) (fun p => (s.mem p).prev) (bs.map Blk.node)
  nodup : (bs.map Blk.node).Nodup
  fields : ∀ b ∈ bs, (s.mem (.node b.node)).paddr = b.paddr ∧
    (s.mem (.node b.node)).size = b.size

variable {s : Palloc} {bs l r : List Blk} {a fuel m n : Nat} {b : Blk} {pages : Pages}

theorem Rep.freeSize (h : Rep s bs) (n : Nat) :
    Rep { s with freeSize := n } bs :=
  ⟨h.linked, h.nodup, h.fields⟩

/-- `page_allocator_init` leaves an empty list. -/
theorem pageAllocatorInit_rep (s : Palloc) : Rep s.pageAllocatorInit [] := by
  refine ⟨?_, by simp, by simp⟩
  intro l r h
  obtain ⟨rfl, rfl⟩ := List.append_eq_nil_iff.mp h.symm
  simp [pageAllocatorInit]

@[simp] theorem pageAllocatorInit_freeSize (s : Palloc) :
    s.pageAllocatorInit.freeSize = 0 := rfl

/-- Where the first-fit (or the address) search stops. -/
theorem Rep.scan_eq (h : Rep s bs) (hf : bs.length < fuel) (stop : Link Nat → Bool) :
    scan (fun a => (s.mem a).next) stop fuel (s.mem .head).next =
      some (firstStop stop (bs.map Blk.node)) :=
  AimKernel.scan_eq (a := .head) h.linked.chained (by simpa using hf)

/-- A block that is on the list is the only one with its node. -/
theorem Rep.node_ne (h : Rep s (l ++ b :: r)) : ∀ c ∈ l ++ r, c.node ≠ b.node :=
  map_ne_of_nodup h.nodup

/-- Rewriting a block in place, links untouched. -/
theorem Rep.set (h : Rep s (l ++ b :: r)) (s' : Palloc) (a n : Nat)
    (hnext : ∀ x, (s'.mem x).next = (s.mem x).next) (hprev : ∀ x, (s'.mem x).prev = (s.mem x).prev)
    (hb : (s'.mem (.node b.node)).paddr = a ∧ (s'.mem (.node b.node)).size = n)
    (hother : ∀ x, x ≠ .node b.node → (s'.mem x).paddr = (s.mem x).paddr ∧
      (s'.mem x).size = (s.mem x).size) :
    Rep s' (l ++ { b with paddr := a, size := n } :: r) := by
  have hmap : (l ++ { b with paddr := a, size := n } :: r).map Blk.node =
      (l ++ b :: r).map Blk.node := by simp
  refine ⟨?_, by rw [hmap]; exact h.nodup, ?_⟩
  · rw [hmap]
    exact h.linked.congr (fun x _ => hnext x) (fun x _ => hprev x)
  · refine forall_mem_insert (fun c hc => ?_) hb
    obtain ⟨h1, h2⟩ := hother (.node c.node) (by simpa using h.node_ne c hc)
    obtain ⟨h3, h4⟩ := h.fields c (mem_of_mem_rest hc)
    exact ⟨h1.trans h3, h2.trans h4⟩

/-! ### `alloc` on the list -/

/-- What the first part of `alloc` does to the list `bs`. -/
inductive AllocResult (s : Palloc) (bs : List Blk) (pages : Pages) : AllocStep → Prop
  /-- The request is no multiple of the page size, exceeds `free_size`, or fits in
  no block. -/
  | reject : pages.size % pageSize ≠ 0 ∨ s.freeSize < pages.size ∨
      (∀ b ∈ bs, b.size < pages.size) → AllocResult s bs pages .reject
  /-- The first block that is large enough loses its first pages. -/
  | carved {l r : List Blk} {b : Blk} {s' : Palloc} : bs = l ++ b :: r →
      pages.size % pageSize = 0 → pages.size ≤ s.freeSize →
      (∀ c ∈ l, c.size < pages.size) → pages.size < b.size →
      Rep s' (l ++ { b with paddr := b.paddr + pages.size, size := b.size - pages.size } :: r) →
      s'.freeSize = s.freeSize →
      AllocResult s bs pages (.carved { pages with paddr := b.paddr } s')
  /-- The first block that is large enough fits exactly and leaves the list. -/
  | emptied {l r : List Blk} {b : Blk} {s' : Palloc} : bs = l ++ b :: r →
      pages.size % pageSize = 0 → pages.size ≤ s.freeSize →
      (∀ c ∈ l, c.size < pages.size) → pages.size = b.size →
      Rep s' (l ++ r) → s'.freeSize = s.freeSize →
      AllocResult s bs pages (.emptied (.node b.node) { pages with paddr := b.paddr } s')

/-- The two neighbours of a block, as its links. -/
theorem Rep.links (h : Rep s (l ++ b :: r)) :
    (s.mem (.node b.node)).next = firstLink (r.map Blk.node) ∧
      (s.mem (.node b.node)).prev = lastLink (l.map Blk.node) := by
  have hlinked := h.linked
  rw [List.map_append, List.map_cons] at hlinked
  exact hlinked.node_links

/-- The neighbours of a place on the list are not the node that is put there. -/
theorem Rep.neighbours_ne (hfresh : ∀ c ∈ l ++ r, c.node ≠ a) :
    firstLink (r.map Blk.node) ≠ .node a ∧ lastLink (l.map Blk.node) ≠ .node a := by
  constructor
  · intro he
    obtain ⟨c, hc, hca⟩ := List.mem_map.mp (firstLink_eq_node he)
    exact hfresh c (by simp [hc]) hca
  · intro he
    obtain ⟨c, hc, hca⟩ := List.mem_map.mp (lastLink_eq_node he)
    exact hfresh c (by simp [hc]) hca

/-- Unlinking a block by making its neighbours point at each other. -/
theorem Rep.unlink (h : Rep s (l ++ b :: r)) :
    Rep ((s.setNext (lastLink (l.map Blk.node)) (firstLink (r.map Blk.node))).setPrev
      (firstLink (r.map Blk.node)) (lastLink (l.map Blk.node))) (l ++ r) := by
  have hlinked := h.linked
  have hnd := h.nodup
  rw [List.map_append, List.map_cons] at hlinked hnd
  refine ⟨?_, ?_, ?_⟩
  · rw [List.map_append]
    refine hlinked.remove hnd ?_ ?_ ?_ ?_
    · simp
    · simp
    · intro x hx _
      simp [hx]
    · intro x hx _
      simp [hx]
  · rw [List.map_append]
    exact (List.nodup_middle.mp hnd).of_cons
  · intro c hc
    have := h.fields c (mem_of_mem_rest hc)
    simpa using this

/-- **`alloc` on the list.** With enough fuel for the search, the first part of
`alloc` returns and acts on the blocks as `AllocResult` says. -/
theorem allocEnter_spec (pages : Pages) (h : Rep s bs) (hf : bs.length < fuel)
    (hwf : ∀ b ∈ bs, b.paddr + b.size < 2 ^ 64) :
    ∃ res, allocEnter fuel pages s = some res ∧ AllocResult s bs pages res := by
  unfold allocEnter
  by_cases hmul : pages.size % pageSize ≠ 0
  · exact ⟨_, by rw [if_pos hmul], .reject (Or.inl hmul)⟩
  rw [if_neg hmul]
  by_cases hfree : pages.size > s.freeSize
  · exact ⟨_, by rw [if_pos hfree], .reject (Or.inr (Or.inl hfree))⟩
  rw [if_neg hfree, h.scan_eq hf]
  rcases firstStop_map Blk.node (fun a => decide ((s.mem a).size ≥ pages.size)) bs with
    ⟨hstop, hall⟩ | ⟨l, b, r, rfl, hstop, hb, hl⟩
  · refine ⟨_, by rw [hstop], .reject (Or.inr (Or.inr ?_))⟩
    intro b hb
    have := hall b hb
    rw [(h.fields b hb).2] at this
    simpa using this
  · rw [hstop]
    obtain ⟨hpa, hsz⟩ := h.fields b (by simp)
    have hbs : pages.size ≤ b.size := by
      rw [hsz] at hb
      simpa using hb
    have hbound := hwf b (by simp)
    have hl' : ∀ c ∈ l, c.size < pages.size := by
      intro c hc
      have := hl c hc
      rw [(h.fields c (by simp [hc])).2] at this
      simpa using this
    have hsub : sub64 b.size pages.size = b.size - pages.size := sub64_eq hbs (by omega)
    have hadd : add64 b.paddr pages.size = b.paddr + pages.size := add64_eq (by omega)
    simp only [setSize_size, setPaddr_size, if_true, hsz, hpa, hsub, hadd]
    have hset : Rep ((s.setPaddr (.node b.node) (b.paddr + pages.size)).setSize (.node b.node)
        (b.size - pages.size))
        (l ++ { b with paddr := b.paddr + pages.size, size := b.size - pages.size } :: r) :=
      h.set _ _ _ (by simp) (by simp) (by simp) (by intro x hx; simp [hx])
    by_cases hz : b.size - pages.size = 0
    · rw [if_pos hz]
      obtain ⟨hn, hp⟩ := h.links
      have hne := (Rep.neighbours_ne h.node_ne).2.symm
      simp only [setSize_prev, setPaddr_prev, setSize_next, setPaddr_next, setNext_next,
        setNext_prev, hn, hp, if_neg hne]
      exact ⟨_, rfl, .emptied rfl (by simpa using hmul) (by omega) hl' (by omega) hset.unlink
        (by simp)⟩
    · rw [if_neg hz]
      exact ⟨_, rfl, .carved rfl (by simpa using hmul) (by omega) hl' (by omega) hset (by simp)⟩

/-- More fuel never changes the outcome of a search that has finished. -/
theorem allocEnter_mono {res : AllocStep} (h : allocEnter n pages s = some res) (hnm : n ≤ m)
    : allocEnter m pages s = some res := by
  unfold allocEnter at h ⊢
  by_cases hmul : pages.size % pageSize ≠ 0
  · rw [if_pos hmul] at h ⊢
    exact h
  rw [if_neg hmul] at h ⊢
  by_cases hfree : pages.size > s.freeSize
  · rw [if_pos hfree] at h ⊢
    exact h
  rw [if_neg hfree] at h ⊢
  cases hscan : scan (fun a => (s.mem a).next) (fun a => decide ((s.mem a).size ≥ pages.size)) n
      (s.mem .head).next with
  | none => rw [hscan] at h; exact absurd h (by simp)
  | some a =>
    rw [hscan] at h
    rw [scan_mono hscan hnm]
    exact h

/-! ### `free` on the list -/

/-- What linking a freed block, on the fresh node `a`, does to the list `bs`. -/
inductive LinkResult (s : Palloc) (bs : List Blk) (a : Nat) (pages : Pages) : LinkStep → Prop
  /-- The block goes in front of the first block that does not start below it. -/
  | kept {l r : List Blk} {s' : Palloc} : bs = l ++ r →
      (∀ c ∈ l, c.paddr < pages.paddr) → (∀ c ∈ r.head?, pages.paddr ≤ c.paddr) →
      (∀ p ∈ l.getLast?, p.stop ≠ pages.paddr) →
      Rep s' (l ++ ⟨a, pages.paddr, pages.size⟩ :: r) → s'.freeSize = s.freeSize →
      LinkResult s bs a pages (.kept s')
  /-- The block before it ends where it starts, and takes it over. -/
  | merged {l r : List Blk} {p : Blk} {s' : Palloc} : bs = l ++ p :: r →
      (∀ c ∈ l ++ [p], c.paddr < pages.paddr) → (∀ c ∈ r.head?, pages.paddr ≤ c.paddr) →
      p.stop = pages.paddr →
      Rep s' (l ++ { p with size := p.size + pages.size } :: r) → s'.freeSize = s.freeSize →
      LinkResult s bs a pages (.merged (.node p.node) s')

/-- Splicing in a node whose fields are filled. -/
theorem Rep.splice {s1 : Palloc} (h : Rep s (l ++ r)) (hfresh : ∀ c ∈ l ++ r, c.node ≠ b.node)
    (hn : (s1.mem (.node b.node)).next = firstLink (r.map Blk.node))
    (hp : (s1.mem (.node b.node)).prev = lastLink (l.map Blk.node))
    (hnl : (s1.mem (lastLink (l.map Blk.node))).next = .node b.node)
    (hpr : (s1.mem (firstLink (r.map Blk.node))).prev = .node b.node)
    (hnext : ∀ x, x ≠ lastLink (l.map Blk.node) → x ≠ .node b.node →
      (s1.mem x).next = (s.mem x).next)
    (hprev : ∀ x, x ≠ firstLink (r.map Blk.node) → x ≠ .node b.node →
      (s1.mem x).prev = (s.mem x).prev)
    (hb : (s1.mem (.node b.node)).paddr = b.paddr ∧ (s1.mem (.node b.node)).size = b.size)
    (hother : ∀ x, x ≠ .node b.node → (s1.mem x).paddr = (s.mem x).paddr ∧
      (s1.mem x).size = (s.mem x).size) :
    Rep s1 (l ++ b :: r) := by
  have hlinked := h.linked
  have hnd := h.nodup
  rw [List.map_append] at hlinked hnd
  have hnot : b.node ∉ l.map Blk.node ++ r.map Blk.node := by
    rw [← List.map_append]
    intro hm
    obtain ⟨c, hc, hcb⟩ := List.mem_map.mp hm
    exact hfresh c hc hcb
  refine ⟨?_, ?_, ?_⟩
  · rw [List.map_append, List.map_cons]
    exact hlinked.insert hnd hnot hnl hn hp hpr hnext hprev
  · rw [List.map_append, List.map_cons, List.nodup_middle, List.nodup_cons]
    exact ⟨hnot, hnd⟩
  · refine forall_mem_insert (fun c hc => ?_) hb
    obtain ⟨h1, h2⟩ := hother (.node c.node) (by simpa using hfresh c hc)
    obtain ⟨h3, h4⟩ := h.fields c hc
    exact ⟨h1.trans h3, h2.trans h4⟩

theorem Rep.fill (h : Rep s bs) (hfresh : ∀ c ∈ bs, c.node ≠ a) (v n : Nat) :
    Rep ((s.setPaddr (.node a) v).setSize (.node a) n) bs := by
  refine ⟨h.linked.congr (by simp) (by simp), h.nodup, fun c hc => ?_⟩
  have hne : Link.node c.node ≠ .node a := by simpa using hfresh c hc
  simpa [hne] using h.fields c hc

/-- The search by address stops in front of `r`. -/
theorem Rep.search (h : Rep s bs) (hf : bs.length < fuel) (v : Nat) :
    ∃ l r, bs = l ++ r ∧
      scan (fun i => (s.mem i).next) (fun i => decide ((s.mem i).paddr ≥ v)) fuel
        (s.mem .head).next = some (firstLink (r.map Blk.node)) ∧
      (∀ c ∈ l, c.paddr < v) ∧ ∀ c ∈ r.head?, v ≤ c.paddr := by
  rw [h.scan_eq hf]
  rcases firstStop_map Blk.node (fun i => decide ((s.mem i).paddr ≥ v)) bs with
    ⟨hstop, hall⟩ | ⟨l, b, r, rfl, hstop, hb, hl⟩
  · refine ⟨bs, [], by simp, by rw [hstop]; rfl, fun c hc => ?_, by simp⟩
    have hbelow := hall c hc
    rw [(h.fields c hc).1] at hbelow
    simpa using hbelow
  · refine ⟨l, b :: r, rfl, by rw [hstop]; rfl, fun c hc => ?_, fun c hc => ?_⟩
    · have hbelow := hl c hc
      rw [(h.fields c (by simp [hc])).1] at hbelow
      simpa using hbelow
    · obtain rfl : b = c := by simpa using hc
      rw [(h.fields b (by simp)).1] at hb
      simpa using hb

/-- The four writes that link a node between `l` and `r`. -/
theorem Rep.link (h : Rep s (l ++ r)) (hfresh : ∀ c ∈ l ++ r, c.node ≠ b.node)
    (hb : (s.mem (.node b.node)).paddr = b.paddr ∧ (s.mem (.node b.node)).size = b.size) :
    Rep ((((s.setPrev (.node b.node) (lastLink (l.map Blk.node))).setNext (.node b.node)
      (firstLink (r.map Blk.node))).setNext (lastLink (l.map Blk.node)) (.node b.node)).setPrev
      (firstLink (r.map Blk.node)) (.node b.node)) (l ++ b :: r) := by
  obtain ⟨hra, hla⟩ := neighbours_ne hfresh
  refine h.splice hfresh ?_ ?_ ?_ ?_ ?_ ?_ ?_ ?_
  · simp [hla.symm]
  · simp [hra.symm]
  · simp
  · simp
  · intro x hx hxa
    simp [hx, hxa]
  · intro x hx hxa
    simp [hx, hxa]
  · simpa using hb
  · intro x _
    simp

/-- A block takes over the one behind it: first the sizes are added up, then that one is
unlinked. -/
theorem Rep.absorb {p : Blk} (h : Rep s (l ++ p :: b :: r)) (n : Nat) :
    Rep (((s.setSize (.node p.node) n).setNext (.node p.node) (firstLink (r.map Blk.node))).setPrev
      (firstLink (r.map Blk.node)) (.node p.node)) (l ++ { p with size := n } :: r) := by
  have hpaddr := (h.fields p (by simp)).1
  have hset : Rep (s.setSize (.node p.node) n) ((l ++ [{ p with size := n }]) ++ b :: r) := by
    have hrep := h.set (s.setSize (.node p.node) n) p.paddr n (by simp) (by simp)
      (by simp [hpaddr]) (by intro x hx; simp [hx])
    simpa using hrep
  have hlast : lastLink ((l ++ [{ p with size := n }]).map Blk.node) = .node p.node := by simp
  have hunlink := hset.unlink
  simpa using hunlink

/-- **Linking on the list.** With enough fuel for the search, the first part of
`free` returns and acts on the blocks as `LinkResult` says. -/
theorem freeLink_spec (h : Rep s bs) (hf : bs.length < fuel) (hfresh : ∀ c ∈ bs, c.node ≠ a)
    (hpages : pages.paddr + pages.size < 2 ^ 64) (hwf : ∀ b ∈ bs, b.paddr + b.size < 2 ^ 64) :
    ∃ res, freeLink fuel (.node a) pages s = some res ∧ LinkResult s bs a pages res := by
  unfold freeLink
  dsimp only
  have h0 := h.fill hfresh pages.paddr pages.size
  have ha0 : (((s.setPaddr (.node a) pages.paddr).setSize (.node a) pages.size).mem (.node a)).paddr =
      pages.paddr ∧ (((s.setPaddr (.node a) pages.paddr).setSize (.node a) pages.size).mem
      (.node a)).size = pages.size := by simp
  have hfree0 : ((s.setPaddr (.node a) pages.paddr).setSize (.node a) pages.size).freeSize =
      s.freeSize := by simp
  generalize (s.setPaddr (.node a) pages.paddr).setSize (.node a) pages.size = s₀ at h0 ha0 hfree0 ⊢
  obtain ⟨l, r, rfl, hstop, hl, hr⟩ := h0.search hf pages.paddr
  rw [ha0.1, hstop]
  have hlinked := h0.linked
  rw [List.map_append] at hlinked
  have hprevr : (s₀.mem (firstLink (r.map Blk.node))).prev = lastLink (l.map Blk.node) :=
    hlinked.prev_eq
  obtain ⟨hra, hla⟩ := Rep.neighbours_ne hfresh
  simp only [setPrev_prev, setNext_prev, hprevr, if_neg hra, if_neg hra.symm, if_true]
  have h1 := h0.link (b := ⟨a, pages.paddr, pages.size⟩) hfresh ha0
  have hfree1 : ((((s₀.setPrev (.node a) (lastLink (l.map Blk.node))).setNext (.node a)
      (firstLink (r.map Blk.node))).setNext (lastLink (l.map Blk.node)) (.node a)).setPrev
      (firstLink (r.map Blk.node)) (.node a)).freeSize = s.freeSize := by simp [hfree0]
  generalize (((s₀.setPrev (.node a) (lastLink (l.map Blk.node))).setNext (.node a)
    (firstLink (r.map Blk.node))).setNext (lastLink (l.map Blk.node)) (.node a)).setPrev
    (firstLink (r.map Blk.node)) (.node a) = s1 at h1 hfree1 ⊢
  obtain ⟨hn1, hp1⟩ := h1.links
  obtain ⟨hapa, hasz⟩ := h1.fields ⟨a, pages.paddr, pages.size⟩ (by simp)
  rcases List.eq_nil_or_concat l with rfl | ⟨l', p, rfl⟩
  · rw [if_neg (by simp)]
    exact ⟨_, rfl, .kept rfl hl hr (by simp) h1 hfree1⟩
  · rw [List.concat_eq_append] at *
    obtain ⟨hppa, hpsz⟩ := h1.fields p (by simp)
    have hlast : lastLink ((l' ++ [p]).map Blk.node) = .node p.node := by simp
    rw [hlast] at hla hp1 ⊢
    simp only [hapa, hasz, hppa, hpsz, add64_eq (hwf p (by simp))]
    by_cases htouch : p.paddr + p.size = pages.paddr
    · rw [if_pos ⟨by simp, htouch⟩]
      have hsum : add64 p.size pages.size = p.size + pages.size := add64_eq (by omega)
      have hrep : Rep s1 (l' ++ p :: ⟨a, pages.paddr, pages.size⟩ :: r) := by simpa using h1
      have hne := (Rep.neighbours_ne h1.node_ne).1.symm
      simp only [setSize_next, setSize_prev, setNext_next, hn1, hp1, hsum, if_neg hla.symm,
        if_neg hne]
      exact ⟨_, rfl, .merged (l := l') (p := p) (r := r) (by simp) hl hr htouch
        (hrep.absorb (p.size + pages.size)) (by simp [hfree1])⟩
    · rw [if_neg (fun hc => htouch hc.2)]
      refine ⟨_, rfl, .kept rfl hl hr ?_ h1 hfree1⟩
      intro q hq
      obtain rfl : p = q := by simpa using hq
      exact htouch

/-- More fuel never changes the outcome of a search that has finished. -/
theorem freeLink_mono {a : Link Nat} {res : LinkStep} (h : freeLink n a pages s = some res)
    (hnm : n ≤ m) : freeLink m a pages s = some res := by
  unfold freeLink at h ⊢
  dsimp only at h ⊢
  generalize (s.setPaddr a pages.paddr).setSize a pages.size = s₀ at h ⊢
  cases hscan : scan (fun i => (s₀.mem i).next)
      (fun i => decide ((s₀.mem i).paddr ≥ (s₀.mem a).paddr)) n (s₀.mem .head).next with
  | none => rw [hscan] at h; exact absurd h (by simp)
  | some i =>
    rw [hscan] at h
    rw [scan_mono hscan hnm]
    exact h

/-- What the second merge of `free` does when the block `b` stands between `l` and
`r`. -/
inductive MergeResult (s : Palloc) (l : List Blk) (b : Blk) (r : List Blk) : MergeStep → Prop
  /-- The next block, if there is one, does not touch. -/
  | kept : (∀ n ∈ r.head?, b.stop ≠ n.paddr) → MergeResult s l b r .kept
  /-- The next block starts where `b` ends, and is taken over. -/
  | merged {n : Blk} {r' : List Blk} {s' : Palloc} : r = n :: r' → b.stop = n.paddr →
      Rep s' (l ++ { b with size := b.size + n.size } :: r') → s'.freeSize = s.freeSize →
      MergeResult s l b r (.merged (.node n.node) s')

/-- The two links of a removal can be written in either order. -/
theorem setPrev_setNext (s : Palloc) (p q v w : Link Nat) :
    (s.setPrev p v).setNext q w = (s.setNext q w).setPrev p v := by
  unfold setPrev setNext
  by_cases hpq : p = q
  · subst hpq
    simp
  · have hqp : q ≠ p := fun he => hpq he.symm
    simp [update_of_ne hpq, update_of_ne hqp, update_comm hqp]

/-- **The second merge on the list.** -/
theorem freeMerge_spec (h : Rep s (l ++ b :: r))
    (hwf : ∀ c ∈ l ++ b :: r, c.paddr + c.size < 2 ^ 64) :
    MergeResult s l b r (freeMerge (.node b.node) s) := by
  unfold freeMerge
  dsimp only
  obtain ⟨hpa, hsz⟩ := h.fields b (by simp)
  obtain ⟨hn, -⟩ := h.links
  rw [hpa, hsz, hn, add64_eq (hwf b (by simp))]
  cases r with
  | nil =>
    exact .kept (by simp)
  | cons n r' =>
    obtain ⟨hnpa, hnsz⟩ := h.fields n (by simp)
    have hnb := hwf n (by simp)
    rw [List.map_cons, firstLink_cons, hnpa, hnsz]
    by_cases htouch : b.paddr + b.size = n.paddr
    · rw [if_pos ⟨by simp, htouch⟩]
      have hsum : add64 b.size n.size = b.size + n.size := add64_eq (by omega)
      rw [hsum]
      -- the block after `n`, as read through `n` before and after the size is written
      have hsplit : l ++ b :: n :: r' = (l ++ [b]) ++ n :: r' := by simp
      have hnn : (s.mem (.node n.node)).next = firstLink (r'.map Blk.node) :=
        (hsplit ▸ h : Rep s ((l ++ [b]) ++ n :: r')).links.1
      simp only [setSize_next, setPrev_next, hnn, hn, List.map_cons, firstLink_cons]
      refine .merged rfl htouch ?_ (by simp)
      rw [setPrev_setNext]
      exact h.absorb (b.size + n.size)
    · rw [if_neg (fun hc => htouch hc.2)]
      refine .kept ?_
      intro m hm
      obtain rfl : n = m := by simpa using hm
      exact htouch

/-! ### `page_allocator_move` on the list -/

/-- **Moving a node on the list.** The block keeps its place and its memory. -/
theorem moveNode_rep (h : Rep s (l ++ b :: r)) (hn : ∀ c ∈ l ++ b :: r, c.node ≠ n) :
    Rep (s.moveNode (.node b.node) (.node n)) (l ++ { b with node := n } :: r) ∧
      ((s.moveNode (.node b.node) (.node n)).mem (.node n)).next = firstLink (r.map Blk.node) := by
  obtain ⟨hpa, hsz⟩ := h.fields b (by simp)
  obtain ⟨hnext, hprev⟩ := h.links
  have hbn : Link.node b.node ≠ .node n := by simpa using hn b (by simp)
  have hrest : ∀ c ∈ l ++ r, c.node ≠ n := fun c hc => hn c (mem_of_mem_rest hc)
  obtain ⟨hrn, hln⟩ := Rep.neighbours_ne hrest
  have hlb := (Rep.neighbours_ne h.node_ne).2.symm
  -- the result is the list without `b`, with the new node spliced in
  have hmove : s.moveNode (.node b.node) (.node n) =
      (((((s.setPaddr (.node n) b.paddr).setSize (.node n) b.size).setPrev (.node n)
        (lastLink (l.map Blk.node))).setNext (.node n) (firstLink (r.map Blk.node))).setNext
        (lastLink (l.map Blk.node)) (.node n)).setPrev (firstLink (r.map Blk.node)) (.node n) := by
    simp [moveNode, hpa, hsz, hnext, hprev, hbn, hlb]
  rw [hmove]
  refine ⟨?_, by simp [hln.symm]⟩
  refine h.unlink.splice (b := { b with node := n }) hrest ?_ ?_ ?_ ?_ ?_ ?_ ?_ ?_
  · simp [hln.symm]
  · simp [hrn.symm]
  · simp
  · simp
  · intro x hx hxn
    simp [hx, hxn]
  · intro x hx hxn
    simp [hx, hxn]
  · simp
  · intro x hxn
    simp [hxn]

end Palloc

end AimKernel
