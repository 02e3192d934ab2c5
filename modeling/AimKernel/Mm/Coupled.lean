import AimKernel.Mm.Machine
import AimKernel.Mm.PallocOwnership
import AimKernel.Mm.SlabInv

/-!
# AimKernel.Mm.Coupled

The joint invariant of the two allocators, at any moment of a nested call.

Three books are kept. `ObjBook` says who owns each object of the simple allocator:
a block on the free list (whose node it is), a client, or a function that is still
running. `PageBook` says the same of pages, and that no page that is owned is also
free. `DescBook` is about the descriptors: where they are stored, and that the ones
picked by a suspended `alloc` are still unused and in a good place for the page
that is on its way.

What the running functions own is not visible in the allocators' memory; it is the
`Ctx` of the invariant `Coupled`. Each piece of the two allocators moves objects
and pages between the books' columns, and gets one lemma for it.
-/

namespace AimKernel

/-! ### Objects -/

/-- The objects of the simple allocator: `H a n` says that `a` is marked, with size
`n`. Those in `nodes` are list nodes, those in `owned` belong to somebody else. -/
structure ObjBook (H : Nat → Nat → Prop) (nodes owned live : List Nat) : Prop where
  live_iff : ∀ a, a ∈ live ↔ ∃ n, H a n
  nodup : live.Nodup
  node_size : ∀ a ∈ nodes, H a memBlockSize
  owned_live : ∀ a ∈ owned, a ∈ live
  distinct : (nodes ++ owned).Nodup

namespace ObjBook

variable {H H' : Nat → Nat → Prop} {nodes nodes' owned owned' live : List Nat} {a n : Nat}

/-- The order in the columns does not matter. -/
theorem perm (h : ObjBook H nodes owned live) (hn : nodes.Perm nodes') (ho : owned.Perm owned') :
    ObjBook H nodes' owned' live where
  live_iff := h.live_iff
  nodup := h.nodup
  node_size := fun a ha => h.node_size a (hn.mem_iff.mpr ha)
  owned_live := fun a ha => h.owned_live a (ho.mem_iff.mpr ha)
  distinct := (hn.append ho).nodup_iff.mp h.distinct

/-- A new object is owned by whoever asked for it. -/
theorem add (h : ObjBook H nodes owned live) (hnew : ∀ m, ¬ H a m)
    (hH : ∀ b m, H' b m ↔ (b = a ∧ m = n) ∨ H b m) :
    ObjBook H' nodes (a :: owned) (a :: live) := by
  have hnot : a ∉ live := fun ha => by
    obtain ⟨m, hm⟩ := (h.live_iff a).mp ha
    exact hnew m hm
  refine ⟨?_, List.nodup_cons.mpr ⟨hnot, h.nodup⟩, ?_, ?_, ?_⟩
  · intro b
    simp only [List.mem_cons, h.live_iff b, hH, exists_or, exists_and_left, exists_eq, and_true]
  · intro b hb
    exact (hH b _).mpr (Or.inr (h.node_size b hb))
  · exact List.forall_mem_cons.mpr
      ⟨List.mem_cons_self, fun b hb => List.mem_cons_of_mem _ (h.owned_live b hb)⟩
  · rw [List.nodup_middle, List.nodup_cons, List.mem_append]
    refine ⟨?_, h.distinct⟩
    rintro (ha | ha)
    · exact hnew _ (h.node_size a ha)
    · exact hnot (h.owned_live a ha)

theorem drop (h : ObjBook H nodes (a :: owned) live)
    (hH : ∀ b m, H' b m ↔ b ≠ a ∧ H b m) : ObjBook H' nodes owned (live.erase a) := by
  have hdist := h.distinct
  rw [List.nodup_middle, List.nodup_cons] at hdist
  have hne : ∀ b ∈ nodes ++ owned, b ≠ a := fun b hb => ne_of_mem_of_not_mem hb hdist.1
  refine ⟨?_, h.nodup.erase a, ?_, ?_, hdist.2⟩
  · intro b
    simp only [h.nodup.mem_erase_iff, h.live_iff b, hH, exists_and_left]
  · intro b hb
    exact (hH b _).mpr ⟨hne b (by simp [hb]), h.node_size b hb⟩
  · intro b hb
    exact (h.nodup.mem_erase_iff).mpr ⟨hne b (by simp [hb]), h.owned_live b (by simp [hb])⟩

/-- An object of the right size becomes a list node. -/
theorem enlist (h : ObjBook H nodes (a :: owned) live) (ha : H a memBlockSize) :
    ObjBook H (a :: nodes) owned live where
  live_iff := h.live_iff
  nodup := h.nodup
  node_size := List.forall_mem_cons.mpr ⟨ha, h.node_size⟩
  owned_live := fun b hb => h.owned_live b (by simp [hb])
  distinct := List.nodup_middle.mp h.distinct

theorem delist (h : ObjBook H (a :: nodes) owned live) : ObjBook H nodes (a :: owned) live where
  live_iff := h.live_iff
  nodup := h.nodup
  node_size := fun b hb => h.node_size b (by simp [hb])
  owned_live := List.forall_mem_cons.mpr
    ⟨(h.live_iff a).mpr ⟨_, h.node_size a (by simp)⟩, h.owned_live⟩
  distinct := List.nodup_middle.mpr h.distinct

end ObjBook

/-! ### Pages -/

/-- The page `p` overlaps no free block. -/
def Apart (bs : List Blk) (p : Nat) : Prop := ∀ b ∈ bs, p + pageSize ≤ b.paddr ∨ b.stop ≤ p

/-- Blocks in ascending order that do not overlap. -/
def Ascending (bs : List Blk) : Prop := bs.Pairwise fun b c => b.stop ≤ c.paddr

/-- A block of low memory. -/
structure Blk.Low (b : Blk) : Prop extends b.OK where
  low : b.stop ≤ lowramTop

/-- The pages: `U a` says that the simple allocator has objects on the page with
kernel address `a`; those in `owned` belong to somebody else. -/
structure PageBook (U : Nat → Prop) (bs : List Blk) (owned : List Nat) : Prop where
  low : ∀ b ∈ bs, b.Low
  ascending : Ascending bs
  used_apart : ∀ p, PhysPage p → U (pa2kva p) → IsFrame p ∧ Apart bs p
  owned_apart : ∀ p ∈ owned, IsFrame p ∧ Apart bs p ∧ ¬ U (pa2kva p)
  nodup : owned.Nodup

variable {bs l r : List Blk} {b : Blk} {p : Nat}

theorem Canon.ascending (h : Canon bs) : Ascending bs :=
  List.Pairwise.imp (fun hlt => le_of_lt hlt) h

/-- A block without its first page. -/
def Blk.carve (b : Blk) : Blk := { b with paddr := b.paddr + pageSize, size := b.size - pageSize }

/-- The free list after one page was allocated. -/
def trim : List Blk → List Blk
  | [] => []
  | b :: bs => if b.size = pageSize then bs else b.carve :: bs

theorem trim_one (h : b.size = pageSize) : trim (b :: bs) = bs :=
  if_pos h

theorem trim_more (h : b.size ≠ pageSize) :
    trim (b :: bs) = b.carve :: bs :=
  if_neg h

theorem Blk.OK.le_size (h : b.OK) : pageSize ≤ b.size := by
  have h1 := h.pos
  have h2 := h.size_mul
  unfold pageSize at *
  omega

theorem Blk.OK.carve_stop (h : b.OK) : b.carve.stop = b.stop :=
  Blk.stop_cut h.le_size

/-- A block of more than one page keeps its shape. -/
theorem Blk.OK.carve (h : b.OK) (hne : b.size ≠ pageSize) : b.carve.OK :=
  h.cut (Nat.mod_self pageSize) (lt_of_le_of_ne h.le_size hne.symm)

theorem Blk.Low.carve (h : b.Low) (hne : b.size ≠ pageSize) : b.carve.Low :=
  ⟨h.toOK.carve hne, by rw [h.carve_stop]; exact h.low⟩

/-- A block that takes over the one behind it. -/
theorem Blk.Low.merge {n : Blk} (hb : b.Low) (hn : n.Low) (htouch : b.stop = n.paddr) :
    ({ b with size := b.size + n.size } : Blk).Low :=
  ⟨hb.toOK.merge hn.toOK htouch, by rw [Blk.stop_merge htouch]; exact hn.low⟩

/-- What holds of a block without its first page, and of the others, holds of the trimmed list. -/
theorem forall_mem_trim {P : Blk → Prop} (hb : b.size ≠ pageSize → P b.carve) (h : ∀ c ∈ bs, P c) :
    ∀ c ∈ trim (b :: bs), P c := by
  by_cases hsize : b.size = pageSize
  · rw [trim_one hsize]
    exact h
  · rw [trim_more hsize]
    exact List.forall_mem_cons.mpr ⟨hb hsize, h⟩

theorem ok_of_low (hlow : ∀ b ∈ bs, b.Low) : ∀ b ∈ bs, b.OK := fun b hb => (hlow b hb).toOK

theorem trim_low (hlow : ∀ b ∈ bs, b.Low) : ∀ c ∈ trim bs, c.Low := by
  cases bs with
  | nil => simp [trim]
  | cons b bs => exact forall_mem_trim (hlow b (by simp)).carve fun c hc => hlow c (by simp [hc])

/-- Trimming keeps any order that only looks at ends and starts. -/
theorem trim_pairwise (hok : ∀ b ∈ bs, b.OK) (R : Nat → Nat → Prop)
    (h : bs.Pairwise fun b c => R b.stop c.paddr) :
    (trim bs).Pairwise fun b c => R b.stop c.paddr := by
  cases bs with
  | nil => exact List.Pairwise.nil
  | cons b bs =>
    obtain ⟨hb, hbs⟩ := List.pairwise_cons.mp h
    by_cases hsize : b.size = pageSize
    · rw [trim_one hsize]
      exact hbs
    · rw [trim_more hsize]
      refine List.pairwise_cons.mpr ⟨?_, hbs⟩
      rw [(hok b (by simp)).carve_stop]
      exact hb

theorem trim_canon (hlow : ∀ b ∈ bs, b.Low) (h : Canon bs) : Canon (trim bs) :=
  trim_pairwise (ok_of_low hlow) (· < ·) h

/-- The page taken off lies below what is left. -/
theorem trim_above (hok : ∀ c ∈ b :: bs, c.OK) (h : Ascending (b :: bs)) :
    ∀ c ∈ trim (b :: bs), b.paddr + pageSize ≤ c.paddr := by
  have hle := (hok b (by simp)).le_size
  refine forall_mem_trim (fun _ => le_refl _) fun c hc => ?_
  have := (List.pairwise_cons.mp h).1 c hc
  unfold Blk.stop at this
  omega

theorem trim_raises (hok : ∀ c ∈ bs, c.OK) (h : Ascending bs) (hp : ∀ c ∈ bs, p ≤ c.paddr) :
    ∀ c ∈ trim bs, p + pageSize ≤ c.paddr := by
  cases bs with
  | nil => simp [trim]
  | cons b bs =>
    intro c hc
    exact le_trans (Nat.add_le_add_right (hp b (by simp)) _) (trim_above hok h c hc)

theorem Blk.Low.page (h : b.Low) : IsFrame b.paddr := by
  have h1 := h.aligned
  have h2 := h.low
  have h3 := h.le_size
  unfold Blk.stop at h2
  exact ⟨h1, by omega⟩

/-- A page that overlaps no block overlaps no part of one. -/
theorem Apart.trim (hok : ∀ b ∈ bs, b.OK) (h : Apart bs p) : Apart (trim bs) p := by
  cases bs with
  | nil => exact h
  | cons b bs =>
    refine forall_mem_trim (fun _ => ?_) fun c hc => h c (by simp [hc])
    have hb := h b (by simp)
    rw [(hok b (by simp)).carve_stop]
    exact hb.imp_left fun hle => Nat.le_trans hle (Nat.le_add_right _ _)

/-- Where a page that overlaps nothing goes in the list. -/
theorem ascending_insert {q : Blk} (h : Ascending (l ++ r)) (hq : q.size = pageSize)
    (hapart : Apart (l ++ r) q.paddr) (hpos : ∀ c ∈ l ++ r, c.Low) (hl : ∀ c ∈ l, c.paddr < q.paddr)
    (hr : ∀ c ∈ r.head?, q.paddr ≤ c.paddr) :
    Ascending (l ++ q :: r) := by
  refine pairwise_middle.mpr ⟨h, fun c hc => ?_, ?_⟩
  · have ha := hapart c (by simp [hc])
    have hb := hl c hc
    omega
  · refine le_paddr_of_disjoint (List.pairwise_append.mp h).2.1 (fun c hc => ?_) hr
      fun c hc => (hpos c (by simp [hc])).pos
    rw [Blk.stop, hq]
    exact hapart c (by simp [hc])

namespace PageBook

variable {U U' : Nat → Prop} {bs l r : List Blk} {b n : Blk} {owned owned' : List Nat} {p : Nat}

theorem perm (h : PageBook U bs owned) (hp : owned.Perm owned') : PageBook U bs owned' where
  low := h.low
  ascending := h.ascending
  used_apart := h.used_apart
  owned_apart := fun p hp' => h.owned_apart p (hp.mem_iff.mpr hp')
  nodup := hp.nodup_iff.mp h.nodup

theorem alloc (h : PageBook U (b :: bs) owned) :
    PageBook U (trim (b :: bs)) (b.paddr :: owned) := by
  have hb := h.low b (by simp)
  have hok := ok_of_low h.low
  have hoverlap : ¬ Apart (b :: bs) b.paddr := by
    intro hapart
    have := hapart b (by simp)
    have := hb.le_size
    unfold Blk.stop pageSize at *
    omega
  refine ⟨trim_low h.low, trim_pairwise hok (· ≤ ·) h.ascending, ?_, ?_, ?_⟩
  · intro q hq hu
    obtain ⟨hlow, hapart⟩ := h.used_apart q hq hu
    exact ⟨hlow, hapart.trim hok⟩
  · refine List.forall_mem_cons.mpr ⟨⟨hb.page, ?_, ?_⟩, fun q hq => ?_⟩
    · intro c hc
      exact Or.inl (trim_above hok h.ascending c hc)
    · intro hu
      exact hoverlap (h.used_apart _ hb.page.physPage hu).2
    · obtain ⟨h1, h2, h3⟩ := h.owned_apart q hq
      exact ⟨h1, h2.trim hok, h3⟩
  · refine List.nodup_cons.mpr ⟨?_, h.nodup⟩
    intro hmem
    exact hoverlap (h.owned_apart _ hmem).2.1

theorem give (h : PageBook U bs (p :: owned)) (hU : ∀ a, U' a ↔ some (pa2kva p) = some a ∨ U a) :
    PageBook U' bs owned := by
  obtain ⟨hlow, hapart, -⟩ := h.owned_apart p (by simp)
  obtain ⟨hnot, hnodup⟩ := List.nodup_cons.mp h.nodup
  refine ⟨h.low, h.ascending, ?_, ?_, hnodup⟩
  · intro q hq hu
    rcases (hU _).mp hu with heq | hu
    · rw [← hlow.physPage.kva_inj hq (Option.some.inj heq)]
      exact ⟨hlow, hapart⟩
    · exact h.used_apart q hq hu
  · intro q hq
    obtain ⟨h1, h2, h3⟩ := h.owned_apart q (by simp [hq])
    refine ⟨h1, h2, ?_⟩
    intro hu
    rcases (hU _).mp hu with heq | hu
    · rw [← hlow.physPage.kva_inj h1.physPage (Option.some.inj heq)] at hq
      exact hnot hq
    · exact h3 hu

theorem ungive (h : PageBook U bs owned) (hp : PhysPage p) (hu : U (pa2kva p))
    (hU : ∀ a, U' a ↔ U a ∧ a ≠ pa2kva p) : PageBook U' bs (p :: owned) := by
  refine ⟨h.low, h.ascending, ?_, ?_, ?_⟩
  · intro q hq hu'
    exact h.used_apart q hq ((hU _).mp hu').1
  · obtain ⟨hlow, hapart⟩ := h.used_apart p hp hu
    refine List.forall_mem_cons.mpr ⟨⟨hlow, hapart, fun hu' => ((hU _).mp hu').2 rfl⟩, fun q hq => ?_⟩
    obtain ⟨h1, h2, h3⟩ := h.owned_apart q hq
    exact ⟨h1, h2, fun hu' => h3 ((hU _).mp hu').1⟩
  · refine List.nodup_cons.mpr ⟨?_, h.nodup⟩
    intro hmem
    exact (h.owned_apart p hmem).2.2 hu

/-- The used pages may be described otherwise. -/
theorem congr (h : PageBook U bs owned) (hU : ∀ a, U' a ↔ U a) : PageBook U' bs owned where
  low := h.low
  ascending := h.ascending
  used_apart := fun p hp hu => h.used_apart p hp ((hU _).mp hu)
  owned_apart := fun p hp => by
    obtain ⟨h1, h2, h3⟩ := h.owned_apart p hp
    exact ⟨h1, h2, fun hu => h3 ((hU _).mp hu)⟩
  nodup := h.nodup

/-- An owned page is put back on the list. -/
theorem insert (h : PageBook U (l ++ r) (p :: owned)) (node : Nat)
    (hl : ∀ c ∈ l, c.paddr < p) (hr : ∀ c ∈ r.head?, p ≤ c.paddr) :
    PageBook U (l ++ ⟨node, p, pageSize⟩ :: r) owned := by
  obtain ⟨hpage, hapart, hunused⟩ := h.owned_apart p (by simp)
  obtain ⟨hnot, hnodup⟩ := List.nodup_cons.mp h.nodup
  have hnew : (⟨node, p, pageSize⟩ : Blk).Low := by
    have h1 := hpage.bound
    have h2 := hpage.aligned
    refine ⟨⟨(by decide : 0 < pageSize), (by decide : pageSize % pageSize = 0), h2, ?_⟩, h1⟩
    show p + pageSize < 2 ^ 64
    unfold lowramTop at h1
    omega
  have hother : ∀ q, PhysPage q → q ≠ p → Apart (l ++ r) q → Apart (l ++ ⟨node, p, pageSize⟩ :: r) q :=
    fun q hq hne hold => forall_mem_insert hold (PageBelow.apart hq hpage hne)
  refine ⟨forall_mem_insert h.low hnew, ascending_insert h.ascending rfl hapart h.low hl hr, ?_, ?_,
    hnodup⟩
  · intro q hq hu
    obtain ⟨h1, h2⟩ := h.used_apart q hq hu
    refine ⟨h1, hother q hq ?_ h2⟩
    rintro rfl
    exact hunused hu
  · intro q hq
    obtain ⟨h1, h2, h3⟩ := h.owned_apart q (by simp [hq])
    refine ⟨h1, hother q h1.physPage ?_ h2, h3⟩
    rintro rfl
    exact hnot hq

theorem merge (h : PageBook U (l ++ b :: n :: r) owned) (htouch : b.stop = n.paddr) :
    PageBook U (l ++ { b with size := b.size + n.size } :: r) owned := by
  have hstop := Blk.stop_merge htouch
  have hrest : ∀ {c}, c ∈ l ++ r → c ∈ l ++ b :: n :: r :=
    fun hc => mem_of_mem_rest (mem_of_mem_rest hc)
  have hapart : ∀ q, Apart (l ++ b :: n :: r) q →
      Apart (l ++ { b with size := b.size + n.size } :: r) q := by
    intro q hold
    refine forall_mem_insert (fun c hc => hold c (hrest hc)) ?_
    have h1 := hold b (by simp)
    have h2 := hold n (by simp)
    rw [hstop]
    dsimp only
    unfold pageSize at *
    omega
  refine ⟨forall_mem_insert (fun c hc => h.low c (hrest hc))
    ((h.low b (by simp)).merge (h.low n (by simp)) htouch), ?_, ?_, ?_, h.nodup⟩
  · obtain ⟨hln, hl, -⟩ := pairwise_middle.mp h.ascending
    obtain ⟨hlr, -, hr⟩ := pairwise_middle.mp hln
    exact pairwise_middle.mpr ⟨hlr, hl, hstop ▸ hr⟩
  · intro q hq hu
    obtain ⟨h1, h2⟩ := h.used_apart q hq hu
    exact ⟨h1, hapart q h2⟩
  · intro q hq
    obtain ⟨h1, h2, h3⟩ := h.owned_apart q hq
    exact ⟨h1, hapart q h2, h3⟩

/-- The block before an owned page takes it over, as if it had been put on the list first. -/
theorem extend (h : PageBook U (l ++ b :: r) (p :: owned)) (hl : ∀ c ∈ l ++ [b], c.paddr < p)
    (hr : ∀ c ∈ r.head?, p ≤ c.paddr) (htouch : b.stop = p) :
    PageBook U (l ++ { b with size := b.size + pageSize } :: r) owned := by
  have hinsert := insert (l := l ++ [b]) (by simpa using h) 0 hl hr
  exact merge (n := ⟨0, p, pageSize⟩) (by simpa using hinsert) htouch

end PageBook

/-! ### Descriptors -/

/-- No descriptor in front of the one at `n` has the page address `a`. -/
def ClearBefore (n a : Nat) : List Desc → Prop
  | [] => True
  | d :: ds => d.node = n ∨ (d.paddr ≠ a ∧ ClearBefore n a ds)

namespace ClearBefore

variable {n a : Nat} {l r : List Desc} {d d' : Desc}

theorem of_left (hl : ∀ e ∈ l, e.paddr ≠ a) (hd : d.node = n) : ClearBefore n a (l ++ d :: r) := by
  induction l with
  | nil => exact Or.inl hd
  | cons e l ih => exact Or.inr ⟨hl e (by simp), ih fun f hf => hl f (by simp [hf])⟩

theorem left (h : ClearBefore n a (l ++ d :: r)) (hne : ∀ e ∈ l, e.node ≠ n) :
    ∀ e ∈ l, e.paddr ≠ a := by
  induction l with
  | nil => simp
  | cons e l ih =>
    rcases h with h | ⟨hpaddr, h⟩
    · exact absurd h (hne e (by simp))
    · exact List.forall_mem_cons.mpr ⟨hpaddr, ih h fun g hg => hne g (by simp [hg])⟩

/-- A descriptor may change if it stays where it is and does not get the page. -/
theorem replace (h : ClearBefore n a (l ++ d :: r)) (hnode : d'.node = d.node)
    (hpaddr : d'.paddr = d.paddr ∨ d'.paddr ≠ a) : ClearBefore n a (l ++ d' :: r) := by
  induction l with
  | nil =>
    rcases h with h | ⟨hd, h⟩
    · exact Or.inl (hnode.trans h)
    · refine Or.inr ⟨?_, h⟩
      rcases hpaddr with heq | hne
      · rw [heq]
        exact hd
      · exact hne
  | cons e l ih =>
    rcases h with h | ⟨he, h⟩
    · exact Or.inl h
    · exact Or.inr ⟨he, ih h⟩

end ClearBefore

/-- The descriptors: each is stored on a plain page, and the ones in `picks` are
unused and may be given the page they are paired with. -/
structure DescBook (ds : List Desc) (nowPlainPage : Nat) (plain : List Nat)
    (picks : List (Nat × Nat)) : Prop where
  stored : ∀ d ∈ ds, ∃ q ∈ plain, pa2kva q ≤ d.node ∧ d.node < pa2kva q + pageSize
  plain_page : ∃ q ∈ plain, nowPlainPage = pa2kva q
  unused : ∀ np ∈ picks, ∃ d ∈ ds, d.node = np.1 ∧ d.size = pgEmpty
  clear : ∀ np ∈ picks, ClearBefore np.1 (pa2kva np.2) ds
  distinct : (picks.map Prod.fst).Nodup

namespace DescBook

variable {l r : List Desc} {d d' : Desc} {ds : List Desc} {now : Nat} {plain : List Nat}
  {picks : List (Nat × Nat)}

/-- A descriptor in use changes, but not its place and page. -/
theorem update (h : DescBook (l ++ d :: r) now plain picks) (hd : d.size ≠ pgEmpty)
    (hnode : d'.node = d.node) (hpaddr : d'.paddr = d.paddr) :
    DescBook (l ++ d' :: r) now plain picks := by
  refine ⟨?_, h.plain_page, ?_, ?_, h.distinct⟩
  · exact forall_mem_replace h.stored (hnode ▸ h.stored d (by simp))
  · intro np hnp
    exact exists_mem_replace (h.unused np hnp) fun hunused => hd hunused.2
  · intro np hnp
    exact (h.clear np hnp).replace hnode (Or.inl hpaddr)

theorem install {p : Nat} (h : DescBook (l ++ d :: r) now plain ((d.node, p) :: picks))
    (hnode : d'.node = d.node) (hp : ∀ np ∈ picks, d'.paddr ≠ pa2kva np.2) :
    DescBook (l ++ d' :: r) now plain picks := by
  obtain ⟨hnot, hdist⟩ := List.nodup_cons.mp h.distinct
  refine ⟨?_, h.plain_page, ?_, ?_, hdist⟩
  · exact forall_mem_replace h.stored (hnode ▸ h.stored d (by simp))
  · intro np hnp
    refine exists_mem_replace (h.unused np (by simp [hnp])) fun hunused => hnot ?_
    exact List.mem_map.mpr ⟨np, hnp, hunused.1.symm⟩
  · intro np hnp
    exact (h.clear np (by simp [hnp])).replace hnode (Or.inr (hp np hnp))

theorem link (h : DescBook ds now plain picks) {q : Nat} (hq : q ∈ plain)
    (hd : pa2kva q ≤ d.node ∧ d.node < pa2kva q + pageSize)
    (hp : ∀ np ∈ picks, d.paddr ≠ pa2kva np.2) : DescBook (d :: ds) now plain picks := by
  refine ⟨?_, h.plain_page, ?_, ?_, h.distinct⟩
  · exact List.forall_mem_cons.mpr ⟨⟨q, hq, hd⟩, h.stored⟩
  · intro np hnp
    obtain ⟨e, he, hen, hes⟩ := h.unused np hnp
    exact ⟨e, by simp [he], hen, hes⟩
  · intro np hnp
    exact Or.inr ⟨hp np hnp, h.clear np hnp⟩

/-- A suspended `alloc` picks the descriptor `d` for the page `p`. -/
theorem pick (h : DescBook (l ++ d :: r) now plain picks) {p : Nat} (hd : d.size = pgEmpty)
    (hl : ∀ e ∈ l, e.paddr ≠ pa2kva p) (hnew : d.node ∉ picks.map Prod.fst) :
    DescBook (l ++ d :: r) now plain ((d.node, p) :: picks) := by
  refine ⟨h.stored, h.plain_page, ?_, ?_, List.nodup_cons.mpr ⟨hnew, h.distinct⟩⟩
  · exact List.forall_mem_cons.mpr ⟨⟨d, by simp, rfl, hd⟩, h.unused⟩
  · exact List.forall_mem_cons.mpr ⟨ClearBefore.of_left hl rfl, h.clear⟩

theorem plainPage (h : DescBook ds now plain picks) (q : Nat) :
    DescBook ds (pa2kva q) (q :: plain) picks := by
  refine ⟨?_, ⟨q, by simp, rfl⟩, h.unused, h.clear, h.distinct⟩
  intro d hd
  obtain ⟨q', hq', hin⟩ := h.stored d hd
  exact ⟨q', by simp [hq'], hin⟩

end DescBook

/-! ### The joint invariant -/

/-- What the functions on the call stack own: objects, pages, the plain pages, and
the unused descriptors they have picked, each with the page it is to get. -/
structure Ctx where
  objs : List Nat
  pages : List Nat
  plain : List Nat
  picks : List (Nat × Nat)

/-- **The joint invariant.** -/
structure Coupled (C : Ctx) (ds : List Desc) (bs : List Blk) (w : World) : Prop where
  active : w.active = .slab
  slab : w.slab.Inv ds
  rep : w.pa.Rep bs
  objs : ObjBook (Holds ds) (bs.map Blk.node) (C.objs ++ w.objs) w.live
  pages : PageBook (UsesPage ds) bs (C.pages ++ (C.plain ++ w.pages))
  descs : DescBook ds w.slab.nowPlainPage C.plain C.picks
  promised : ∀ np ∈ C.picks, np.2 ∈ C.pages
  apart : (C.picks.map Prod.snd).Nodup

end AimKernel
