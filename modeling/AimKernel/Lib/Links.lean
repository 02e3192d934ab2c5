import Mathlib.Data.List.Chain
import Mathlib.Data.List.Nodup
import Mathlib.Logic.Function.Basic

/-!
# AimKernel.Lib.Links

Intrusive linked lists between two statically allocated sentinels.

A list of this kind is a pair of maps `next`/`prev` on pointers; the nodes on it
are the ones met when following `next` from `head` to `tail`. This module gives

* `Link α` — pointers to a node at address `α`, to one of the two sentinels, or
  null;
* `scan` — the loop `for (a = start; a != tail; a = a->next) if (p(a)) break;`;
* `Linked next prev xs` — the list holds exactly the nodes `xs`, in this order,
  with mutually inverse links; and
* the effect on `Linked` of the two usual pieces of pointer surgery, splicing a
  node in between two neighbours (`Linked.insert`) and out again
  (`Linked.remove`).

Lists that are only walked forwards use the one-directional `Chained`.
-/

namespace AimKernel

/-- A pointer to a list node: the null pointer, one of the two sentinels, or the
node stored at an address. -/
inductive Link (α : Type)
  | null
  | head
  | tail
  | node (a : α)
  deriving Repr, DecidableEq

variable {α : Type}

/-! ### One node among the others -/

section Replace

variable {l r : List α} {x y : α} {P : α → Prop}

theorem mem_middle : y ∈ l ++ x :: r ↔ y = x ∨ y ∈ l ++ r := by
  rw [List.perm_middle.mem_iff, List.mem_cons]

theorem mem_of_mem_rest (h : y ∈ l ++ r) : y ∈ l ++ x :: r :=
  mem_middle.mpr (.inr h)

theorem exists_mem_middle : (∃ z ∈ l ++ x :: r, P z) ↔ P x ∨ ∃ z ∈ l ++ r, P z := by
  simp only [mem_middle, or_and_right, exists_or, exists_eq_left]

/-- An element in the middle of an ordered list stands in order with those on either side. -/
theorem pairwise_middle {R : α → α → Prop} : (l ++ x :: r).Pairwise R ↔
    (l ++ r).Pairwise R ∧ (∀ z ∈ l, R z x) ∧ ∀ z ∈ r, R x z := by
  simp only [List.pairwise_append, List.pairwise_cons, List.forall_mem_cons, forall_and]
  constructor
  · rintro ⟨hl, ⟨hx, hr⟩, hlx, hlr⟩
    exact ⟨⟨hl, hr, hlr⟩, hlx, hx⟩
  · rintro ⟨⟨hl, hr, hlr⟩, hlx, hx⟩
    exact ⟨hl, ⟨hx, hr⟩, hlx, hlr⟩

theorem map_ne_of_nodup {β : Type} {f : α → β} (h : ((l ++ x :: r).map f).Nodup) :
    ∀ z ∈ l ++ r, f z ≠ f x := by
  rw [List.map_append, List.map_cons, List.nodup_middle, ← List.map_append, List.nodup_cons] at h
  exact fun z hz heq => h.1 (List.mem_map.mpr ⟨z, hz, heq⟩)

theorem forall_mem_insert (h : ∀ z ∈ l ++ r, P z) (hy : P y) : ∀ z ∈ l ++ y :: r, P z := by
  intro z hz
  rcases mem_middle.mp hz with rfl | hz
  · exact hy
  · exact h z hz

theorem forall_mem_replace (h : ∀ z ∈ l ++ x :: r, P z) (hy : P y) : ∀ z ∈ l ++ y :: r, P z :=
  forall_mem_insert (fun z hz => h z (mem_of_mem_rest hz)) hy

theorem exists_mem_replace (h : ∃ z ∈ l ++ x :: r, P z) (hx : ¬ P x) : ∃ z ∈ l ++ y :: r, P z := by
  by_contra hno
  push Not at hno
  obtain ⟨z, hz, hPz⟩ := h
  exact forall_mem_replace hno hx z hz hPz

end Replace

/-! ### Walking the list -/

/-- The loop `for (a = start; a != tail; a = a->next) if (stop a) break;`, run for
at most `fuel` iterations. The result is the value of `a` on exit, and `none` if
the loop is still running. -/
def scan [DecidableEq α] (next : Link α → Link α) (stop : Link α → Bool) :
    Nat → Link α → Option (Link α)
  | 0, _ => none
  | fuel + 1, a =>
    if a = .tail then some .tail
    else if stop a then some a
    else scan next stop fuel (next a)

/-- Following `next` from `a` meets exactly `xs` before reaching `tail`. -/
def Chained (next : Link α → Link α) : Link α → List α → Prop
  | a, [] => next a = .tail
  | a, x :: xs => next a = .node x ∧ Chained next (.node x) xs

/-- The nodes of a list are determined by its links. -/
theorem Chained.unique {next : Link α → Link α} {xs ys : List α} {a : Link α}
    (hx : Chained next a xs) (hy : Chained next a ys) : xs = ys := by
  induction xs generalizing a ys with
  | nil =>
    cases ys with
    | nil => rfl
    | cons y ys => exact absurd (hx.symm.trans hy.1) (by simp)
  | cons x xs ih =>
    cases ys with
    | nil => exact absurd (hx.1.symm.trans hy) (by simp)
    | cons y ys =>
      obtain rfl : x = y := Link.node.inj (hx.1.symm.trans hy.1)
      rw [ih hx.2 hy.2]

/-- Where a walk along `xs` stops: at the first node satisfying `stop`, or at the
tail. -/
def firstStop (stop : Link α → Bool) : List α → Link α
  | [] => .tail
  | x :: xs => if stop (.node x) then .node x else firstStop stop xs

/-- **The scan of a well-linked list.** A walk over `xs` returns after at most
`xs.length + 1` tests, at the first node that satisfies the test or at the tail. -/
theorem scan_eq [DecidableEq α] {next : Link α → Link α} {stop : Link α → Bool} :
    ∀ {xs : List α} {a : Link α} {fuel : Nat}, Chained next a xs → xs.length < fuel →
      scan next stop fuel (next a) = some (firstStop stop xs) := by
  intro xs
  induction xs with
  | nil =>
    intro a fuel hc hf
    obtain ⟨n, rfl⟩ : ∃ n, fuel = n + 1 := ⟨fuel - 1, by simp at hf; omega⟩
    rw [show next a = .tail from hc]
    simp [scan, firstStop]
  | cons x xs ih =>
    intro a fuel hc hf
    obtain ⟨hx, hxs⟩ := hc
    obtain ⟨n, rfl⟩ : ∃ n, fuel = n + 1 := ⟨fuel - 1, by simp at hf; omega⟩
    rw [hx]
    by_cases hs : stop (.node x) = true
    · simp [scan, firstStop, hs]
    · rw [scan, if_neg (by simp), if_neg hs, ih hxs (by simp at hf; omega)]
      simp [firstStop, hs]

/-- More fuel never changes the outcome of a walk that has finished. -/
theorem scan_mono [DecidableEq α] {next : Link α → Link α} {stop : Link α → Bool} :
    ∀ {n m : Nat} {a r : Link α}, scan next stop n a = some r → n ≤ m →
      scan next stop m a = some r := by
  intro n
  induction n with
  | zero => intro m a r h; simp [scan] at h
  | succ n ih =>
    intro m a r h hm
    obtain ⟨k, rfl⟩ : ∃ k, m = k + 1 := ⟨m - 1, by omega⟩
    by_cases ht : a = .tail
    · simpa [scan, ht] using h
    · by_cases hs : stop a = true
      · simpa [scan, ht, hs] using h
      · rw [scan, if_neg ht, if_neg hs] at h ⊢
        exact ih h (by omega)

/-- A walk over the nodes of `bs`, phrased with the elements of `bs`: it stops at
the tail, or cuts `bs` at the first element that satisfies the test. -/
theorem firstStop_map {β : Type} (node : β → α) (stop : Link α → Bool) (bs : List β) :
    (firstStop stop (bs.map node) = .tail ∧ ∀ b ∈ bs, stop (.node (node b)) = false) ∨
    ∃ l b r, bs = l ++ b :: r ∧ firstStop stop (bs.map node) = .node (node b) ∧
      stop (.node (node b)) = true ∧ ∀ c ∈ l, stop (.node (node c)) = false := by
  induction bs with
  | nil => exact Or.inl ⟨rfl, by simp⟩
  | cons b bs ih =>
    by_cases hs : stop (.node (node b)) = true
    · exact Or.inr ⟨[], b, bs, rfl, by simp [firstStop, hs], hs, by simp⟩
    · rcases ih with ⟨h, hall⟩ | ⟨l, c, r, rfl, h, hc, hl⟩
      · refine Or.inl ⟨by simp [firstStop, hs] at h ⊢; exact h, ?_⟩
        simpa [hs] using hall
      · refine Or.inr ⟨b :: l, c, r, rfl, ?_, hc, ?_⟩
        · simpa [firstStop, hs] using h
        · simpa [hs] using hl

/-- Two cuts of a list at a node are the same, or one node lies before the other. -/
theorem split_cases {β : Type} {l l' r r' : List β} {b b' : β}
    (heq : l ++ b :: r = l' ++ b' :: r') : (l' = l ∧ b' = b ∧ r' = r) ∨ b ∈ l' ∨ b' ∈ l := by
  rcases List.append_eq_append_iff.mp heq with ⟨m, hm, hr⟩ | ⟨m, hm, hr⟩
  · cases m with
    | nil => simp_all
    | cons x m =>
      obtain ⟨rfl, -⟩ := List.cons.inj hr
      exact .inr (.inl (by simp [hm]))
  · cases m with
    | nil => simp_all
    | cons x m =>
      obtain ⟨rfl, -⟩ := List.cons.inj hr
      exact .inr (.inr (by simp [hm]))

/-- There is one place only at which a list can be cut at its first hit. -/
theorem first_hit_unique {β : Type} {hit : β → Prop} {l l' r r' : List β} {b b' : β}
    (heq : l ++ b :: r = l' ++ b' :: r') (hb : hit b) (hb' : hit b') (hl : ∀ c ∈ l, ¬ hit c)
    (hl' : ∀ c ∈ l', ¬ hit c) : l' = l ∧ b' = b ∧ r' = r := by
  rcases split_cases heq with hsame | hmem | hmem
  · exact hsame
  · exact absurd hb (hl' b hmem)
  · exact absurd hb' (hl b' hmem)

/-- A chain only depends on the links of its own nodes. -/
theorem Chained.congr {next next' : Link α → Link α} :
    ∀ {xs : List α} {a : Link α}, Chained next a xs → next' a = next a →
      (∀ x ∈ xs, next' (.node x) = next (.node x)) → Chained next' a xs := by
  intro xs
  induction xs with
  | nil => intro a h ha _; exact ha.trans h
  | cons x xs ih =>
    intro a h ha hxs
    refine ⟨ha.trans h.1, ih h.2 (hxs x (by simp)) ?_⟩
    intro y hy
    exact hxs y (by simp [hy])

/-! ### Doubly linked lists -/

/-- The last pointer of `head :: l`. -/
def lastLink (l : List α) : Link α := (l.getLast?).elim .head .node

/-- The first pointer of `r ++ [tail]`. -/
def firstLink (r : List α) : Link α := (r.head?).elim .tail .node

@[simp] theorem lastLink_nil : lastLink ([] : List α) = .head := rfl
@[simp] theorem lastLink_concat (l : List α) (a : α) : lastLink (l ++ [a]) = .node a := by
  simp [lastLink]
@[simp] theorem firstLink_nil : firstLink ([] : List α) = .tail := rfl
@[simp] theorem firstLink_cons (a : α) (r : List α) : firstLink (a :: r) = .node a := rfl

theorem lastLink_eq_node {l : List α} {a : α} (h : lastLink l = .node a) : a ∈ l := by
  rcases List.eq_nil_or_concat l with rfl | ⟨l', b, rfl⟩
  · simp at h
  · rw [List.concat_eq_append, lastLink_concat] at h
    obtain rfl := Link.node.inj h
    simp

theorem firstLink_eq_node {r : List α} {a : α} (h : firstLink r = .node a) : a ∈ r := by
  cases r with
  | nil => simp at h
  | cons b r => obtain rfl := Link.node.inj h; simp

/-- The list between the sentinels holds exactly the nodes `xs`, in this order: at
every cut of `xs` the two neighbours point at each other. -/
def Linked (next prev : Link α → Link α) (xs : List α) : Prop :=
  ∀ l r, xs = l ++ r → next (lastLink l) = firstLink r ∧ prev (firstLink r) = lastLink l

theorem Linked.next_eq {next prev : Link α → Link α} {l r : List α}
    (h : Linked next prev (l ++ r)) : next (lastLink l) = firstLink r :=
  (h l r rfl).1

theorem Linked.prev_eq {next prev : Link α → Link α} {l r : List α}
    (h : Linked next prev (l ++ r)) : prev (firstLink r) = lastLink l :=
  (h l r rfl).2

/-- The node in the middle of a list has its two neighbours as links. -/
theorem Linked.node_links {next prev : Link α → Link α} {l r : List α} {a : α}
    (h : Linked next prev (l ++ a :: r)) :
    next (.node a) = firstLink r ∧ prev (.node a) = lastLink l := by
  have h1 := h.prev_eq
  have h2 : Linked next prev ((l ++ [a]) ++ r) := by simpa using h
  have h3 := h2.next_eq
  rw [lastLink_concat] at h3
  exact ⟨h3, by simpa using h1⟩

/-- Walking forwards meets the nodes of a doubly linked list in order. -/
theorem Linked.chained {next prev : Link α → Link α} {xs : List α}
    (h : Linked next prev xs) : Chained next .head xs := by
  have key : ∀ (r l : List α), xs = l ++ r → Chained next (lastLink l) r := by
    intro r
    induction r with
    | nil => intro l hl; exact (h l [] hl).1
    | cons x r ih =>
      intro l hl
      refine ⟨(h l _ hl).1, ?_⟩
      have := ih (l ++ [x]) (by simpa using hl)
      rwa [lastLink_concat] at this
  exact key xs [] rfl

/-- Two cuts of a duplicate-free list have different left neighbours. -/
theorem lastLink_ne_of_split {l m r : List α} (hnd : (l ++ m ++ r).Nodup) (hm : m ≠ []) :
    lastLink l ≠ lastLink (l ++ m) := by
  obtain ⟨m', b, rfl⟩ := (List.eq_nil_or_concat m).resolve_left hm
  rw [List.concat_eq_append, ← List.append_assoc, lastLink_concat]
  intro h
  have hb := lastLink_eq_node h
  have hd := (List.nodup_append.mp (List.nodup_append.mp hnd).1).2.2
  exact hd b hb b (by simp) rfl

/-- Two cuts of a duplicate-free list have different right neighbours. -/
theorem firstLink_ne_of_split {l m r : List α} (hnd : (l ++ m ++ r).Nodup) (hm : m ≠ []) :
    firstLink r ≠ firstLink (m ++ r) := by
  obtain ⟨b, m', rfl⟩ := List.exists_cons_of_ne_nil hm
  intro h
  have hb := firstLink_eq_node h
  rw [List.append_assoc] at hnd
  have hnd' := (List.nodup_append.mp hnd).2.1
  rw [List.cons_append, List.nodup_cons] at hnd'
  exact hnd'.1 (by simp [hb])

/-- **Splicing a node in.** Writing the four links around `a` between the
neighbours of a cut, and no other link, inserts `a` at that cut. -/
theorem Linked.insert {next prev next' prev' : Link α → Link α} {l r : List α} {a : α}
    (h : Linked next prev (l ++ r)) (hnd : (l ++ r).Nodup) (ha : a ∉ l ++ r)
    (hnl : next' (lastLink l) = .node a) (hna : next' (.node a) = firstLink r)
    (hpa : prev' (.node a) = lastLink l) (hpr : prev' (firstLink r) = .node a)
    (hn : ∀ x, x ≠ lastLink l → x ≠ .node a → next' x = next x)
    (hp : ∀ x, x ≠ firstLink r → x ≠ .node a → prev' x = prev x) :
    Linked next' prev' (l ++ a :: r) := by
  intro l' r' hsplit
  rcases List.append_eq_append_iff.mp hsplit with ⟨m, hl, hr⟩ | ⟨m, hl, hr⟩
  · -- the cut lies at or after `l`
    cases m with
    | nil =>
      simp only [List.append_nil, List.nil_append] at hl hr
      subst hl hr
      exact ⟨hnl, hpa⟩
    | cons b m =>
      simp only [List.cons_append, List.cons.injEq] at hr
      obtain ⟨rfl, rfl⟩ := hr
      cases m with
      | nil =>
        simp only [List.nil_append] at hna hpr ⊢
        subst hl
        simp [hna, hpr]
      | cons c m =>
        have hne : lastLink (l ++ (c :: m)) ≠ lastLink l := fun he =>
          lastLink_ne_of_split (l := l) (m := c :: m) (r := r')
            (by simpa using hnd) (by simp) he.symm
        have hcut := h (l ++ (c :: m)) r' (by simp)
        have hlast : lastLink l' = lastLink (l ++ (c :: m)) := by
          subst hl
          simp [lastLink, List.getLast?_append, List.getLast?_cons]
        have hmem : ∀ x, lastLink (l ++ (c :: m)) = .node x → x ≠ a := by
          rintro x hx rfl
          have := lastLink_eq_node hx
          simp only [List.mem_append] at this ha
          exact ha (by rcases this with h | h <;> simp [h])
        have hmem' : ∀ x, firstLink r' = .node x → x ≠ a := by
          rintro x hx rfl
          exact ha (by simp [firstLink_eq_node hx])
        rw [hlast]
        refine ⟨?_, ?_⟩
        · rw [hn _ hne (fun he => hmem a he rfl)]
          exact hcut.1
        · rw [hp _ ?_ (fun he => hmem' a he rfl)]
          · exact hcut.2
          · exact firstLink_ne_of_split (l := l) (m := c :: m) (by simpa using hnd) (by simp)
  · -- the cut lies strictly before `a`
    subst hl
    cases m with
    | nil =>
      subst hr
      simp only [List.append_nil] at hnl hpa ⊢
      exact ⟨hnl, by simpa using hpa⟩
    | cons b m =>
      have hcut := h l' (b :: m ++ r) (by simp)
      have hr' : firstLink r' = .node b := by rw [hr]; rfl
      have hba : b ≠ a := by rintro rfl; exact ha (by simp)
      have hne : lastLink l' ≠ lastLink (l' ++ (b :: m)) :=
        lastLink_ne_of_split (r := r) hnd (by simp)
      have hl'a : ∀ x, lastLink l' = .node x → x ≠ a := by
        rintro x hx rfl
        exact ha (by simp [lastLink_eq_node hx])
      rw [hr']
      refine ⟨?_, ?_⟩
      · rw [hn _ hne (fun he => hl'a a he rfl)]
        simpa using hcut.1
      · rw [hp _ ?_ (by simpa using hba)]
        · simpa using hcut.2
        · have := firstLink_ne_of_split (l := l') (m := b :: m) (r := r) hnd (by simp)
          simpa using this.symm

/-- **Splicing a node out.** Joining the two neighbours of `a`, and writing no
other link of a node that stays, removes `a`. -/
theorem Linked.remove {next prev next' prev' : Link α → Link α} {l r : List α} {a : α}
    (h : Linked next prev (l ++ a :: r)) (hnd : (l ++ a :: r).Nodup)
    (hnl : next' (lastLink l) = firstLink r) (hpr : prev' (firstLink r) = lastLink l)
    (hn : ∀ x, x ≠ lastLink l → x ≠ .node a → next' x = next x)
    (hp : ∀ x, x ≠ firstLink r → x ≠ .node a → prev' x = prev x) :
    Linked next' prev' (l ++ r) := by
  have hnd' : (l ++ r).Nodup := (List.nodup_middle.mp hnd).of_cons
  have ha : a ∉ l ++ r := (List.nodup_cons.mp (List.nodup_middle.mp hnd)).1
  intro l' r' hsplit
  rcases List.append_eq_append_iff.mp hsplit with ⟨m, hl, hr⟩ | ⟨m, hl, hr⟩
  · subst hl hr
    cases m with
    | nil => simpa using And.intro hnl hpr
    | cons c m =>
      have hcut := h (l ++ a :: c :: m) r' (by simp)
      have hlast : lastLink (l ++ a :: c :: m) = lastLink (l ++ (c :: m)) := by
        simp [lastLink, List.getLast?_append, List.getLast?_cons]
      have hne : lastLink (l ++ (c :: m)) ≠ lastLink l := fun he =>
        lastLink_ne_of_split (l := l) (m := c :: m) (r := r') (by simpa using hnd')
          (by simp) he.symm
      rw [hlast] at hcut
      refine ⟨?_, ?_⟩
      · rw [hn _ hne]
        · exact hcut.1
        · intro he
          have := lastLink_eq_node he
          exact ha (by simp only [List.mem_append] at this ⊢; tauto)
      · rw [hp _ (firstLink_ne_of_split (l := l) (m := c :: m) (by simpa using hnd') (by simp))]
        · exact hcut.2
        · intro he
          exact ha (by simp [firstLink_eq_node he])
  · subst hl hr
    cases m with
    | nil => simpa using And.intro hnl hpr
    | cons b m =>
      have hcut := h l' (b :: m ++ a :: r) (by simp)
      have hne : lastLink l' ≠ lastLink (l' ++ (b :: m)) :=
        lastLink_ne_of_split (r := r) hnd' (by simp)
      refine ⟨?_, ?_⟩
      · rw [hn _ hne]
        · simpa using hcut.1
        · intro he
          exact ha (by simp [lastLink_eq_node he])
      · rw [hp]
        · simpa using hcut.2
        · have := firstLink_ne_of_split (l := l') (m := b :: m) (r := r) hnd' (by simp)
          exact this.symm
        · rintro he
          obtain rfl : b = a := by simpa using he
          exact ha (by simp)

/-- Links of nodes that are not on the list do not matter. -/
theorem Linked.congr {next prev next' prev' : Link α → Link α} {xs : List α}
    (h : Linked next prev xs)
    (hn : ∀ x, x = .head ∨ (∃ a ∈ xs, x = .node a) → next' x = next x)
    (hp : ∀ x, x = .tail ∨ (∃ a ∈ xs, x = .node a) → prev' x = prev x) :
    Linked next' prev' xs := by
  intro l r hsplit
  obtain ⟨h1, h2⟩ := h l r hsplit
  refine ⟨?_, ?_⟩
  · rw [hn, h1]
    rcases List.eq_nil_or_concat l with rfl | ⟨l', b, rfl⟩
    · exact Or.inl rfl
    · exact Or.inr ⟨b, by simp [hsplit], by simp⟩
  · rw [hp, h2]
    cases r with
    | nil => exact Or.inl rfl
    | cons b r => exact Or.inr ⟨b, by simp [hsplit], rfl⟩

end AimKernel
