import AimKernel.Lib.Links

/-!
# AimKernel.Lib.Ring

Circular doubly linked lists with one sentinel: `list_head` of `list.h`.

A ring is opened at its sentinel into a list between two sentinels (`Ring.openNext`,
`Ring.openPrev`), so that the pointer surgery of `AimKernel.Lib.Links` applies to it.
`Ring.Holds r xs` says that the ring consists of the nodes `xs`; adding before a node
(`Holds.listAddBefore`) or at the front (`Holds.listAdd`), deleting (`Holds.listDel`) and
walking (`Holds.forEach_eq`, `Holds.forEachReverse_eq`) are described on `xs`.
-/

namespace AimKernel

open Function (update update_of_ne update_self)

/-- A pointer into a ring: to the sentinel or to a node. -/
inductive Hook (α : Type)
  | head
  | node (a : α)
  deriving Repr, DecidableEq

namespace Hook

variable {α : Type}

/-- As the target of a `next` link of the opened ring. -/
def asNext : Hook α → Link α
  | head => .tail
  | node a => .node a

/-- As the target of a `prev` link of the opened ring. -/
def asPrev : Hook α → Link α
  | head => .head
  | node a => .node a

@[simp] theorem asNext_head : (head : Hook α).asNext = .tail := rfl
@[simp] theorem asNext_node (a : α) : (node a).asNext = .node a := rfl
@[simp] theorem asPrev_head : (head : Hook α).asPrev = .head := rfl
@[simp] theorem asPrev_node (a : α) : (node a).asPrev = .node a := rfl

theorem asNext_injective : Function.Injective (asNext : Hook α → Link α) := by
  intro p q h
  cases p <;> cases q <;> simp_all

theorem asPrev_injective : Function.Injective (asPrev : Hook α → Link α) := by
  intro p q h
  cases p <;> cases q <;> simp_all

end Hook

/-- The links of a ring. -/
structure Ring (α : Type) where
  next : Hook α → Hook α
  prev : Hook α → Hook α

namespace Ring

variable {α : Type}

/-- The node a list starts with, or the sentinel. -/
def firstHook : List α → Hook α
  | [] => .head
  | a :: _ => .node a

/-- The node a list ends with, or the sentinel. -/
def lastHook (l : List α) : Hook α :=
  match l.getLast? with
  | none => .head
  | some a => .node a

@[simp] theorem asNext_firstHook (r : List α) : (firstHook r).asNext = firstLink r := by
  cases r <;> rfl

@[simp] theorem asPrev_lastHook (l : List α) : (lastHook l).asPrev = lastLink l := by
  unfold lastHook lastLink
  cases l.getLast? <;> rfl

theorem lastHook_ne {l : List α} {a : α} (ha : a ∉ l) : lastHook l ≠ .node a := by
  intro he
  have hlink := congrArg Hook.asPrev he
  rw [asPrev_lastHook] at hlink
  exact ha (lastLink_eq_node hlink)

theorem firstHook_ne {r : List α} {a : α} (ha : a ∉ r) : firstHook r ≠ .node a := by
  intro he
  have hlink := congrArg Hook.asNext he
  rw [asNext_firstHook] at hlink
  exact ha (firstLink_eq_node hlink)

section Surgery

variable [DecidableEq α]

/-- `INIT_LIST_HEAD`. -/
def listInit (list : Hook α) (r : Ring α) : Ring α :=
  ⟨Function.update r.next list list, Function.update r.prev list list⟩

/-- `__list_add`. -/
def listLink (new prev next : Hook α) (r : Ring α) : Ring α :=
  let r := { r with prev := Function.update r.prev next new }
  let r := { r with next := Function.update r.next new next }
  let r := { r with prev := Function.update r.prev new prev }
  { r with next := Function.update r.next prev new }

/-- `list_add`. -/
def listAdd (new pos : Hook α) (r : Ring α) : Ring α := r.listLink new pos (r.next pos)

/-- `list_add_before`, an alias of `list_add_tail`. -/
def listAddBefore (new pos : Hook α) (r : Ring α) : Ring α := r.listLink new (r.prev pos) pos

/-- `list_del`. -/
def listDel (entry : Hook α) (r : Ring α) : Ring α :=
  let prev := r.prev entry
  let next := r.next entry
  let r := { r with prev := Function.update r.prev next prev }
  { r with next := Function.update r.next prev next }

end Surgery

/-- `for_each_entry(pos, head, …) if (stop(pos)) break;` from `pos` on. The result is
`pos` on exit, and `none` if the loop is still running after `fuel` tests. -/
def forEach (stop : α → Bool) (r : Ring α) : Nat → Hook α → Option (Hook α)
  | 0, _ => none
  | _ + 1, .head => some .head
  | fuel + 1, .node a => if stop a then some (.node a) else forEach stop r fuel (r.next (.node a))

/-- The ring seen from its other side. -/
def flip (r : Ring α) : Ring α := ⟨r.prev, r.next⟩

/-- `for_each_entry_reverse(pos, head, …) if (stop(pos)) break;`. -/
def forEachReverse (stop : α → Bool) (r : Ring α) (fuel : Nat) (pos : Hook α) : Option (Hook α) :=
  r.flip.forEach stop fuel pos

/-! ### The opened ring -/

/-- Following `next`, with the end of the ring told from its start. -/
def openNext (r : Ring α) : Link α → Link α
  | .head => (r.next .head).asNext
  | .node a => (r.next (.node a)).asNext
  | _ => .null

/-- Following `prev`. -/
def openPrev (r : Ring α) : Link α → Link α
  | .tail => (r.prev .head).asPrev
  | .node a => (r.prev (.node a)).asPrev
  | _ => .null

theorem openNext_asPrev (r : Ring α) (p : Hook α) : r.openNext p.asPrev = (r.next p).asNext := by
  cases p <;> rfl

theorem openPrev_asNext (r : Ring α) (p : Hook α) : r.openPrev p.asNext = (r.prev p).asPrev := by
  cases p <;> rfl

/-- The ring consists of the nodes `xs`, in this order. -/
structure Holds (r : Ring α) (xs : List α) : Prop where
  linked : Linked r.openNext r.openPrev xs
  nodup : xs.Nodup

variable {r : Ring α} {xs l q : List α} {a : α}

theorem Holds.next_lastHook (h : r.Holds (l ++ q)) : r.next (lastHook l) = firstHook q := by
  apply Hook.asNext_injective
  rw [← openNext_asPrev, asPrev_lastHook, asNext_firstHook]
  exact h.linked.next_eq

theorem Holds.prev_firstHook (h : r.Holds (l ++ q)) : r.prev (firstHook q) = lastHook l := by
  apply Hook.asPrev_injective
  rw [← openPrev_asNext, asPrev_lastHook, asNext_firstHook]
  exact h.linked.prev_eq

/-- A ring is what its links say at every cut of the list. -/
theorem holds_iff : r.Holds xs ↔ xs.Nodup ∧ ∀ l q, xs = l ++ q →
    r.next (lastHook l) = firstHook q ∧ r.prev (firstHook q) = lastHook l := by
  constructor
  · intro h
    refine ⟨h.nodup, fun l q hsplit => ?_⟩
    subst hsplit
    exact ⟨h.next_lastHook, h.prev_firstHook⟩
  · rintro ⟨hnodup, hlinks⟩
    refine ⟨fun l q hsplit => ?_, hnodup⟩
    obtain ⟨hnext, hprev⟩ := hlinks l q hsplit
    rw [← asPrev_lastHook, ← asNext_firstHook, openNext_asPrev, openPrev_asNext, hnext, hprev]
    exact ⟨rfl, rfl⟩

theorem firstHook_reverse (l : List α) : firstHook l.reverse = lastHook l := by
  cases hl : l.reverse with
  | nil =>
    rw [List.reverse_eq_nil_iff.mp hl]
    rfl
  | cons a q =>
    rw [← List.reverse_reverse l, hl]
    simp [lastHook, firstHook]

theorem Holds.flip (h : r.Holds xs) : r.flip.Holds xs.reverse := by
  rw [holds_iff] at h ⊢
  refine ⟨List.nodup_reverse.mpr h.1, fun l q hsplit => ?_⟩
  have hcut : xs = q.reverse ++ l.reverse := by
    rw [← List.reverse_append, ← hsplit, List.reverse_reverse]
  obtain ⟨hnext, hprev⟩ := h.2 q.reverse l.reverse hcut
  rw [firstHook_reverse, ← firstHook_reverse q.reverse, List.reverse_reverse] at hnext hprev
  exact ⟨hprev, hnext⟩

theorem Holds.unique {ys : List α} (h : r.Holds xs) (h' : r.Holds ys) : xs = ys :=
  h.linked.chained.unique h'.linked.chained

/-- Opened links agree wherever the ring's own links do. -/
theorem openNext_of_ne {r' : Ring α} {p x : Link α}
    (h : ∀ y, y.asPrev ≠ p → y ≠ .node a → r'.next y = r.next y) (hp : x ≠ p)
    (ha : x ≠ .node a) : r'.openNext x = r.openNext x := by
  cases x with
  | null => rfl
  | tail => rfl
  | head => exact congrArg Hook.asNext (h .head hp (by simp))
  | node b => exact congrArg Hook.asNext (h (.node b) hp (by simpa using ha))

theorem openPrev_of_ne {r' : Ring α} {p x : Link α}
    (h : ∀ y, y.asNext ≠ p → y ≠ .node a → r'.prev y = r.prev y) (hp : x ≠ p)
    (ha : x ≠ .node a) : r'.openPrev x = r.openPrev x := by
  cases x with
  | null => rfl
  | head => rfl
  | tail => exact congrArg Hook.asPrev (h .head hp (by simp))
  | node b => exact congrArg Hook.asPrev (h (.node b) hp (by simpa using ha))

/-! ### Operations -/

/-- A walk visits the nodes in order and stops at the first that satisfies the test,
or at the sentinel. -/
theorem forEach_of_chained {stop : α → Bool} {p : Hook α} {fuel : Nat}
    (h : Chained r.openNext p.asPrev xs) (hfuel : xs.length < fuel) :
    r.forEach stop fuel (r.next p) = some (firstHook (xs.dropWhile fun x => !stop x)) := by
  induction xs generalizing p fuel with
  | nil =>
    have hnext : r.next p = .head := by
      apply Hook.asNext_injective
      rw [← openNext_asPrev]
      exact h
    obtain ⟨n, rfl⟩ : ∃ n, fuel = n + 1 := ⟨fuel - 1, by simp at hfuel; omega⟩
    rw [hnext]
    rfl
  | cons x xs ih =>
    obtain ⟨hx, hrest⟩ := h
    have hnext : r.next p = .node x := by
      apply Hook.asNext_injective
      rw [← openNext_asPrev]
      exact hx
    obtain ⟨n, rfl⟩ : ∃ n, fuel = n + 1 := ⟨fuel - 1, by simp at hfuel; omega⟩
    rw [hnext, forEach]
    by_cases hs : stop x = true
    · rw [if_pos hs, List.dropWhile_cons_of_neg (by simp [hs])]
      rfl
    · rw [if_neg hs, List.dropWhile_cons_of_pos (by simp [hs])]
      exact ih hrest (by simp at hfuel; omega)

/-- More fuel does not change where a finished walk stopped. -/
theorem forEach_mono {stop : α → Bool} {n k : Nat} {p res : Hook α}
    (h : r.forEach stop n p = some res) (hnk : n ≤ k) : r.forEach stop k p = some res := by
  induction n generalizing k p with
  | zero => cases h
  | succ n ih =>
    obtain ⟨m, rfl⟩ : ∃ m, k = m + 1 := ⟨k - 1, by omega⟩
    cases p with
    | head => exact h
    | node a =>
      rw [forEach] at h ⊢
      split at h
      next hs => rw [if_pos hs]; exact h
      next hs => rw [if_neg hs]; exact ih h (by omega)

theorem firstHook_dropWhile (stop : α → Bool) (xs : List α) :
    firstHook (xs.dropWhile fun x => !stop x) = (xs.find? stop).elim .head .node := by
  induction xs with
  | nil => rfl
  | cons x xs ih =>
    by_cases hs : stop x = true
    · rw [List.dropWhile_cons_of_neg (by simp [hs]), List.find?_cons_of_pos hs]
      rfl
    · rw [List.dropWhile_cons_of_pos (by simp [hs]), List.find?_cons_of_neg hs]
      exact ih

theorem Holds.forEach_eq (h : r.Holds xs) (stop : α → Bool) {fuel : Nat}
    (hfuel : xs.length < fuel) :
    r.forEach stop fuel (r.next .head) = some (firstHook (xs.dropWhile fun x => !stop x)) :=
  forEach_of_chained (p := .head) h.linked.chained hfuel

theorem Holds.forEachReverse_eq (h : r.Holds xs) (stop : α → Bool) {fuel : Nat}
    (hfuel : xs.length < fuel) :
    r.forEachReverse stop fuel (r.prev .head) =
      some (firstHook (xs.reverse.dropWhile fun x => !stop x)) :=
  h.flip.forEach_eq stop (by simpa using hfuel)

section Surgery

variable [DecidableEq α]

theorem holds_listInit (r : Ring α) : (r.listInit .head).Holds [] := by
  refine ⟨fun l q hsplit => ?_, .nil⟩
  obtain ⟨rfl, rfl⟩ := List.append_eq_nil_iff.mp hsplit.symm
  simp [listInit, openNext, openPrev]

/-- `list_add_before` a node, or the sentinel, inserts there. -/
theorem Holds.listAddBefore (h : r.Holds (l ++ q)) (ha : a ∉ l ++ q) :
    (r.listAddBefore (.node a) (firstHook q)).Holds (l ++ a :: q) := by
  have hlast : lastHook l ≠ .node a := lastHook_ne fun hl => ha (List.mem_append_left _ hl)
  have hfirst : firstHook q ≠ .node a := firstHook_ne fun hq => ha (List.mem_append_right _ hq)
  refine ⟨?_, ?_⟩
  · rw [Ring.listAddBefore, h.prev_firstHook]
    set r' := r.listLink (.node a) (lastHook l) (firstHook q) with hr'
    have hnext : r'.next = update (update r.next (.node a) (firstHook q))
        (lastHook l) (.node a) := rfl
    have hprev : r'.prev = update (update r.prev (firstHook q) (.node a))
        (.node a) (lastHook l) := rfl
    refine h.linked.insert h.nodup ha ?_ ?_ ?_ ?_ ?_ ?_
    · rw [← asPrev_lastHook, openNext_asPrev, hnext, update_self]
      rfl
    · show (r'.next (.node a)).asNext = _
      rw [hnext, update_of_ne hlast.symm, update_self, asNext_firstHook]
    · show (r'.prev (.node a)).asPrev = _
      rw [hprev, update_self, asPrev_lastHook]
    · rw [← asNext_firstHook, openPrev_asNext, hprev, update_of_ne hfirst,
        update_self]
      rfl
    · intro x hx hxa
      refine openNext_of_ne (fun y hy hya => ?_) hx hxa
      have hyl : y ≠ lastHook l := by
        rintro rfl
        exact hy (asPrev_lastHook l)
      rw [hnext, update_of_ne hyl, update_of_ne hya]
    · intro x hx hxa
      refine openPrev_of_ne (fun y hy hya => ?_) hx hxa
      have hyq : y ≠ firstHook q := by
        rintro rfl
        exact hy (asNext_firstHook q)
      rw [hprev, update_of_ne hya, update_of_ne hyq]
  · rw [List.nodup_middle, List.nodup_cons]
    exact ⟨ha, h.nodup⟩

theorem Holds.listAdd (h : r.Holds xs) (ha : a ∉ xs) : (r.listAdd (.node a) .head).Holds (a :: xs) := by
  have hnext : r.next .head = firstHook xs := h.next_lastHook (l := [])
  have hprev : r.prev (firstHook xs) = .head := h.prev_firstHook (l := [])
  have hsame : r.listAdd (.node a) .head = r.listAddBefore (.node a) (firstHook xs) := by
    rw [Ring.listAdd, Ring.listAddBefore, hnext, hprev]
  rw [hsame]
  exact Holds.listAddBefore (l := []) h ha

/-- `list_init` of a node that is not in the ring. -/
theorem Holds.listInit (h : r.Holds xs) (ha : a ∉ xs) : (r.listInit (.node a)).Holds xs := by
  rw [holds_iff] at h ⊢
  refine ⟨h.1, fun l q hsplit => ?_⟩
  subst hsplit
  have hlast : lastHook l ≠ .node a := lastHook_ne fun hl => ha (List.mem_append_left _ hl)
  have hfirst : firstHook q ≠ .node a := firstHook_ne fun hq => ha (List.mem_append_right _ hq)
  simp only [Ring.listInit, update_of_ne hlast, update_of_ne hfirst]
  exact h.2 l q rfl

theorem Holds.listDel (h : r.Holds (l ++ a :: q)) :
    (r.listDel (.node a)).Holds (l ++ q) := by
  have hprev : r.prev (.node a) = lastHook l := h.prev_firstHook (q := a :: q)
  have hnext : r.next (.node a) = firstHook q := by
    have hcut : r.Holds ((l ++ [a]) ++ q) := by simpa using h
    have hlast : lastHook (l ++ [a]) = .node a := by simp [lastHook]
    rw [← hlast]
    exact hcut.next_lastHook
  refine ⟨?_, (List.nodup_middle.mp h.nodup).of_cons⟩
  refine h.linked.remove h.nodup ?_ ?_ ?_ ?_
  · rw [← asPrev_lastHook, openNext_asPrev, Ring.listDel]
    simp only [hprev, hnext, update_self, asNext_firstHook]
  · rw [← asNext_firstHook, openPrev_asNext, Ring.listDel]
    simp only [hprev, hnext, update_self, asPrev_lastHook]
  · intro x hx hxa
    refine openNext_of_ne (fun y hy _ => ?_) hx hxa
    have hyl : y ≠ lastHook l := by
      rintro rfl
      exact hy (asPrev_lastHook l)
    simp only [Ring.listDel, hprev, hnext, update_of_ne hyl]
  · intro x hx hxa
    refine openPrev_of_ne (fun y hy _ => ?_) hx hxa
    have hyq : y ≠ firstHook q := by
      rintro rfl
      exact hy (asNext_firstHook q)
    simp only [Ring.listDel, hprev, hnext, update_of_ne hyq]

end Surgery

end Ring

end AimKernel
