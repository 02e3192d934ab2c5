import Mathlib.Data.List.Nodup
import Mathlib.Logic.Function.Basic

/-!
# AimKernel.Lib.Owners

Exclusive ownership of resources.

A pool has handed out the resources `held`. Some of them, `base`, belong to parties
outside the system under study; each other one serves exactly one *role* of the
system, given by a partial injective map `role`. `Owned` ties the three together:
nothing held is without an owner (no leak), nothing is owned twice, and nothing
owned has gone back to the pool.

A fresh resource can be claimed for a vacant role and the resource of a role can be
released; the outside parties can borrow fresh resources and give theirs back. All
four keep the bookkeeping exact.

What the pool is going to answer is a list of its own. `Stocked` says that the next
answers are all resources which can be handed out then.
-/

namespace AimKernel

variable {α ι : Type} {held base : List α} {role : ι → Option α}

/-- What the pool has handed out is what `base` and the roles own, each thing once. -/
structure Owned (held base : List α) (role : ι → Option α) : Prop where
  nodup : held.Nodup
  inj : ∀ {r r' x}, role r = some x → role r' = some x → r = r'
  apart : ∀ {r x}, role r = some x → x ∉ base
  mem_iff : ∀ {x}, x ∈ held ↔ x ∈ base ∨ ∃ r, role r = some x

/-! ### Partial maps with one change -/

section Update

variable [DecidableEq ι] {i r : ι} {x y : α}

theorem update_some_eq (h : Function.update role r (some x) i = some y) :
    i = r ∧ x = y ∨ i ≠ r ∧ role i = some y := by
  by_cases hi : i = r
  · rw [hi, Function.update_self] at h
    exact .inl ⟨hi, Option.some.inj h⟩
  · rw [Function.update_of_ne hi] at h
    exact .inr ⟨hi, h⟩

theorem update_none_eq (h : Function.update role r none i = some y) : i ≠ r ∧ role i = some y := by
  by_cases hi : i = r
  · rw [hi, Function.update_self] at h
    cases h
  · rw [Function.update_of_ne hi] at h
    exact ⟨hi, h⟩

end Update

/-! ### Owners -/

namespace Owned

theorem mem_of_role (h : Owned held base role) {r : ι} {x : α} (hr : role r = some x) :
    x ∈ held :=
  h.mem_iff.mpr (.inr ⟨r, hr⟩)

/-- At the start everything handed out belongs to others. -/
theorem vacant (hn : held.Nodup) (hv : ∀ r : ι, role r = none) : Owned held held role where
  nodup := hn
  inj := by simp [hv]
  apart := by simp [hv]
  mem_iff := by simp [hv]

theorem lend (h : Owned held base role) {xs : List α} (hn : xs.Nodup)
    (hx : ∀ x ∈ xs, x ∉ held) : Owned (xs ++ held) (xs ++ base) role where
  nodup := List.Nodup.append hn h.nodup fun x hxs hheld => hx x hxs hheld
  inj := h.inj
  apart := by
    intro r x hr hmem
    rcases List.mem_append.mp hmem with hxs | hb
    · exact hx x hxs (h.mem_of_role hr)
    · exact h.apart hr hb
  mem_iff := by
    intro x
    rw [List.mem_append, List.mem_append, h.mem_iff, or_assoc]

theorem giveBack [DecidableEq α] (h : Owned held base role) (hb : base.Nodup) {xs : List α}
    (hx : ∀ x ∈ xs, x ∈ base) : Owned (held.diff xs) (base.diff xs) role where
  nodup := List.Nodup.diff h.nodup
  inj := h.inj
  apart := by
    intro r x hr hmem
    rw [List.Nodup.mem_sdiff_iff hb] at hmem
    exact h.apart hr hmem.1
  mem_iff := by
    intro x
    rw [List.Nodup.mem_sdiff_iff h.nodup, List.Nodup.mem_sdiff_iff hb, h.mem_iff]
    constructor
    · rintro ⟨hbase | hr, hxs⟩
      · exact .inl ⟨hbase, hxs⟩
      · exact .inr hr
    · rintro (⟨hbase, hxs⟩ | ⟨r, hr⟩)
      · exact ⟨.inl hbase, hxs⟩
      · exact ⟨.inr ⟨r, hr⟩, fun hxs => h.apart hr (hx x hxs)⟩

variable [DecidableEq ι]

theorem claim (h : Owned held base role) {r : ι} {x : α} (hx : x ∉ held)
    (hr : role r = none) : Owned (x :: held) base (Function.update role r (some x)) where
  nodup := List.nodup_cons.mpr ⟨hx, h.nodup⟩
  inj := by
    have hfresh : ∀ r', role r' ≠ some x := fun r' h' => hx (h.mem_of_role h')
    intro r1 r2 y h1 h2
    rcases update_some_eq h1 with ⟨rfl, rfl⟩ | ⟨-, hold1⟩
    · rcases update_some_eq h2 with ⟨rfl, -⟩ | ⟨-, h2⟩
      · rfl
      · exact absurd h2 (hfresh r2)
    · rcases update_some_eq h2 with ⟨rfl, rfl⟩ | ⟨-, h2⟩
      · exact absurd hold1 (hfresh r1)
      · exact h.inj hold1 h2
  apart := by
    intro r' y h' hb
    rcases update_some_eq h' with ⟨-, rfl⟩ | ⟨-, h'⟩
    · exact hx (h.mem_iff.mpr (.inl hb))
    · exact h.apart h' hb
  mem_iff := by
    intro y
    rw [List.mem_cons, h.mem_iff]
    constructor
    · rintro (rfl | hb | ⟨r', h'⟩)
      · exact .inr ⟨r, Function.update_self ..⟩
      · exact .inl hb
      · refine .inr ⟨r', ?_⟩
        rw [Function.update_of_ne (by rintro rfl; rw [hr] at h'; cases h')]
        exact h'
    · rintro (hb | ⟨r', h'⟩)
      · exact .inr (.inl hb)
      · rcases update_some_eq h' with ⟨-, rfl⟩ | ⟨-, h'⟩
        · exact .inl rfl
        · exact .inr (.inr ⟨r', h'⟩)

/-- The resource of a role goes back to the pool. -/
theorem release [DecidableEq α] (h : Owned held base role) {r : ι} {x : α}
    (hr : role r = some x) : Owned (held.erase x) base (Function.update role r none) where
  nodup := h.nodup.erase x
  inj := by
    intro r1 r2 y h1 h2
    exact h.inj (update_none_eq h1).2 (update_none_eq h2).2
  apart h' := h.apart (update_none_eq h').2
  mem_iff := by
    intro y
    rw [h.nodup.mem_erase_iff, h.mem_iff]
    constructor
    · rintro ⟨hne, hb | ⟨r', h'⟩⟩
      · exact .inl hb
      · refine .inr ⟨r', ?_⟩
        rw [Function.update_of_ne (by rintro rfl; exact hne (Option.some.inj (h'.symm.trans hr)))]
        exact h'
    · rintro (hb | ⟨r', h'⟩)
      · refine ⟨?_, .inl hb⟩
        rintro rfl
        exact h.apart hr hb
      · obtain ⟨hr', h'⟩ := update_none_eq h'
        refine ⟨?_, .inr ⟨r', h'⟩⟩
        rintro rfl
        exact hr' (h.inj h' hr)

end Owned

/-! ### Coming answers -/

/-- The next `n` answers are good resources that are not held when their turn comes. -/
def Stocked (good : α → Prop) : List α → Nat → List (Option α) → Prop
  | _, 0, _ => True
  | held, n + 1, some x :: rest => good x ∧ x ∉ held ∧ Stocked good (x :: held) n rest
  | _, _ + 1, _ => False

instance Stocked.decide [DecidableEq α] (good : α → Prop) [DecidablePred good] :
    (held : List α) → (n : Nat) → (answers : List (Option α)) →
      Decidable (Stocked good held n answers)
  | _, 0, [] => .isTrue trivial
  | _, 0, _ :: _ => .isTrue trivial
  | held, n + 1, some x :: rest =>
    have := Stocked.decide good (x :: held) n rest
    inferInstanceAs (Decidable (good x ∧ x ∉ held ∧ Stocked good (x :: held) n rest))
  | _, _ + 1, [] => .isFalse id
  | _, _ + 1, none :: _ => .isFalse id

section Stock

variable {good : α → Prop}

@[simp] theorem stocked_zero (held : List α) (answers : List (Option α)) :
    Stocked good held 0 answers := by
  cases answers <;> exact trivial

/-- An answer that can be handed out is handed out. -/
theorem stocked_take (good : α → Prop) {x : α} (hgood : good x) (hx : x ∉ held) (n : Nat)
    (rest : List (Option α)) :
    Stocked good held (n + 1) (some x :: rest) ↔ Stocked good (x :: held) n rest :=
  ⟨fun h => h.2.2, fun h => ⟨hgood, hx, h⟩⟩

theorem Stocked.mono {m n : Nat} (hmn : m ≤ n) {answers : List (Option α)}
    (h : Stocked good held n answers) : Stocked good held m answers := by
  induction m generalizing n held answers with
  | zero => exact stocked_zero _ _
  | succ m ih =>
    obtain ⟨n, rfl⟩ : ∃ k, n = k + 1 := ⟨n - 1, by omega⟩
    match answers, h with
    | some x :: rest, h => exact ⟨h.1, h.2.1, ih (Nat.le_of_succ_le_succ hmn) h.2.2⟩

end Stock

end AimKernel
