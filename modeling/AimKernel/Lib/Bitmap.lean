import Mathlib.Data.Finset.Card
import Mathlib.Data.Finset.Range
import Mathlib.Order.Interval.Finset.Nat

/-!
# AimKernel.Lib.Bitmap

Bit vectors as sets of positions.

`ones v` is the set of positions whose bit is set. Toggling a bit inserts or
erases its position, and a bitmap whose set bits all lie on multiples of a stride
has a clear bit on such a multiple as long as they are not all taken
(`exists_clear_multiple`).

`x &&& -x` is the lowest set bit of a word, and `FirstClear` says what a search for
the first clear bit of a range is to answer.
-/

namespace AimKernel

variable {w : Nat}

/-- The positions of the set bits. -/
def ones (v : BitVec w) : Finset Nat := (Finset.range w).filter fun i => v.getLsbD i

variable {i k : Nat}

@[simp] theorem mem_ones {v : BitVec w} : i ∈ ones v ↔ v.getLsbD i = true := by
  simp only [ones, Finset.mem_filter, Finset.mem_range, and_iff_right_iff_imp]
  exact BitVec.lt_of_getLsbD

theorem lt_of_mem_ones {v : BitVec w} (h : i ∈ ones v) : i < w :=
  BitVec.lt_of_getLsbD (mem_ones.mp h)

@[simp] theorem ones_zero : ones (0#w) = ∅ := by
  ext i
  simp

theorem ones_toggle_clear {v : BitVec w} (hi : i < w) (h : i ∉ ones v) :
    ones (v ^^^ BitVec.twoPow w i) = insert i (ones v) := by
  ext j
  by_cases hj : j = i
  · subst hj
    simpa [hi] using h
  · simp [hj, Ne.symm hj]

theorem ones_toggle_set {v : BitVec w} (h : i ∈ ones v) :
    ones (v ^^^ BitVec.twoPow w i) = (ones v).erase i := by
  have hi := lt_of_mem_ones h
  ext j
  rw [mem_ones] at h
  by_cases hj : j = i
  · subst hj
    simp [hi, h]
  · simp [hj, Ne.symm hj]

/-- **Room on the grid.** If the set bits lie on multiples of `k` and there are
fewer of them than such multiples, one of the multiples is clear. -/
theorem exists_clear_multiple {v : BitVec w} (hk : 0 < k) (hcard : (ones v).card < w / k)
    : ∃ i, k ∣ i ∧ i < w ∧ i ∉ ones v := by
  by_contra hnone
  have hsub : (Finset.range (w / k)).image (k * ·) ⊆ ones v := by
    intro i hi
    obtain ⟨j, hj, rfl⟩ := Finset.mem_image.mp hi
    by_contra hclear
    refine hnone ⟨k * j, Dvd.intro j rfl, ?_, hclear⟩
    calc k * j < k * (w / k) := Nat.mul_lt_mul_of_pos_left (Finset.mem_range.mp hj) hk
      _ ≤ w := Nat.mul_div_le w k
  have hle := Finset.card_le_card hsub
  rw [Finset.card_image_of_injective _ (fun a b h => Nat.eq_of_mul_eq_mul_left hk h),
    Finset.card_range] at hle
  omega

/-! ### The lowest set bit of a word -/

theorem getLsbD_and_neg (x : BitVec w) (i : Nat) : (x &&& -x).getLsbD i = true ↔
    x.getLsbD i = true ∧ ∀ j < i, x.getLsbD j = false := by
  rw [BitVec.getLsbD_and, Bool.and_eq_true, BitVec.getLsbD_neg]
  refine and_congr_right fun hi => ?_
  have hlt := BitVec.lt_of_getLsbD hi
  rw [hi]
  simp [hlt]

theorem and_neg_eq_twoPow {x : BitVec w} (hk : x.getLsbD k = true)
    (hlow : ∀ j < k, x.getLsbD j = false) : x &&& -x = BitVec.twoPow w k := by
  have hlt := BitVec.lt_of_getLsbD hk
  refine BitVec.eq_of_getLsbD_eq fun i hi => ?_
  rw [Bool.eq_iff_iff, getLsbD_and_neg, BitVec.getLsbD_twoPow]
  simp only [hlt, decide_true, Bool.true_and, decide_eq_true_eq]
  constructor
  · rintro ⟨hset, hbelow⟩
    by_contra hne
    rcases Nat.lt_or_gt_of_ne hne with h | h
    · simp [hbelow k h] at hk
    · simp [hlow i h] at hset
  · rintro rfl
    exact ⟨hk, hlow⟩

theorem clz_twoPow (hk : k < w) : (BitVec.twoPow w k).clz.toNat = w - 1 - k := by
  have hne : BitVec.twoPow w k ≠ 0#w := by
    intro hzero
    have hbit := BitVec.getLsbD_twoPow (w := w) k k
    simp [hzero, hk] at hbit
  have hset := BitVec.getLsbD_true_clz_of_ne_zero (Nat.zero_lt_of_lt hk) hne
  have hlt := BitVec.clz_lt_iff_ne_zero.mpr hne
  rw [BitVec.getLsbD_twoPow] at hset
  simp only [hk, decide_true, Bool.true_and, decide_eq_true_eq] at hset
  have hle : (BitVec.twoPow w k).clz.toNat ≤ w - 1 := by
    have := BitVec.lt_def.mp hlt
    have hmod : ((w : BitVec w)).toNat ≤ w := by
      exact Nat.mod_le _ _
    omega
  omega

/-! ### Searching for a clear bit -/

/-- The answer to a search for the first clear bit of the positions from `lo` on and below `hi`:
zero if there is none, and one more than its position otherwise. -/
def FirstClear (b : Nat → Bool) (lo hi r : Nat) : Prop :=
  (∀ i, lo ≤ i → i < hi → b i = true) ∧ r = 0 ∨
    ∃ i, lo ≤ i ∧ i < hi ∧ b i = false ∧ (∀ j, lo ≤ j → j < i → b j = true) ∧ r = i + 1

variable {b : Nat → Bool} {lo mid hi r r' : Nat}

theorem FirstClear.skip (h : FirstClear b mid hi r) (hle : lo ≤ mid)
    (hset : ∀ i, lo ≤ i → i < mid → b i = true) : FirstClear b lo hi r := by
  have hbelow : ∀ i, (∀ j, mid ≤ j → j < i → b j = true) → ∀ j, lo ≤ j → j < i → b j = true := by
    intro i hi j hlo hj
    rcases Nat.lt_or_ge j mid with hjm | hjm
    · exact hset j hlo hjm
    · exact hi j hjm hj
  rcases h with ⟨hall, rfl⟩ | ⟨i, hmid, hhi, hclear, hfirst, rfl⟩
  · exact .inl ⟨hbelow hi hall, rfl⟩
  · exact .inr ⟨i, Nat.le_trans hle hmid, hhi, hclear, hbelow i hfirst, rfl⟩

theorem FirstClear.drop (h : FirstClear b lo hi r) (hle : lo ≤ mid)
    (hset : ∀ i, lo ≤ i → i < mid → b i = true) : FirstClear b mid hi r := by
  rcases h with ⟨hall, rfl⟩ | ⟨i, hlo, hhi, hclear, hfirst, rfl⟩
  · exact .inl ⟨fun i hi => hall i (Nat.le_trans hle hi), rfl⟩
  · have hmid : mid ≤ i := by
      by_contra hlt
      simp [hset i hlo (Nat.lt_of_not_le hlt)] at hclear
    exact .inr ⟨i, hmid, hhi, hclear, fun j hj => hfirst j (Nat.le_trans hle hj), rfl⟩

theorem FirstClear.congr {b' : Nat → Bool} (h : FirstClear b lo hi r)
    (hb : ∀ i, lo ≤ i → b' i = b i) : FirstClear b' lo hi r := by
  rcases h with ⟨hall, rfl⟩ | ⟨i, hlo, hhi, hclear, hfirst, rfl⟩
  · exact .inl ⟨fun i hi hlt => (hb i hi).trans (hall i hi hlt), rfl⟩
  · exact .inr ⟨i, hlo, hhi, (hb i hlo).trans hclear,
      fun j hj hji => (hb j hj).trans (hfirst j hj hji), rfl⟩

theorem FirstClear.unique (h : FirstClear b lo hi r) (h' : FirstClear b lo hi r') : r = r' := by
  rcases h with ⟨hall, rfl⟩ | ⟨i, hlo, hhi, hclear, hfirst, rfl⟩
  · rcases h' with ⟨-, rfl⟩ | ⟨j, hlo', hhi', hclear', -, rfl⟩
    · rfl
    · simp [hall j hlo' hhi'] at hclear'
  · rcases h' with ⟨hall', rfl⟩ | ⟨j, hlo', hhi', hclear', hfirst', rfl⟩
    · simp [hall' i hlo hhi] at hclear
    · rcases Nat.lt_trichotomy i j with hij | rfl | hij
      · simp [hfirst' i hlo hij] at hclear
      · rfl
      · simp [hfirst j hlo' hij] at hclear'

/-- The positions counted from one: the answer is the least whose bit is clear. -/
theorem FirstClear.isLeast (h : FirstClear b 0 hi r)
    (hex : ∃ i < hi, b i = false) : IsLeast {k | 1 ≤ k ∧ k ≤ hi ∧ b (k - 1) = false} r := by
  rcases h with ⟨hall, -⟩ | ⟨i, -, hi, hclear, hfirst, rfl⟩
  · obtain ⟨i, hi, hclear⟩ := hex
    simp [hall i (Nat.zero_le i) hi] at hclear
  · refine ⟨⟨Nat.le_add_left 1 i, hi, hclear⟩, ?_⟩
    rintro k ⟨hk, -, hkclear⟩
    by_contra hlt
    simp [hfirst (k - 1) (Nat.zero_le _) (by omega)] at hkclear

end AimKernel
