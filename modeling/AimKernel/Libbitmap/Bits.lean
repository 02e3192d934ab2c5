import AimKernel.Lib.Bitmap
import AimKernel.Mm.Types

/-!
# AimKernel.Libbitmap.Bits

The first clear bit of a bitmap, and setting and clearing one bit.

* Positions in the bitmap count from one, so that a search can answer zero for "none": `ffz` gives
  one more than the index of the lowest clear bit, and `atomic_set_bit` and `atomic_clear_bit` begin
  with a decrement.
* The decrement is unsigned. For the position zero it is the last of `2 ^ 32`, which belongs to a
  word far behind the bitmap. `bitAt` is a bit by its position in all of memory as seen from the
  bitmap on; different positions are different bits (`bitAt_atomicSetBit`).
-/

namespace AimKernel.Libbitmap

/-- Words by address. -/
abbrev Memory := Nat → BitVec 32

/-! ### Bit operations -/

/-- `BITS_TO_LONGS`. It divides by the bytes of a word, not by its bits. -/
def bitsToLongs (n : Nat) : Nat := (n + 4 - 1) / 4

/-- `__flz`, by `clo`. -/
def flz (x : BitVec 32) : Nat := 32 - (~~~x).clz.toNat

/-- `__ffz`. -/
def ffz (x : BitVec 32) : Nat := flz (~~~(~~~x &&& -~~~x))

/-- `bitmap_find_first_zero_bit`, from the word at `p` on. -/
def findFirstZeroBitLoop (mem : Memory) (p result size : Nat) : Nat :=
  -- size & ~(BITS_PER_LONG - 1)
  if 32 ≤ size then
    let tmp := mem (u32 p)
    if ~~~tmp ≠ 0#32 then result + ffz tmp
    else findFirstZeroBitLoop mem (p + 4) (result + 32) (size - 32)
  else if size = 0 then 0
  else
    let tmp := mem (u32 p) ||| (BitVec.allOnes 32 <<< size)
    if tmp = BitVec.allOnes 32 then 0 else result + ffz tmp
termination_by size

/-- `bitmap_find_first_zero_bit`. -/
def bitmapFindFirstZeroBit (mem : Memory) (addr size : Nat) : Nat :=
  findFirstZeroBitLoop mem addr 0 size

/-- The word that `atomic_set_bit` and `atomic_clear_bit` access. -/
def bitWord (nr : BitVec 32) (addr : Nat) : Nat := u32 (addr + 4 * ((nr - 1#32) >>> 5).toNat)

/-- `1UL << bit`, after the decrement. -/
def bitMask (nr : BitVec 32) : BitVec 32 := 1#32 <<< ((nr - 1#32) &&& 31#32).toNat

/-- `atomic_set_bit`. -/
def atomicSetBit (nr : BitVec 32) (addr : Nat) (mem : Memory) : Memory :=
  Function.update mem (bitWord nr addr) (mem (bitWord nr addr) ||| bitMask nr)

/-- `atomic_clear_bit`. -/
def atomicClearBit (nr : BitVec 32) (addr : Nat) (mem : Memory) : Memory :=
  Function.update mem (bitWord nr addr) (mem (bitWord nr addr) &&& ~~~(bitMask nr))

/-! ### Operations on positions -/

/-- The bit at a position. -/
def bitAt (mem : Memory) (addr i : Nat) : Bool := (mem (u32 (addr + 4 * (i / 32)))).getLsbD (i % 32)

variable {x : BitVec 32} {i k : Nat}

theorem not_eq_zero_iff : ~~~x = 0#32 ↔ x = BitVec.allOnes 32 := by
  rw [← BitVec.not_allOnes, BitVec.not_inj]

/-- `ffz` is one more than the index of the lowest clear bit. -/
theorem ffz_eq (hk : k < 32) (hclear : x.getLsbD k = false) (hlow : ∀ j < k, x.getLsbD j = true)
    : ffz x = k + 1 := by
  have hnot : (~~~x).getLsbD k = true := by
    rw [BitVec.getLsbD_not, hclear, decide_eq_true hk]
    rfl
  have hnotLow : ∀ j < k, (~~~x).getLsbD j = false := by
    intro j hj
    rw [BitVec.getLsbD_not, hlow j hj, Bool.not_true, Bool.and_false]
  rw [ffz, flz, BitVec.not_not, and_neg_eq_twoPow hnot hnotLow, clz_twoPow hk]
  omega

/-- The lowest clear bit of a word that has one. -/
theorem exists_lowest_clear (h : ~~~x ≠ 0#32) :
    ∃ k < 32, x.getLsbD k = false ∧ ∀ j < k, x.getLsbD j = true := by
  have hset := BitVec.getLsbD_true_ctz_of_ne_zero h
  have hlt := BitVec.lt_of_getLsbD hset
  refine ⟨(~~~x).ctz.toNat, hlt, ?_, fun j hj => ?_⟩
  · rw [BitVec.getLsbD_not, decide_eq_true hlt, Bool.true_and, Bool.not_eq_true'] at hset
    exact hset
  · have hj32 : j < 32 := Nat.lt_trans hj hlt
    have hclear := BitVec.getLsbD_false_of_lt_ctz hj
    rw [BitVec.getLsbD_not, decide_eq_true hj32, Bool.true_and, Bool.not_eq_false'] at hclear
    exact hclear

theorem bitAt_word (mem : Memory) (addr n : Nat) (hk : k < 32) :
    bitAt mem addr (32 * n + k) = (mem (u32 (addr + 4 * n))).getLsbD k := by
  have hdiv : (32 * n + k) / 32 = n := by omega
  have hmod : (32 * n + k) % 32 = k := by omega
  rw [bitAt, hdiv, hmod]

/-- One word of the search: a word that agrees with the bitmap up to `hi`, and is all ones from there
on, has its lowest clear bit where the bitmap has. -/
theorem firstClear_word {b : Nat → Bool} {n hi : Nat} (hx : ~~~x ≠ 0#32)
    (hbits : ∀ k < 32, 32 * n + k < hi → b (32 * n + k) = x.getLsbD k)
    (hones : ∀ k < 32, hi ≤ 32 * n + k → x.getLsbD k = true) :
    FirstClear b (32 * n) hi (32 * n + ffz x) := by
  obtain ⟨k, hk, hclear, hlow⟩ := exists_lowest_clear hx
  have hkhi : 32 * n + k < hi := by
    by_contra hge
    rw [hones k hk (Nat.le_of_not_lt hge)] at hclear
    cases hclear
  refine .inr ⟨32 * n + k, Nat.le_add_right _ _, hkhi, ?_, fun j hj hjk => ?_, ?_⟩
  · rw [hbits k hk hkhi]
    exact hclear
  · obtain ⟨d, rfl⟩ := Nat.exists_eq_add_of_le hj
    rw [hbits d (by omega) (by omega)]
    exact hlow d (by omega)
  · rw [ffz_eq hk hclear hlow, Nat.add_assoc]

/-- The last word, with ones in place of the bits behind the bitmap. -/
theorem getLsbD_tail (x : BitVec 32) {size : Nat} (hk : k < 32) :
    (x ||| (BitVec.allOnes 32 <<< size)).getLsbD k = if k < size then x.getLsbD k else true := by
  rw [BitVec.getLsbD_or, BitVec.getLsbD_shiftLeft, BitVec.getLsbD_allOnes]
  by_cases hlt : k < size
  · simp [hlt]
  · have hsub : k - size < 32 := by omega
    simp [hlt, hk, hsub]

/-- The last word, where the search ends. -/
theorem firstClear_last {b : Nat → Bool} {n size : Nat} (hsize : size < 32)
    (hb : ∀ k < 32, b (32 * n + k) = x.getLsbD k) :
    FirstClear b (32 * n) (32 * n + size) (if x ||| (BitVec.allOnes 32 <<< size) = BitVec.allOnes 32
      then 0 else 32 * n + ffz (x ||| (BitVec.allOnes 32 <<< size))) := by
  have hbits : ∀ k < 32, 32 * n + k < 32 * n + size → b (32 * n + k) =
      (x ||| (BitVec.allOnes 32 <<< size)).getLsbD k := by
    intro k hk hlt
    rw [getLsbD_tail _ hk, if_pos (Nat.lt_of_add_lt_add_left hlt), hb k hk]
  split
  · rename_i hall
    refine .inl ⟨fun i hlo hi => ?_, rfl⟩
    obtain ⟨k, rfl⟩ := Nat.exists_eq_add_of_le hlo
    have hk : k < 32 := by omega
    rw [hbits k hk hi, hall, BitVec.getLsbD_allOnes, decide_eq_true hk]
  · rename_i hall
    refine firstClear_word (fun hnot => hall (not_eq_zero_iff.mp hnot)) hbits ?_
    intro k hk hge
    rw [getLsbD_tail _ hk, if_neg (by omega)]

/-- A word that is searched whole; without a clear bit it is skipped. -/
theorem firstClear_whole {b : Nat → Bool} {n hi rest : Nat} (hhi : 32 * n + 32 ≤ hi)
    (hb : ∀ k < 32, b (32 * n + k) = x.getLsbD k) (hrest : FirstClear b (32 * (n + 1)) hi rest) :
    FirstClear b (32 * n) hi (if ~~~x ≠ 0#32 then 32 * n + ffz x else rest) := by
  split
  · rename_i hx
    exact firstClear_word hx (fun k hk _ => hb k hk) fun k hk hge => by omega
  · rename_i hx
    refine hrest.skip (Nat.le_add_right _ 32) fun i hlo hi => ?_
    obtain ⟨k, rfl⟩ := Nat.exists_eq_add_of_le hlo
    have hk : k < 32 := Nat.lt_of_add_lt_add_left hi
    rw [hb k hk, not_eq_zero_iff.mp (not_not.mp hx), BitVec.getLsbD_allOnes, decide_eq_true hk]

/-- **The loop**, from the `n`-th word on. -/
theorem findFirstZeroBitLoop_spec (mem : Memory) (addr n size : Nat) :
    FirstClear (bitAt mem addr) (32 * n) (32 * n + size)
      (findFirstZeroBitLoop mem (addr + 4 * n) (32 * n) size) := by
  induction size using Nat.strong_induction_on generalizing n with
  | _ size ih =>
    have hword := fun k => @bitAt_word k mem addr n
    rw [findFirstZeroBitLoop]
    by_cases hsize : 32 ≤ size
    · have hrest := ih (size - 32) (by omega) (n + 1)
      rw [show 32 * (n + 1) + (size - 32) = 32 * n + size by omega] at hrest
      rw [if_pos hsize]
      exact firstClear_whole (by omega) hword hrest
    · rw [if_neg hsize]
      by_cases hzero : size = 0
      · rw [if_pos hzero]
        exact .inl ⟨fun i hlo hi => by omega, rfl⟩
      · rw [if_neg hzero]
        exact firstClear_last (by omega) hword

/-- **`bitmap_find_first_zero_bit`.** -/
theorem bitmapFindFirstZeroBit_spec (mem : Memory) (addr size : Nat) :
    FirstClear (bitAt mem addr) 0 size (bitmapFindFirstZeroBit mem addr size) := by
  have hspec := findFirstZeroBitLoop_spec mem addr 0 size
  rwa [Nat.mul_zero, Nat.zero_add] at hspec

theorem bitWord_eq (nr : BitVec 32) (addr : Nat) :
    bitWord nr addr = u32 (addr + 4 * ((nr - 1#32).toNat / 32)) := by
  rw [bitWord, BitVec.toNat_ushiftRight, Nat.shiftRight_eq_div_pow]

theorem bitMask_eq (nr : BitVec 32) : bitMask nr = BitVec.twoPow 32 ((nr - 1#32).toNat % 32) := by
  have hmod : ((nr - 1#32) &&& 31#32).toNat = (nr - 1#32).toNat % 32 := by
    exact Nat.and_two_pow_sub_one_eq_mod _ 5
  rw [bitMask, hmod, BitVec.twoPow_eq]

/-- Different positions of one word have different indices, and different words different addresses. -/
theorem u32_word_inj {addr j : Nat} (hi : i < 2 ^ 32) (hj : j < 2 ^ 32)
    (h : u32 (addr + 4 * (i / 32)) = u32 (addr + 4 * (j / 32))) : i / 32 = j / 32 := by
  unfold u32 at h
  omega

/-- A bit after a change to the word that `nr` is in. -/
theorem bitAt_update (nr : BitVec 32) (addr : Nat) (mem : Memory) (f : BitVec 32 → BitVec 32)
    (hi : i < 2 ^ 32) :
    bitAt (Function.update mem (bitWord nr addr) (f (mem (bitWord nr addr)))) addr i =
      if i / 32 = (nr - 1#32).toNat / 32 then (f (mem (u32 (addr + 4 * (i / 32))))).getLsbD (i % 32)
      else bitAt mem addr i := by
  have hn : (nr - 1#32).toNat < 2 ^ 32 := (nr - 1#32).isLt
  rw [bitAt, bitWord_eq]
  by_cases hword : i / 32 = (nr - 1#32).toNat / 32
  · rw [if_pos hword, hword, Function.update_self]
  · have haddr : u32 (addr + 4 * (i / 32)) ≠ u32 (addr + 4 * ((nr - 1#32).toNat / 32)) :=
      fun h => hword (u32_word_inj hi hn h)
    rw [if_neg hword, Function.update_of_ne haddr, bitAt]

/-- In the word that `nr` is in, the mask has the bit of `nr`. -/
theorem getLsbD_bitMask (nr : BitVec 32) (hword : i / 32 = (nr - 1#32).toNat / 32) :
    (bitMask nr).getLsbD (i % 32) = decide (i = (nr - 1#32).toNat) := by
  have hlt : (nr - 1#32).toNat % 32 < 32 := Nat.mod_lt _ (by decide)
  have hiff : (nr - 1#32).toNat % 32 = i % 32 ↔ i = (nr - 1#32).toNat := by omega
  rw [bitMask_eq, BitVec.getLsbD_twoPow, decide_eq_true hlt, Bool.true_and, decide_eq_decide.mpr hiff]

/-- **`atomic_set_bit`** sets the bit at the decremented number, and no other. -/
theorem bitAt_atomicSetBit (nr : BitVec 32) (addr : Nat) (mem : Memory) (hi : i < 2 ^ 32) :
    bitAt (atomicSetBit nr addr mem) addr i =
      (decide (i = (nr - 1#32).toNat) || bitAt mem addr i) := by
  refine (bitAt_update nr addr mem (· ||| bitMask nr) hi).trans ?_
  by_cases hword : i / 32 = (nr - 1#32).toNat / 32
  · rw [if_pos hword, BitVec.getLsbD_or, getLsbD_bitMask nr hword, Bool.or_comm, bitAt]
  · have hne : i ≠ (nr - 1#32).toNat := fun h => hword (by rw [h])
    rw [if_neg hword, decide_eq_false hne, Bool.false_or]

/-- **`atomic_clear_bit`** clears the bit at the decremented number, and no other. -/
theorem bitAt_atomicClearBit (nr : BitVec 32) (addr : Nat) (mem : Memory) (hi : i < 2 ^ 32)
    : bitAt (atomicClearBit nr addr mem) addr i =
      (!decide (i = (nr - 1#32).toNat) && bitAt mem addr i) := by
  refine (bitAt_update nr addr mem (· &&& ~~~bitMask nr) hi).trans ?_
  by_cases hword : i / 32 = (nr - 1#32).toNat / 32
  · have hi32 : i % 32 < 32 := Nat.mod_lt _ (by decide)
    rw [if_pos hword, BitVec.getLsbD_and, BitVec.getLsbD_not, decide_eq_true hi32, Bool.true_and,
      getLsbD_bitMask nr hword, Bool.and_comm, bitAt]
  · have hne : i ≠ (nr - 1#32).toNat := fun h => hword (by rw [h])
    rw [if_neg hword, decide_eq_false hne, Bool.not_false, Bool.true_and]

end AimKernel.Libbitmap
