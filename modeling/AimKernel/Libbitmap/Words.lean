import AimKernel.Libbitmap.Bits

/-!
# AimKernel.Libbitmap.Words

The operations of `libbitmap` that work on whole words, and the test of one bit.

* `BITS_TO_LONGS` divides by the bytes of a word in place of its bits, so that every loop runs over
  eight times the words that hold the bitmap. The last of them is the one whose spare bits are
  masked. `maskedEnd` is where that mask ends: it is the end of the bitmap only up to four bits.
* A shift is described bit by bit (`bit_bitmapShiftLeft`, `bit_bitmapShiftRight`), and the returned
  flags by the bits that make them true.
* `bitmap_test_bit` takes its word from the number of a bit and `atomic_set_bit` from the position,
  which is one less. The two differ where a word ends.

Source and destination are different bitmaps here.
-/

namespace AimKernel.Libbitmap

open Function (update)

/-! ### The test of a bit -/

/-- `bitmap_test_bit`. -/
def bitmapTestBit (nr addr : Nat) (mem : Memory) : BitVec 32 :=
  1#32 &&& (mem (u32 (addr + 4 * (nr / 32))) >>> ((nr - 1) % 32))

/-- The position that `bitmap_test_bit` looks at. -/
def testedPos (nr : Nat) : Nat := 32 * (nr / 32) + (nr - 1) % 32

theorem bitmapTestBit_eq (nr addr : Nat) (mem : Memory) :
    bitmapTestBit nr addr mem = if bitAt mem addr (testedPos nr) then 1#32 else 0#32 := by
  have hoff := Nat.mod_lt (nr - 1) (show 0 < 32 by decide)
  have hword : testedPos nr / 32 = nr / 32 := by unfold testedPos; omega
  have hbit : testedPos nr % 32 = (nr - 1) % 32 := by unfold testedPos; omega
  refine BitVec.eq_of_getLsbD_eq fun k hk => ?_
  rw [bitmapTestBit, bitAt, hword, hbit, BitVec.getLsbD_and, BitVec.getLsbD_ushiftRight]
  rcases Nat.eq_zero_or_pos k with rfl | hpos
  · split <;> simp_all
  · have hone : (1#32).getLsbD k = false := by simp [BitVec.getLsbD_one]; omega
    split <;> simp [hone]

/-- **Testing against setting and clearing.** In a bitmap of any length, the test answers to the
setting and clearing of a bit, and to no other, exactly for the numbers that no word ends at. -/
theorem bitmapTestBit_agrees_iff (mem : Memory) (addr : Nat) {nbits i : Nat}
    (hbits : nbits < 2 ^ 31) (hpos : 0 < i) (hi : i ≤ nbits) :
    (bitmapTestBit i addr (atomicSetBit (.ofNat 32 i) addr mem) = 1#32 ∧
        bitmapTestBit i addr (atomicClearBit (.ofNat 32 i) addr mem) = 0#32 ∧
        ∀ j, 0 < j → j ≤ nbits → j ≠ i →
          bitmapTestBit j addr (atomicSetBit (.ofNat 32 i) addr mem) = bitmapTestBit j addr mem ∧
          bitmapTestBit j addr (atomicClearBit (.ofNat 32 i) addr mem) = bitmapTestBit j addr mem) ↔
      i % 32 ≠ 0 := by
  have hdec : (BitVec.ofNat 32 i - 1#32).toNat = i - 1 := by
    rw [BitVec.toNat_sub_of_le (by rw [BitVec.le_def]; simp; omega)]
    simp
    omega
  have hset : ∀ j ≤ nbits, bitAt (atomicSetBit (.ofNat 32 i) addr mem) addr (testedPos j) =
      (decide (testedPos j = i - 1) || bitAt mem addr (testedPos j)) := by
    intro j hj
    rw [bitAt_atomicSetBit _ _ _ (by unfold testedPos; omega), hdec]
  have hclear : ∀ j ≤ nbits, bitAt (atomicClearBit (.ofNat 32 i) addr mem) addr (testedPos j) =
      (!decide (testedPos j = i - 1) && bitAt mem addr (testedPos j)) := by
    intro j hj
    rw [bitAt_atomicClearBit _ _ _ (by unfold testedPos; omega), hdec]
  simp only [bitmapTestBit_eq]
  constructor
  · rintro ⟨hone, hzero, -⟩ hend
    -- the bit of the next word is the same after both
    have hne : testedPos i ≠ i - 1 := by unfold testedPos; omega
    rw [hset i hi] at hone
    rw [hclear i hi] at hzero
    simp_all
  · intro hmid
    have heq : testedPos i = i - 1 := by unfold testedPos; omega
    refine ⟨by rw [hset i hi]; simp [heq], by rw [hclear i hi]; simp [heq], fun j hj hjn hji => ?_⟩
    have hne : testedPos j ≠ i - 1 := by unfold testedPos; omega
    simp [hset j hjn, hclear j hjn, hne]

theorem bitmapTestBit_agrees_first : bitmapTestBit 1 0 (atomicSetBit 1#32 0 fun _ => 0#32) = 1#32 :=
  ((bitmapTestBit_agrees_iff (fun _ => 0#32) 0 (show 64 < 2 ^ 31 by decide) (show 0 < 1 by decide)
    (by decide)).mpr (by decide)).1

/-- The last bit of the first of two words. -/
theorem bitmapTestBit_word_end :
    bitmapTestBit 32 0 (atomicSetBit 32#32 0 fun _ => 0#32) = 0#32 ∧
      bitmapTestBit 32 0 (atomicClearBit 32#32 0 fun _ => 0xffffffff#32) = 1#32 := by
  decide

/-! ### Operations on words -/

/-- The words of a bitmap, by index. -/
abbrev Words := Nat → BitVec 32

def bit (a : Words) (i : Nat) : Bool := (a (i / 32)).getLsbD (i % 32)

/-- The loop of `__bitmap_and` and `__bitmap_andnot`. -/
def bitwiseLoop (op : BitVec 32 → BitVec 32 → BitVec 32) (bitmap1 bitmap2 : Words) :
    Nat → Words → BitVec 32 × Words
  | 0, dst => (0#32, dst)
  | k + 1, dst =>
    let (result, dst) := bitwiseLoop op bitmap1 bitmap2 k dst
    (result ||| op (bitmap1 k) (bitmap2 k), update dst k (op (bitmap1 k) (bitmap2 k)))

def bitwise (op : BitVec 32 → BitVec 32 → BitVec 32) (dst bitmap1 bitmap2 : Words) (bits : Nat) :
    Bool × Words :=
  let (result, dst) := bitwiseLoop op bitmap1 bitmap2 (bitsToLongs bits) dst
  (decide (result ≠ 0#32), dst)

/-- `__bitmap_and`. -/
def bitmapAnd := bitwise fun x y => x &&& y

/-- `__bitmap_andnot`. -/
def bitmapAndnot := bitwise fun x y => x &&& ~~~y

/-- `(1UL << left) - 1`. -/
def leftMask (left : Nat) : BitVec 32 := (1#32 <<< left) - 1#32

/-- `__bitmap_intersects`. -/
def bitmapIntersects (bitmap1 bitmap2 : Words) (bits : Nat) : Bool :=
  let lim := bits / 32
  (List.range lim).any (fun k => decide (bitmap1 k &&& bitmap2 k ≠ 0#32)) ||
    decide (bits % 32 ≠ 0 ∧ bitmap1 lim &&& bitmap2 lim &&& leftMask (bits % 32) ≠ 0#32)

/-- Word `j` of `src` as the shifts read and write it: without the spare bits of the last word. -/
def masked (left lim j : Nat) (word : BitVec 32) : BitVec 32 :=
  if left ≠ 0 ∧ j = lim - 1 then word &&& leftMask left else word

/-- What `__bitmap_shift_right` stores into word `k`. -/
def shiftRightWord (src : Words) (lim left off rem k : Nat) : BitVec 32 :=
  let upper := if rem = 0 ∨ lim ≤ off + k + 1 then 0#32
    else masked left lim (off + k + 1) (src (off + k + 1))
  let lower := masked left lim (off + k) (src (off + k))
  masked left lim k (upper <<< (32 - rem) ||| lower >>> rem)

/-- `__bitmap_shift_right`. -/
def bitmapShiftRight (dst src : Words) (shift bits : Nat) : Words :=
  let lim := bitsToLongs bits
  let off := shift / 32
  let word := shiftRightWord src lim (bits % 32) off (shift % 32)
  let dst := (List.range (lim - off)).foldl (fun dst k => update dst k (word k)) dst
  -- memset(&dst[lim - off], 0, ..)
  fun k => if lim - off ≤ k ∧ k < lim - off + off then 0#32 else dst k

/-- What `__bitmap_shift_left` stores into word `k + off`. -/
def shiftLeftWord (src : Words) (lim left off rem k : Nat) : BitVec 32 :=
  let lower := if rem ≠ 0 ∧ 0 < k then src (k - 1) else 0#32
  let upper := masked left lim k (src k)
  masked left lim (k + off) (lower >>> (32 - rem) ||| upper <<< rem)

/-- `__bitmap_shift_left`. -/
def bitmapShiftLeft (dst src : Words) (shift bits : Nat) : Words :=
  let lim := bitsToLongs bits
  let off := shift / 32
  let word := shiftLeftWord src lim (bits % 32) off (shift % 32)
  let dst := (List.range (lim - off)).reverse.foldl (fun dst k => update dst (k + off) (word k)) dst
  -- memset(dst, 0, ..)
  fun k => if k < off then 0#32 else dst k

/-! ### Bit by bit -/

variable {a b dst src : Words} {bits i k lim n : Nat} {op : BitVec 32 → BitVec 32 → BitVec 32}

theorem bit_word (a : Words) (hk : k < 32) (n : Nat) : bit a (32 * n + k) = (a n).getLsbD k := by
  rw [bit, show (32 * n + k) / 32 = n by omega, show (32 * n + k) % 32 = k by omega]

/-- A word is not zero if one of its bits is set. -/
theorem ne_zero_iff {x : BitVec 32} : x ≠ 0#32 ↔ ∃ k < 32, x.getLsbD k = true := by
  constructor
  · intro hx
    by_contra hnone
    exact hx (BitVec.eq_of_getLsbD_eq fun k hk => by simpa using fun h => hnone ⟨k, hk, h⟩)
  · rintro ⟨k, -, hset⟩ rfl
    simp at hset

theorem exists_word_iff {p : Nat → Prop} :
    (∃ k < n, ∃ j < 32, p (32 * k + j)) ↔ ∃ i < 32 * n, p i := by
  constructor
  · rintro ⟨k, hk, j, hj, h⟩
    exact ⟨32 * k + j, by omega, h⟩
  · rintro ⟨i, hi, h⟩
    exact ⟨i / 32, by omega, i % 32, by omega, by rwa [Nat.div_add_mod]⟩

theorem getLsbD_leftMask :
    ∀ left < 32, ∀ k < 32, (leftMask left).getLsbD k = decide (k < left) := by
  decide +kernel

/-! ### Flags -/

theorem bitwiseLoop_word (op : BitVec 32 → BitVec 32 → BitVec 32) (a b dst : Words) (n k : Nat) :
    (bitwiseLoop op a b n dst).2 k = if k < n then op (a k) (b k) else dst k := by
  induction n with
  | zero => simp [bitwiseLoop]
  | succ n ih =>
    rcases Nat.lt_trichotomy k n with h | rfl | h
    · simp [bitwiseLoop, Function.update_of_ne (Nat.ne_of_lt h), ih, h, Nat.lt_succ_of_lt h]
    · simp [bitwiseLoop]
    · simp [bitwiseLoop, Function.update_of_ne (Nat.ne_of_gt h), ih, show ¬ k < n by omega,
        show ¬ k < n + 1 by omega]

theorem bitwiseLoop_result (op : BitVec 32 → BitVec 32 → BitVec 32) (a b dst : Words) (n : Nat) :
    (bitwiseLoop op a b n dst).1 ≠ 0#32 ↔ ∃ k < n, op (a k) (b k) ≠ 0#32 := by
  induction n with
  | zero => simp [bitwiseLoop]
  | succ n ih =>
    simp only [bitwiseLoop, ne_eq, BitVec.or_eq_zero_iff, Nat.exists_lt_succ_right, not_and_or]
    exact or_congr_left ih

section Bitwise

variable (f : Bool → Bool → Bool)
  (hop : ∀ x y k, k < 32 → (op x y).getLsbD k = f (x.getLsbD k) (y.getLsbD k))
include hop

theorem bit_bitwise (dst a b : Words) (hi : i < bits) :
    bit (bitwise op dst a b bits).2 i = f (bit a i) (bit b i) := by
  have hlim : i / 32 < bitsToLongs bits := by unfold bitsToLongs; omega
  rw [bit, bitwise, bitwiseLoop_word, if_pos hlim, hop _ _ _ (Nat.mod_lt _ (by decide))]
  rfl

theorem bitwise_flag (dst a b : Words) (bits : Nat) : (bitwise op dst a b bits).1 = true ↔
    ∃ i < 32 * bitsToLongs bits, f (bit a i) (bit b i) = true := by
  rw [← exists_word_iff, bitwise, decide_eq_true_iff, bitwiseLoop_result]
  refine exists_congr fun k => and_congr_right fun _ => ne_zero_iff.trans ?_
  refine exists_congr fun j => and_congr_right fun hj => ?_
  rw [hop _ _ _ hj, bit_word a hj, bit_word b hj]

end Bitwise

theorem bitmapIntersects_of_bit (hi : i < bits) (hset : (bit a i && bit b i) = true) :
    bitmapIntersects a b bits = true := by
  have hj : i % 32 < 32 := Nat.mod_lt _ (by decide)
  rw [bit, bit, ← BitVec.getLsbD_and] at hset
  simp only [bitmapIntersects, Bool.or_eq_true, List.any_eq_true, List.mem_range,
    decide_eq_true_iff]
  rcases Nat.lt_or_ge (i / 32) (bits / 32) with hlt | hge
  · exact .inl ⟨i / 32, hlt, ne_zero_iff.mpr ⟨_, hj, hset⟩⟩
  · have hword : i / 32 = bits / 32 := by omega
    refine .inr ⟨by omega, ne_zero_iff.mpr ⟨_, hj, ?_⟩⟩
    rw [BitVec.getLsbD_and, getLsbD_leftMask _ (Nat.mod_lt _ (by decide)) _ hj, ← hword, hset]
    simp
    omega

/-! ### Shifts -/

/-- Where the mask of the last word ends. -/
def maskedEnd (bits : Nat) : Nat :=
  if bits % 32 = 0 then 32 * bitsToLongs bits else 32 * (bitsToLongs bits - 1) + bits % 32

theorem getLsbD_masked {j : Nat} (x : BitVec 32) (hj : j < bitsToLongs bits) (hk : k < 32) :
    (masked (bits % 32) (bitsToLongs bits) j x).getLsbD k =
      (decide (32 * j + k < maskedEnd bits) && x.getLsbD k) := by
  have hleft : bits % 32 < 32 := Nat.mod_lt _ (by decide)
  unfold masked maskedEnd
  split
  · rename_i hlast
    rw [BitVec.getLsbD_and, getLsbD_leftMask _ hleft _ hk, if_neg hlast.1, Bool.and_comm, hlast.2]
    simp
  · rename_i hlast
    rw [decide_eq_true (by split <;> omega), Bool.true_and]

theorem foldl_update (word : Words) (off : Nat) (l : List Nat) (dst : Words) (j : Nat) :
    l.foldl (fun dst k => update dst (k + off) (word k)) dst j =
      if off ≤ j ∧ j - off ∈ l then word (j - off) else dst j := by
  induction l generalizing dst with
  | nil => simp
  | cons k l ih =>
    rw [List.foldl_cons, ih]
    by_cases hj : j = k + off
    · simp [hj]
    · have hmem : off ≤ j ∧ j - off ∈ k :: l ↔ off ≤ j ∧ j - off ∈ l := by
        rw [List.mem_cons]
        exact and_congr_right fun hle => or_iff_right (by omega)
      simp only [Function.update_of_ne hj, hmem]

theorem bit_bitmapShiftRight (dst src : Words) (hn : n < bits) (hi : i < bits) :
    bit (bitmapShiftRight dst src n bits) i =
      (decide (i + n < maskedEnd bits) && bit src (i + n)) := by
  have hend : bits ≤ maskedEnd bits ∧ maskedEnd bits ≤ 32 * bitsToLongs bits := by
    unfold maskedEnd bitsToLongs
    split <;> omega
  obtain ⟨k, o, ho, rfl⟩ : ∃ k o, o < 32 ∧ i = 32 * k + o := ⟨i / 32, i % 32, by omega, by omega⟩
  have hrem : n % 32 < 32 := Nat.mod_lt _ (by decide)
  have hsplit := Nat.div_add_mod n 32
  rw [bit_word _ ho, bitmapShiftRight]
  generalize n / 32 = off at hsplit ⊢
  generalize n % 32 = rem at hsplit hrem ⊢
  by_cases hk : k < bitsToLongs bits - off
  · have hfold := foldl_update (shiftRightWord src (bitsToLongs bits) (bits % 32) off rem) 0
      (List.range (bitsToLongs bits - off)) dst k
    simp only [Nat.add_zero, Nat.sub_zero, Nat.zero_le, true_and, List.mem_range, hk,
      if_true] at hfold
    simp only [hfold, show ¬ bitsToLongs bits - off ≤ k by omega, false_and, if_false]
    rw [shiftRightWord, getLsbD_masked _ (by omega) ho, BitVec.getLsbD_or, BitVec.getLsbD_shiftLeft,
      BitVec.getLsbD_ushiftRight, decide_eq_true (show 32 * k + o < maskedEnd bits by omega)]
    by_cases hcarry : rem + o < 32
    · rw [getLsbD_masked _ (by omega) hcarry, ← bit_word src hcarry,
        show 32 * (off + k) + (rem + o) = 32 * k + o + n by omega]
      simp [show o < 32 - rem by omega]
    · rw [BitVec.getLsbD_of_ge (masked _ _ _ _) _ (by omega)]
      by_cases hlast : bitsToLongs bits ≤ off + k + 1
      · simp [hlast, show ¬ 32 * k + o + n < maskedEnd bits by omega]
      · rw [if_neg (by omega), getLsbD_masked _ (by omega) (by omega), ← bit_word src (by omega),
          show 32 * (off + k + 1) + (o - (32 - rem)) = 32 * k + o + n by omega]
        simp [ho, show ¬ o < 32 - rem by omega]
  · simp only [show bitsToLongs bits - off ≤ k by omega, true_and]
    rw [if_pos (by omega), decide_eq_false (by omega)]
    simp

theorem bit_bitmapShiftLeft (dst src : Words) (n : Nat) (hi : i < 32 * bitsToLongs bits) :
    bit (bitmapShiftLeft dst src n bits) i =
      (decide (n ≤ i ∧ i < maskedEnd bits) && bit src (i - n)) := by
  obtain ⟨j, o, ho, rfl⟩ : ∃ j o, o < 32 ∧ i = 32 * j + o := ⟨i / 32, i % 32, by omega, by omega⟩
  have hrem : n % 32 < 32 := Nat.mod_lt _ (by decide)
  have hsplit := Nat.div_add_mod n 32
  rw [bit_word _ ho, bitmapShiftLeft]
  generalize n / 32 = off at hsplit ⊢
  generalize n % 32 = rem at hsplit hrem ⊢
  by_cases hj : j < off
  · simp [hj, show ¬ n ≤ 32 * j + o by omega]
  obtain ⟨k, rfl⟩ := Nat.exists_eq_add_of_le' (Nat.le_of_not_lt hj)
  have hfold := foldl_update (shiftLeftWord src (bitsToLongs bits) (bits % 32) off rem) off
    (List.range (bitsToLongs bits - off)).reverse dst (k + off)
  simp only [Nat.le_add_left, Nat.add_sub_cancel, true_and, List.mem_reverse, List.mem_range,
    show k < bitsToLongs bits - off by omega, if_true] at hfold
  simp only [hj, if_false, hfold]
  rw [shiftLeftWord, getLsbD_masked _ (by omega) ho, BitVec.getLsbD_or, BitVec.getLsbD_shiftLeft,
    BitVec.getLsbD_ushiftRight]
  by_cases hcarry : o < rem
  · by_cases hk : 0 < k
    · rw [if_pos (by omega), ← bit_word src (by omega),
        show 32 * (k - 1) + (32 - rem + o) = 32 * (k + off) + o - n by omega]
      simp [hcarry, show n ≤ 32 * (k + off) + o by omega]
    · simp [hcarry, hk, show ¬ n ≤ 32 * (k + off) + o by omega]
  · rw [getLsbD_masked _ (by omega) (by omega), ← bit_word src (by omega),
      show 32 * k + (o - rem) = 32 * (k + off) + o - n by omega]
    have hzero : ((if rem ≠ 0 ∧ 0 < k then src (k - 1) else 0#32)).getLsbD (32 - rem + o) = false :=
      BitVec.getLsbD_of_ge _ _ (by omega)
    by_cases hlt : 32 * (k + off) + o < maskedEnd bits
    · have hmask : 32 * (k + off) + o - n < maskedEnd bits := by omega
      simp [hzero, hcarry, ho, hlt, hmask, show n ≤ 32 * (k + off) + o by omega]
    · simp [hlt]

/-! ### The first bits -/

/-- The bitmaps agree on the first `bits` bits. -/
def Agree (bits : Nat) (a a' : Words) : Prop := ∀ i < bits, bit a i = bit a' i

/-- `a` with zeros behind the first `bits` bits. -/
def cut (bits : Nat) (a : Words) : Words := fun k =>
  a k &&& BitVec.allOnes 32 >>> (32 * (k + 1) - bits)

/-- `a` with ones behind the first `bits` bits. -/
def pad (bits : Nat) (a : Words) : Words := fun k =>
  a k ||| ~~~(BitVec.allOnes 32 >>> (32 * (k + 1) - bits))

theorem getLsbD_lowBits (bits i : Nat) :
    (BitVec.allOnes 32 >>> (32 * (i / 32 + 1) - bits)).getLsbD (i % 32) = decide (i < bits) := by
  rw [BitVec.getLsbD_ushiftRight, BitVec.getLsbD_allOnes, decide_eq_decide]
  omega

@[simp] theorem bit_cut (bits : Nat) (a : Words) (i : Nat) :
    bit (cut bits a) i = (bit a i && decide (i < bits)) := by
  rw [bit, cut, BitVec.getLsbD_and, getLsbD_lowBits]
  rfl

@[simp] theorem bit_pad (bits : Nat) (a : Words) (i : Nat) :
    bit (pad bits a) i = (bit a i || !decide (i < bits)) := by
  rw [bit, pad, BitVec.getLsbD_or, BitVec.getLsbD_not, getLsbD_lowBits,
    decide_eq_true (Nat.mod_lt _ (by decide))]
  rfl

theorem agree_cut (bits : Nat) (a : Words) : Agree bits a (cut bits a) := by
  simp +contextual [Agree]

theorem agree_pad (bits : Nat) (a : Words) : Agree bits a (pad bits a) := by
  simp +contextual [Agree]

/-- What the operations are to do with the first `bits` bits of `a` and `b`, whatever is behind
them. -/
structure FirstBits (bits n : Nat) (dst a b : Words) : Prop where
  and : ∀ dst' a' b', Agree bits a a' → Agree bits b b' →
    (bitmapAnd dst a b bits).1 = (bitmapAnd dst' a' b' bits).1 ∧
      Agree bits (bitmapAnd dst a b bits).2 (bitmapAnd dst' a' b' bits).2
  andnot : ∀ dst' a' b', Agree bits a a' → Agree bits b b' →
    (bitmapAndnot dst a b bits).1 = (bitmapAndnot dst' a' b' bits).1 ∧
      Agree bits (bitmapAndnot dst a b bits).2 (bitmapAndnot dst' a' b' bits).2
  shiftLeft : ∀ dst' a', Agree bits a a' →
    Agree bits (bitmapShiftLeft dst a n bits) (bitmapShiftLeft dst' a' n bits)
  shiftRight : ∀ dst' a', Agree bits a a' →
    Agree bits (bitmapShiftRight dst a n bits) (bitmapShiftRight dst' a' n bits)
  intersects : (bitmapAnd dst a b bits).1 = bitmapIntersects a b bits
  lost : ∀ dst', ∀ i < bits, bit (bitmapShiftRight dst' (bitmapShiftLeft dst a n bits) n bits) i =
    (bit a i && decide (i + n < bits))

section Bitwise

variable (f : Bool → Bool → Bool)
  (hop : ∀ x y k, k < 32 → (op x y).getLsbD k = f (x.getLsbD k) (y.getLsbD k))
include hop

/-- A pair of bits within the bitmap decides flag and bits. -/
theorem bitwise_agree (h : ∃ i < bits, f (bit a i) (bit b i) = true) (dst dst' a' b' : Words)
    (ha : Agree bits a a') (hb : Agree bits b b') :
    (bitwise op dst a b bits).1 = true ∧ (bitwise op dst' a' b' bits).1 = true ∧
      Agree bits (bitwise op dst a b bits).2 (bitwise op dst' a' b' bits).2 := by
  obtain ⟨i, hi, hset⟩ := h
  have hlim : i < 32 * bitsToLongs bits := by unfold bitsToLongs; omega
  refine ⟨(bitwise_flag f hop dst a b bits).mpr ⟨i, hlim, hset⟩,
    (bitwise_flag f hop dst' a' b' bits).mpr ⟨i, hlim, ?_⟩, fun j hj => ?_⟩
  · rwa [← ha i hi, ← hb i hi]
  · rw [bit_bitwise f hop _ _ _ hj, bit_bitwise f hop _ _ _ hj, ha j hj, hb j hj]

/-- The flag follows the bits behind the bitmap if there is no such pair. -/
theorem exists_of_flag_agree (hbits : 0 < bits) (dst b' : Words)
    (hzero : f false false = false) (hone : f true (bit b' bits) = true)
    (h : (bitwise op dst (cut bits a) (cut bits b) bits).1 =
      (bitwise op dst (pad bits a) b' bits).1) :
    ∃ i < bits, f (bit a i) (bit b i) = true := by
  have hflag : (bitwise op dst (pad bits a) b' bits).1 = true :=
    (bitwise_flag f hop _ _ _ _).mpr ⟨bits, by unfold bitsToLongs; omega, by simpa using hone⟩
  obtain ⟨i, -, hset⟩ := (bitwise_flag f hop _ _ _ _).mp (h.trans hflag)
  by_cases hi : i < bits
  · exact ⟨i, hi, by simpa [hi] using hset⟩
  · simp [hi, hzero] at hset

end Bitwise

theorem getLsbD_and_op (x y : BitVec 32) (k : Nat) (_ : k < 32) :
    (x &&& y).getLsbD k = (x.getLsbD k && y.getLsbD k) := BitVec.getLsbD_and

theorem getLsbD_andnot_op (x y : BitVec 32) (k : Nat) (hk : k < 32) :
    (x &&& ~~~y).getLsbD k = (x.getLsbD k && !y.getLsbD k) := by
  simp [hk]

/-- **The operations on words** depend on the first bits only, exactly if some pair of these bits
makes each flag true, and the mask of the shift to the right is at the end of the bitmap or is not
used. -/
theorem firstBits_iff (dst a b : Words) {bits n : Nat} (hn : n < bits) :
    FirstBits bits n dst a b ↔ (∃ i < bits, (bit a i && bit b i) = true) ∧
      (∃ i < bits, (bit a i && !bit b i) = true) ∧ (bits ≤ 4 ∨ n = 0) := by
  have hend : bits ≤ 4 ∧ maskedEnd bits = bits ∨ 4 < bits ∧ bits + bits ≤ maskedEnd bits := by
    unfold maskedEnd bitsToLongs
    split <;> omega
  have hlim : ∀ i < bits, i < 32 * bitsToLongs bits := by
    unfold bitsToLongs
    omega
  constructor
  · intro h
    refine ⟨?_, ?_, ?_⟩
    · refine exists_of_flag_agree (· && ·) getLsbD_and_op (by omega) dst (pad bits b) rfl
        (by simp) ?_
      exact (h.and dst _ _ (agree_cut bits a) (agree_cut bits b)).1.symm.trans
        (h.and dst _ _ (agree_pad bits a) (agree_pad bits b)).1
    · refine exists_of_flag_agree (fun x y => x && !y) getLsbD_andnot_op (by omega) dst (cut bits b)
        rfl (by simp) ?_
      exact (h.andnot dst _ _ (agree_cut bits a) (agree_cut bits b)).1.symm.trans
        (h.andnot dst _ _ (agree_pad bits a) (agree_cut bits b)).1
    · by_contra hcon
      -- the bit behind the bitmap moves to the position `bits - n`
      have hcut := h.shiftRight dst _ (agree_cut bits a) (bits - n) (by omega)
      have hpad := h.shiftRight dst _ (agree_pad bits a) (bits - n) (by omega)
      rw [hcut, bit_bitmapShiftRight _ _ hn (by omega), bit_bitmapShiftRight _ _ hn (by omega),
        show bits - n + n = bits by omega, decide_eq_true (by omega)] at hpad
      simp at hpad
  · rintro ⟨hand, hdiff, hmask⟩
    have hreach : ∀ i < bits, decide (i + n < maskedEnd bits) = decide (i + n < bits) := by
      intro i hi
      rw [decide_eq_decide]
      omega
    constructor
    · intro dst' a' b' ha hb
      obtain ⟨h, h', hbit⟩ := bitwise_agree (· && ·) getLsbD_and_op hand dst dst' a' b' ha hb
      exact ⟨h.trans h'.symm, hbit⟩
    · intro dst' a' b' ha hb
      obtain ⟨h, h', hbit⟩ := bitwise_agree (fun x y => x && !y) getLsbD_andnot_op hdiff dst dst'
        a' b' ha hb
      exact ⟨h.trans h'.symm, hbit⟩
    · intro dst' a' ha i hi
      rw [bit_bitmapShiftLeft _ _ _ (hlim i hi), bit_bitmapShiftLeft _ _ _ (hlim i hi),
        ha (i - n) (by omega)]
    · intro dst' a' ha i hi
      rw [bit_bitmapShiftRight _ _ hn hi, bit_bitmapShiftRight _ _ hn hi, hreach i hi]
      by_cases hin : i + n < bits
      · rw [ha _ hin]
      · simp [hin]
    · have hflag := (bitwise_agree (· && ·) getLsbD_and_op hand dst dst a b (fun _ _ => rfl)
        fun _ _ => rfl).1
      obtain ⟨i, hi, hset⟩ := hand
      exact hflag.trans (bitmapIntersects_of_bit hi hset).symm
    · intro dst' i hi
      rw [bit_bitmapShiftRight _ _ hn hi, hreach i hi]
      by_cases hin : i + n < bits
      · rw [bit_bitmapShiftLeft _ _ _ (hlim _ hin), Nat.add_sub_cancel,
          decide_eq_true (show n ≤ i + n ∧ i + n < maskedEnd bits by omega)]
        simp [hin]
      · simp [hin]

/-- The first three bits of `0b011` and `0b001` meet and differ. -/
theorem firstBits_three : FirstBits 3 1 (fun _ => 0#32) (fun _ => 3#32) (fun _ => 1#32) :=
  (firstBits_iff _ _ _ (by decide)).mpr ⟨⟨0, by decide, rfl⟩, ⟨1, by decide, rfl⟩, by decide⟩

/-- In five bits, the flag and the shift to the right see the sixth. -/
theorem firstBits_five_fails :
    (bitmapAnd (fun _ => 0#32) (fun _ => 0#32) (fun _ => 0#32) 5).1 = false ∧
      (bitmapAnd (fun _ => 0#32) (fun _ => 32#32) (fun _ => 32#32) 5).1 = true ∧
      bitmapIntersects (fun _ => 32#32) (fun _ => 32#32) 5 = false ∧
      bit (bitmapShiftRight (fun _ => 0#32) (fun _ => 0#32) 1 5) 4 = false ∧
      bit (bitmapShiftRight (fun _ => 0#32) (fun _ => 32#32) 1 5) 4 = true := by
  decide

end AimKernel.Libbitmap
