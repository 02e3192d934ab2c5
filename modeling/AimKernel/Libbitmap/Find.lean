import AimKernel.Libbitmap.Bitops

/-!
# AimKernel.Libbitmap.Find

The searches of `libbitmap`. Positions count from one, and zero stands for "none".

Four of the five are one search: the zero bits of a bitmap are the set bits of its complement, and
the first position is the next one from position one on. `bitmap_find_last_bit` goes by its own
convention: where no bit is set it answers `size`, which is also its answer if the last bit is set.
-/

namespace AimKernel.Libbitmap

/-! ### Searches -/

/-- `~0UL >> (BITS_PER_LONG - n)`. -/
def lowMask (n : Nat) : BitVec 32 := BitVec.allOnes 32 >>> (32 - n)

/-- `~0UL << n`. -/
def highMask (n : Nat) : BitVec 32 := BitVec.allOnes 32 <<< n

/-- `bitmap_find_first_bit`, from the word at `p` on. -/
def findFirstBitLoop (mem : Memory) (p result size : Nat) : Nat :=
  if 32 ≤ size then
    let tmp := mem (u32 p)
    if tmp ≠ 0#32 then result + ffs tmp
    else findFirstBitLoop mem (p + 4) (result + 32) (size - 32)
  else if size = 0 then 0
  else
    let tmp := mem (u32 p) &&& lowMask size
    if tmp = 0#32 then 0 else result + ffs tmp
termination_by size

/-- `bitmap_find_first_bit`. -/
def bitmapFindFirstBit (mem : Memory) (addr size : Nat) : Nat := findFirstBitLoop mem addr 0 size

/-- `bitmap_find_next_bit`. Behind the first word it is the loop of `bitmap_find_first_bit`. -/
def bitmapFindNextBit (mem : Memory) (addr size offset : Nat) : Nat :=
  if offset = 0 then 0
  else
    let offset := offset - 1
    let p := addr + 4 * (offset / 32)
    let result := 32 * (offset / 32)
    if size ≤ offset then 0
    else
      let size := size - result
      let offset := offset % 32
      if offset = 0 then findFirstBitLoop mem p result size
      else
        let tmp := mem (u32 p) &&& highMask offset
        if size < 32 then
          let tmp := tmp &&& lowMask size
          if tmp = 0#32 then 0 else result + ffs tmp
        else if tmp ≠ 0#32 then result + ffs tmp
        else findFirstBitLoop mem (p + 4) (result + 32) (size - 32)

/-- `bitmap_find_next_zero_bit`. -/
def bitmapFindNextZeroBit (mem : Memory) (addr size offset : Nat) : Nat :=
  if offset = 0 then 0
  else
    let offset := offset - 1
    let p := addr + 4 * (offset / 32)
    let result := 32 * (offset / 32)
    if size ≤ offset then 0
    else
      let size := size - result
      let offset := offset % 32
      if offset = 0 then findFirstZeroBitLoop mem p result size
      else
        let tmp := mem (u32 p) ||| lowMask offset
        if size < 32 then
          let tmp := tmp ||| highMask size
          if tmp = BitVec.allOnes 32 then 0 else result + ffz tmp
        else if ~~~tmp ≠ 0#32 then result + ffz tmp
        else findFirstZeroBitLoop mem (p + 4) (result + 32) (size - 32)

/-- The loop of `bitmap_find_last_bit`. -/
def findLastBitLoop (mem : Memory) (addr size : Nat) : Nat → Nat
  | 0 => size
  | words + 1 =>
    let tmp := mem (u32 (addr + 4 * words))
    if tmp ≠ 0#32 then 32 * words + fls tmp else findLastBitLoop mem addr size words

/-- `bitmap_find_last_bit`. -/
def bitmapFindLastBit (mem : Memory) (addr size : Nat) : Nat :=
  let words := size / 32
  let tmp := mem (u32 (addr + 4 * words)) &&& lowMask (size % 32)
  if size % 32 ≠ 0 ∧ tmp ≠ 0#32 then 32 * words + fls tmp
  else findLastBitLoop mem addr size words

/-- The positions that repeated calls of `bitmap_find_next_bit` find. -/
def nextBits (mem : Memory) (addr size : Nat) : Nat → Nat → List Nat
  | 0, _ => []
  | fuel + 1, offset =>
    let i := bitmapFindNextBit mem addr size offset
    if i = 0 then [] else i :: nextBits mem addr size fuel (i + 1)

/-! ### Next positions -/

variable {k : Nat}

theorem getLsbD_lowMask (hk : k < 32) (n : Nat) : (lowMask n).getLsbD k = decide (k < n) := by
  simp only [lowMask, BitVec.getLsbD_ushiftRight, BitVec.getLsbD_allOnes, decide_eq_decide]
  omega

theorem not_highMask (n : Nat) : ~~~highMask n = lowMask n := by
  refine BitVec.eq_of_getLsbD_eq fun k hk => ?_
  have hsub : k - n < 32 := by omega
  rw [getLsbD_lowMask hk, BitVec.getLsbD_not, highMask, BitVec.getLsbD_shiftLeft,
    BitVec.getLsbD_allOnes]
  simp [hk, hsub]

theorem not_lowMask (n : Nat) : ~~~lowMask n = highMask n := by
  rw [← not_highMask, BitVec.not_not]

/-- The bits with those below a position taken as set. -/
def setBelow (b : Nat → Bool) (pos i : Nat) : Bool := decide (i < pos) || b i

/-- **`bitmap_find_next_zero_bit`.** -/
theorem bitmapFindNextZeroBit_spec (mem : Memory) (addr size offset : Nat) (ho : 1 ≤ offset) :
    FirstClear (bitAt mem addr) (offset - 1) size (bitmapFindNextZeroBit mem addr size offset) := by
  rw [bitmapFindNextZeroBit, if_neg (by omega)]
  dsimp only
  generalize offset - 1 = lo
  have hsplit := Nat.div_add_mod lo 32
  have hmod := Nat.mod_lt lo (show 0 < 32 by decide)
  generalize lo / 32 = n at hsplit
  generalize lo % 32 = o at hsplit hmod
  subst hsplit
  have hloop := findFirstZeroBitLoop_spec mem addr
  split
  · exact .inl ⟨fun i hlo hi => by omega, rfl⟩
  rename_i hsize
  by_cases ho : o = 0
  · have hspec := hloop n (size - 32 * n)
    rw [show 32 * n + (size - 32 * n) = size by omega] at hspec
    simpa [ho] using hspec
  -- the bits of the first word before the position are taken as set
  have hword : ∀ k < 32, setBelow (bitAt mem addr) (32 * n + o) (32 * n + k) =
      (mem (u32 (addr + 4 * n)) ||| lowMask o).getLsbD k := by
    intro k hk
    rw [BitVec.getLsbD_or, getLsbD_lowMask hk, ← bitAt_word mem addr n hk, Bool.or_comm]
    simp [setBelow]
  suffices h : FirstClear (setBelow (bitAt mem addr) (32 * n + o)) (32 * n) size _ from
    (h.drop (Nat.le_add_right _ o) (by simp +contextual [setBelow])).congr
      (by simp [setBelow]; omega)
  rw [if_neg ho]
  split
  · have hlast := firstClear_last (show size - 32 * n < 32 by assumption) hword
    rwa [show 32 * n + (size - 32 * n) = size by omega] at hlast
  · have hrest := hloop (n + 1) (size - 32 * n - 32)
    rw [show 32 * (n + 1) + (size - 32 * n - 32) = size by omega] at hrest
    exact firstClear_whole (by omega) hword (hrest.congr (by simp [setBelow]; omega))

theorem bitmapFindNextZeroBit_one (mem : Memory) (addr size : Nat) :
    bitmapFindNextZeroBit mem addr size 1 = bitmapFindFirstZeroBit mem addr size := by
  by_cases hsize : size = 0
  · simp [bitmapFindNextZeroBit, bitmapFindFirstZeroBit, hsize, findFirstZeroBitLoop]
  · simp [bitmapFindNextZeroBit, bitmapFindFirstZeroBit, hsize]

/-! ### Set bits are the zero bits of the complement -/

theorem findFirstBitLoop_eq (mem : Memory) (p result size : Nat) :
    findFirstBitLoop mem p result size =
      findFirstZeroBitLoop (fun a => ~~~mem a) p result size := by
  induction size using Nat.strong_induction_on generalizing p result with
  | _ size ih =>
    rw [findFirstBitLoop, findFirstZeroBitLoop]
    by_cases hsize : 32 ≤ size
    · simp [hsize, ffz_not, ih (size - 32) (by omega)]
    · have hmask : BitVec.allOnes 32 <<< size = ~~~lowMask size := (not_lowMask size).symm
      simp only [hsize, if_false, hmask, ← BitVec.not_and, ffz_not, ← not_eq_zero_iff,
        BitVec.not_not]

theorem bitmapFindNextBit_eq (mem : Memory) (addr size offset : Nat) :
    bitmapFindNextBit mem addr size offset =
      bitmapFindNextZeroBit (fun a => ~~~mem a) addr size offset := by
  have hlow : ∀ n (y : BitVec 32), ~~~y ||| lowMask n = ~~~(y &&& highMask n) := by
    simp [BitVec.not_and, not_highMask]
  have hhigh : ∀ n (y : BitVec 32), ~~~y ||| highMask n = ~~~(y &&& lowMask n) := by
    simp [BitVec.not_and, not_lowMask]
  simp only [bitmapFindNextBit, bitmapFindNextZeroBit, findFirstBitLoop_eq, hlow, hhigh, ffz_not,
    ← not_eq_zero_iff, BitVec.not_not]

theorem bitAt_not (mem : Memory) (addr i : Nat) :
    bitAt (fun a => ~~~mem a) addr i = !bitAt mem addr i := by
  simp [bitAt, Nat.mod_lt]

/-- **`bitmap_find_next_bit`.** -/
theorem bitmapFindNextBit_spec (mem : Memory) (addr size offset : Nat) (ho : 1 ≤ offset) :
    FirstClear (fun i => !bitAt mem addr i) (offset - 1) size
      (bitmapFindNextBit mem addr size offset) := by
  rw [bitmapFindNextBit_eq]
  exact (bitmapFindNextZeroBit_spec _ addr size offset ho).congr
    fun i _ => (bitAt_not mem addr i).symm

/-- Repeated calls find the set bits, one after the other. -/
theorem nextBits_eq (mem : Memory) (addr size : Nat) {fuel offset : Nat} (ho : 1 ≤ offset)
    (hfuel : size < offset + fuel) : nextBits mem addr size fuel offset =
      (List.range' offset (size + 1 - offset)).filter fun i => bitAt mem addr (i - 1) := by
  induction fuel generalizing offset with
  | zero => simp [nextBits, show size + 1 - offset = 0 by omega]
  | succ fuel ih =>
    have hspec := bitmapFindNextBit_spec mem addr size offset ho
    generalize hr : bitmapFindNextBit mem addr size offset = r at hspec
    simp only [nextBits, hr]
    rcases hspec with ⟨hnone, rfl⟩ | ⟨i, hlo, hhi, hset, hfirst, rfl⟩
    · rw [if_pos rfl, eq_comm, List.filter_eq_nil_iff]
      intro j hj
      rw [List.mem_range'_1] at hj
      simpa using hnone (j - 1) (by omega) (by omega)
    · have hsplit : List.range' offset (size + 1 - offset) = List.range' offset (i + 1 - offset) ++
          (i + 1) :: List.range' (i + 1 + 1) (size + 1 - (i + 1 + 1)) := by
        rw [← List.range'_succ, show i + 1 = offset + (i + 1 - offset) by omega,
          Nat.add_sub_cancel_left, List.range'_append_1]
        congr 1
        omega
      have hskip : (List.range' offset (i + 1 - offset)).filter
          (fun i => bitAt mem addr (i - 1)) = [] := by
        rw [List.filter_eq_nil_iff]
        intro j hj
        rw [List.mem_range'_1] at hj
        simpa using hfirst (j - 1) (by omega) (by omega)
      rw [hsplit, List.filter_append, hskip, List.filter_cons_of_pos (by simpa using hset),
        if_neg (Nat.succ_ne_zero i), ih (by omega) (by omega), List.nil_append]

/-! ### The last position -/

theorem findLastBitLoop_spec (mem : Memory) (addr size words : Nat) :
    LastSet (bitAt mem addr) (32 * words) size (findLastBitLoop mem addr size words) := by
  induction words with
  | zero => exact .inl ⟨by simp, rfl⟩
  | succ n ih =>
    rw [findLastBitLoop]
    split
    · rename_i hx
      exact lastSet_word hx (Nat.le_refl _) (fun k hk _ => bitAt_word mem addr n hk)
        fun k hk => BitVec.getLsbD_of_ge _ k (by omega)
    · rename_i hx
      refine ih.extend (by omega) fun i hlo hi => ?_
      obtain ⟨k, rfl⟩ := Nat.exists_eq_add_of_le hlo
      rw [bitAt_word mem addr n (by omega), not_not.mp hx, BitVec.getLsbD_zero]

/-- **`bitmap_find_last_bit`** answers `size` where no bit is set. -/
theorem bitmapFindLastBit_spec (mem : Memory) (addr size : Nat) :
    LastSet (bitAt mem addr) size size (bitmapFindLastBit mem addr size) := by
  have hword : ∀ k < 32, 32 * (size / 32) + k < size → bitAt mem addr (32 * (size / 32) + k) =
      (mem (u32 (addr + 4 * (size / 32))) &&& lowMask (size % 32)).getLsbD k := by
    intro k hk hlt
    rw [BitVec.getLsbD_and, getLsbD_lowMask hk, bitAt_word mem addr _ hk,
      decide_eq_true (by omega), Bool.and_true]
  rw [bitmapFindLastBit]
  split
  · rename_i hx
    refine lastSet_word hx.2 (by omega) hword fun k hk => ?_
    by_cases hk32 : k < 32
    · rw [BitVec.getLsbD_and, getLsbD_lowMask hk32, decide_eq_false (by omega), Bool.and_false]
    · exact BitVec.getLsbD_of_ge _ k (by omega)
  · rename_i hx
    refine (findLastBitLoop_spec mem addr size _).extend (by omega) fun i hlo hi => ?_
    obtain ⟨k, rfl⟩ := Nat.exists_eq_add_of_le hlo
    have hzero : mem (u32 (addr + 4 * (size / 32))) &&& lowMask (size % 32) = 0#32 := by
      by_contra hne
      exact hx ⟨by omega, hne⟩
    rw [hword k (by omega) hi, hzero, BitVec.getLsbD_zero]

/-- **The searches.** From every position on, the next-searches answer the least position, the
first-searches are those from position one on, and repeated next-search goes through the set bits.
Of the whole family this holds exactly where some bit is set, or there are no bits at all:
otherwise `bitmap_find_last_bit` answers `size` in place of zero. -/
theorem bitmap_searches_iff (mem : Memory) (addr size : Nat) :
    ((∀ offset, 1 ≤ offset →
        FirstClear (fun i => !bitAt mem addr i) (offset - 1) size
            (bitmapFindNextBit mem addr size offset) ∧
          FirstClear (bitAt mem addr) (offset - 1) size
            (bitmapFindNextZeroBit mem addr size offset)) ∧
        bitmapFindFirstBit mem addr size = bitmapFindNextBit mem addr size 1 ∧
        bitmapFindFirstZeroBit mem addr size = bitmapFindNextZeroBit mem addr size 1 ∧
        LastSet (bitAt mem addr) size 0 (bitmapFindLastBit mem addr size) ∧
        nextBits mem addr size (size + 1) 1 =
          (List.range' 1 size).filter fun i => bitAt mem addr (i - 1)) ↔
      size = 0 ∨ ∃ i < size, bitAt mem addr i = true := by
  have hlast := bitmapFindLastBit_spec mem addr size
  constructor
  · rintro ⟨-, -, -, ⟨hnone, hzero⟩ | ⟨i, hi, hset, -⟩, -⟩
    · rcases hlast with ⟨-, hsize⟩ | ⟨i, hi, hset, -⟩
      · exact .inl (hsize.symm.trans hzero)
      · exact .inr ⟨i, hi, hset⟩
    · exact .inr ⟨i, hi, hset⟩
  · intro h
    refine ⟨fun offset ho => ⟨bitmapFindNextBit_spec mem addr size offset ho,
      bitmapFindNextZeroBit_spec mem addr size offset ho⟩, ?_, ?_, ?_, ?_⟩
    · rw [bitmapFindNextBit_eq, bitmapFindNextZeroBit_one, bitmapFindFirstBit, findFirstBitLoop_eq]
      rfl
    · exact (bitmapFindNextZeroBit_one mem addr size).symm
    · rcases hlast with ⟨hnone, hsize⟩ | hfound
      · refine .inl ⟨hnone, ?_⟩
        rcases h with rfl | ⟨i, hi, hset⟩
        · exact hsize
        · simp [hnone i hi] at hset
      · exact .inr hfound
    · simpa using nextBits_eq mem addr size (Nat.le_refl 1) (show size < 1 + (size + 1) by omega)

/-- No bit of one word is set. -/
theorem bitmapFindLastBit_none :
    (∀ i < 32, bitAt (fun _ => 0#32) 0 i = false) ∧ bitmapFindLastBit (fun _ => 0#32) 0 32 = 32 ∧
      bitmapFindNextBit (fun _ => 0#32) 0 32 1 = 0 := by
  refine ⟨by decide, by decide, ?_⟩
  simp [bitmapFindNextBit, findFirstBitLoop]

end AimKernel.Libbitmap
