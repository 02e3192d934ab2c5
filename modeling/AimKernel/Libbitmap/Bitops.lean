import AimKernel.Libbitmap.Bits

/-!
# AimKernel.Libbitmap.Bitops

The searches in one word, and `__generic_ffs64` and its relatives, which search the halves of a
double word on a machine of 32 bits. Positions count from one, and zero stands for "none".

All four begin with the low half and go on to the high half if the low one is zero. That is the right
question for the lowest set bit alone: a search for the highest bit has to begin with the other half,
and for a clear bit the half to skip is that of all ones. In `__generic_ffz64` a macro is misspelt, so
that there is no high half at all.
-/

namespace AimKernel.Libbitmap

/-- `__fls`, by `clz`. -/
def fls (x : BitVec 32) : Nat := 32 - x.clz.toNat

/-- `__ffs`. -/
def ffs (x : BitVec 32) : Nat := fls (x &&& -x)

/-- The half that `(uint32_t)word` is. -/
def low (word : BitVec 64) : BitVec 32 := word.setWidth 32

/-- The half that `(uint32_t)(word >> 32)` is. -/
def high (word : BitVec 64) : BitVec 32 := (word >>> 32).setWidth 32

/-- `__generic_ffs64`. -/
def genericFfs64 (word : BitVec 64) : Nat :=
  if low word = 0#32 then ffs (high word) + 32 else ffs (low word)

/-- `__generic_fls64`. -/
def genericFls64 (word : BitVec 64) : Nat :=
  if low word = 0#32 then fls (high word) + 32 else fls (low word)

/-- `__generic_ffz64`. `bits_per_long` is no macro, which makes the condition on it false. -/
def genericFfz64 (word : BitVec 64) : Nat := ffz (low word)

/-- `__generic_flz64`. -/
def genericFlz64 (word : BitVec 64) : Nat :=
  if low word = 0#32 then flz (high word) + 32 else flz (low word)

/-! ### One word -/

variable {b : Nat → Bool} {lo hi n r r' : Nat} {x y : BitVec 32}

theorem ffz_not (x : BitVec 32) : ffz (~~~x) = ffs x := by
  simp [ffz, flz, ffs, fls]

theorem flz_eq (x : BitVec 32) : flz x = fls (~~~x) := rfl

/-- The answer to a search for the last set bit of the positions below `hi`, where `none` stands for
"none". -/
def LastSet (b : Nat → Bool) (hi none r : Nat) : Prop :=
  (∀ i < hi, b i = false) ∧ r = none ∨
    ∃ i < hi, b i = true ∧ (∀ j < hi, i < j → b j = false) ∧ r = i + 1

/-- `fls` is one more than the index of the highest set bit. -/
theorem fls_spec (hx : x ≠ 0#32) :
    ∃ k < 32, x.getLsbD k = true ∧ (∀ j, k < j → x.getLsbD j = false) ∧ fls x = k + 1 := by
  have hset := BitVec.getLsbD_true_clz_of_ne_zero (by decide) hx
  have hlt := BitVec.toNat_lt_two_pow_sub_clz (x := x)
  have hclz := BitVec.lt_def.mp (BitVec.clz_lt_iff_ne_zero.mpr hx)
  refine ⟨_, BitVec.lt_of_getLsbD hset, hset, fun j hj => ?_, ?_⟩
  · exact Nat.testBit_lt_two_pow (Nat.lt_of_lt_of_le hlt (Nat.pow_le_pow_right (by decide) (by omega)))
  · unfold fls
    simp at hclz
    omega

/-- One word of the search, with zeros in place of the bits behind the bitmap. -/
theorem lastSet_word {d : Nat} (hx : x ≠ 0#32) (hhi : hi ≤ 32 * n + 32)
    (hb : ∀ k < 32, 32 * n + k < hi → b (32 * n + k) = x.getLsbD k)
    (hzero : ∀ k, hi ≤ 32 * n + k → x.getLsbD k = false) : LastSet b hi d (32 * n + fls x) := by
  obtain ⟨k, hk, hset, hhigh, hfls⟩ := fls_spec hx
  have hlt : 32 * n + k < hi := by
    by_contra hge
    simp [hzero k (Nat.le_of_not_lt hge)] at hset
  refine .inr ⟨32 * n + k, hlt, (hb k hk hlt).trans hset, fun j hj hkj => ?_, by omega⟩
  obtain ⟨l, rfl⟩ := Nat.exists_eq_add_of_le (show 32 * n ≤ j by omega)
  exact (hb l (by omega) hj).trans (hhigh l (by omega))

theorem LastSet.extend {d : Nat} (h : LastSet b lo d r) (hle : lo ≤ hi)
    (hclear : ∀ i, lo ≤ i → i < hi → b i = false) : LastSet b hi d r := by
  have hall : ∀ i < hi, (i < lo → b i = false) → b i = false := by
    intro i hi hlt
    by_cases hlo : i < lo
    · exact hlt hlo
    · exact hclear i (Nat.le_of_not_lt hlo) hi
  rcases h with ⟨hnone, rfl⟩ | ⟨i, hi, hset, hhigh, rfl⟩
  · exact .inl ⟨fun i hi => hall i hi (hnone i), rfl⟩
  · exact .inr ⟨i, by omega, hset, fun j hj hij => hall j hj fun hlo => hhigh j hlo hij, rfl⟩

/-! ### Two halves -/

theorem LastSet.unique {d : Nat} (h : LastSet b hi d r) (h' : LastSet b hi d r') : r = r' := by
  rcases h with ⟨hall, rfl⟩ | ⟨i, hi, hset, hlast, rfl⟩
  · rcases h' with ⟨-, rfl⟩ | ⟨j, hj, hset', -, rfl⟩
    · rfl
    · simp [hall j hj] at hset'
  · rcases h' with ⟨hall', rfl⟩ | ⟨j, hj, hset', hlast', rfl⟩
    · simp [hall' i hi] at hset
    · rcases Nat.lt_trichotomy i j with hij | rfl | hij
      · simp [hlast j hj hij] at hset'
      · rfl
      · simp [hlast' i hi hij] at hset

/-- The lowest clear bit is that of the low half if it has one. -/
theorem firstClear_halves (hx : ∀ k < 32, b k = x.getLsbD k)
    (hy : ∀ k < 32, b (32 + k) = y.getLsbD k) : FirstClear b 0 64 r ↔
      r = if ~~~x ≠ 0#32 then ffz x else if ~~~y ≠ 0#32 then 32 + ffz y else 0 := by
  have hnone : FirstClear b (32 * (1 + 1)) 64 0 := .inl ⟨by omega, rfl⟩
  have hspec := firstClear_whole (n := 0) (by decide) (by simpa using hx)
    (firstClear_whole (n := 1) (Nat.le_refl 64) hy hnone)
  simp only [Nat.mul_zero, Nat.mul_one, Nat.zero_add] at hspec
  exact ⟨fun h => h.unique hspec, fun h => h ▸ hspec⟩

/-- The highest set bit is that of the high half if it has one. -/
theorem lastSet_halves (hx : ∀ k < 32, b k = x.getLsbD k)
    (hy : ∀ k < 32, b (32 + k) = y.getLsbD k) : LastSet b 64 0 r ↔
      r = if y ≠ 0#32 then 32 + fls y else if x ≠ 0#32 then fls x else 0 := by
  have hspec : LastSet b 64 0 (if y ≠ 0#32 then 32 + fls y else if x ≠ 0#32 then fls x else 0) := by
    split
    · rename_i hne
      exact lastSet_word (n := 1) hne (Nat.le_refl 64) (fun k hk _ => hy k hk)
        fun k hk => BitVec.getLsbD_of_ge _ k (by omega)
    · rename_i hzero
      have hlow : LastSet b 32 0 (if x ≠ 0#32 then fls x else 0) := by
        split
        · rename_i hne
          have hword := lastSet_word (b := b) (n := 0) (d := 0) hne (Nat.le_refl 32)
            (fun k hk _ => by simpa using hx k hk) fun k hk => BitVec.getLsbD_of_ge _ k (by omega)
          simpa using hword
        · rename_i hxzero
          exact .inl ⟨fun i hi => by simp [hx i hi, not_not.mp hxzero], rfl⟩
      refine hlow.extend (by decide) fun i hlo hi => ?_
      obtain ⟨k, rfl⟩ := Nat.exists_eq_add_of_le hlo
      simp [hy k (by omega), not_not.mp hzero]
  exact ⟨fun h => h.unique hspec, fun h => h ▸ hspec⟩

theorem fls_pos_le (hx : x ≠ 0#32) : 0 < fls x ∧ fls x ≤ 32 := by
  obtain ⟨k, hk, -, -, hfls⟩ := fls_spec hx
  omega

variable {word : BitVec 64} {k : Nat}

theorem getLsbD_low (hk : k < 32) : word.getLsbD k = (low word).getLsbD k := by
  simp [low, hk]

theorem getLsbD_high (hk : k < 32) : word.getLsbD (32 + k) = (high word).getLsbD k := by
  simp [high, hk]

/-- **Searching a double word.** Each search is right exactly if the half that it takes is the one
that has the answer, and for `__generic_ffs64` if there is an answer at all. -/
theorem generic_searches_iff (word : BitVec 64) :
    (FirstClear (fun i => !word.getLsbD i) 0 64 (genericFfs64 word) ↔
        low word ≠ 0#32 ∨ high word ≠ 0#32) ∧
      (LastSet word.getLsbD 64 0 (genericFls64 word) ↔ (low word = 0#32 ↔ high word ≠ 0#32)) ∧
      (FirstClear word.getLsbD 0 64 (genericFfz64 word) ↔
        low word ≠ BitVec.allOnes 32 ∨ high word = BitVec.allOnes 32) ∧
      (LastSet (fun i => !word.getLsbD i) 64 0 (genericFlz64 word) ↔
        low word = 0#32 ∨ high word = BitVec.allOnes 32) := by
  have hlow : ∀ k < 32, (!word.getLsbD k) = (~~~low word).getLsbD k := by
    intro k hk
    simp [getLsbD_low hk, hk]
  have hhigh : ∀ k < 32, (!word.getLsbD (32 + k)) = (~~~high word).getLsbD k := by
    intro k hk
    simp [getLsbD_high hk, hk]
  have hones : BitVec.allOnes 32 = 0xffffffff#32 := rfl
  refine ⟨?_, ?_, ?_, ?_⟩
  · rw [firstClear_halves hlow hhigh, genericFfs64]
    by_cases hx : low word = 0#32 <;> by_cases hy : high word = 0#32 <;>
      simp [hx, hy, ffz_not, Nat.add_comm]
  · rw [lastSet_halves (fun k => getLsbD_low) fun k => getLsbD_high, genericFls64]
    by_cases hx : low word = 0#32 <;> by_cases hy : high word = 0#32
    · simp [hx, hy]
    · simp [hx, hy, Nat.add_comm]
    · simp [hx, hy]
    · have := fls_pos_le hx
      have := fls_pos_le hy
      simp [hx, hy]
      omega
  · rw [firstClear_halves (fun k => getLsbD_low) fun k => getLsbD_high, genericFfz64]
    have hnone : ffz 0xffffffff#32 = 0 := by decide
    simp only [ne_eq, not_eq_zero_iff, hones]
    by_cases hx : low word = 0xffffffff#32
    · by_cases hy : high word = 0xffffffff#32
      · simp [hx, hy, hnone]
      · simp [hx, hy, hnone]
        omega
    · simp [hx]
  · rw [lastSet_halves hlow hhigh, genericFlz64]
    simp only [ne_eq, not_eq_zero_iff, flz_eq, hones]
    by_cases hx : low word = 0#32 <;> by_cases hy : high word = 0xffffffff#32
    · simp [hx, hy]
      decide
    · simp [hx, hy, Nat.add_comm]
    · by_cases hall : low word = 0xffffffff#32
      · simp [hy, hall]
        decide
      · simp [hx, hy, hall]
    · have hle : fls (~~~low word) ≤ 32 := Nat.sub_le ..
      have hpos := fls_pos_le (fun h => hy (not_eq_zero_iff.mp h))
      simp [hx, hy]
      omega

/-- Bits 0 and 32 set; all ones below, all zeros above. -/
theorem generic_searches_wrong :
    genericFfs64 0 = 32 ∧ genericFls64 0x100000001 = 1 ∧ genericFfz64 0xffffffff = 0 ∧
      genericFlz64 1 = 32 := by
  decide

end AimKernel.Libbitmap
