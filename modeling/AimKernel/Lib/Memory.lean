import Mathlib.Algebra.Group.Nat.Defs

/-!
# AimKernel.Lib.Memory

Byte-addressed memory with 32-bit little-endian words.

`SameOn m m' a n` says that two memories hold the same `n` bytes from `a` on. Every
write leaves the bytes outside its own range alone, so a range disjoint from it is
the same before and after (`SameOn.store32`, `SameOn.fill`, `SameOn.copy`), and words
inside such a range read the same (`SameOn.load32`).

`Written dst val n m m'` describes a transfer to scattered addresses: `val i` is written to
`dst i`. It grows by consecutive pieces (`Written.fill`, `Written.copy`), which is how a loop
over pages makes it.
-/

namespace AimKernel

/-- Memory: a byte at every address. -/
def Mem : Type := Nat → UInt8

namespace Mem

/-- The word at `a`. -/
def load32 (m : Mem) (a : Nat) : Nat :=
  (m a).toNat + 2 ^ 8 * (m (a + 1)).toNat + 2 ^ 16 * (m (a + 2)).toNat
    + 2 ^ 24 * (m (a + 3)).toNat

/-- Write the word `w` at `a`. -/
def store32 (m : Mem) (a w : Nat) : Mem := fun x =>
  if a ≤ x ∧ x < a + 4 then UInt8.ofNat (w / 2 ^ (8 * (x - a))) else m x

/-- Set `n` bytes from `a` on to `b`. -/
def fill (m : Mem) (a : Nat) (b : UInt8) (n : Nat) : Mem := fun x =>
  if a ≤ x ∧ x < a + n then b else m x

/-- Copy `n` bytes from `src` to `dst`; the ranges may overlap. -/
def copy (m : Mem) (dst src n : Nat) : Mem := fun x =>
  if dst ≤ x ∧ x < dst + n then m (src + (x - dst)) else m x

theorem load32_lt (m : Mem) (a : Nat) : m.load32 a < 2 ^ 32 := by
  have h0 := (m a).toNat_lt
  have h1 := (m (a + 1)).toNat_lt
  have h2 := (m (a + 2)).toNat_lt
  have h3 := (m (a + 3)).toNat_lt
  unfold load32
  omega

theorem load32_store32_same (m : Mem) {a w : Nat} (hw : w < 2 ^ 32) :
    (m.store32 a w).load32 a = w := by
  have hdigits : w % 2 ^ 8 + 2 ^ 8 * (w / 2 ^ 8 % 2 ^ 8) + 2 ^ 16 * (w / 2 ^ 16 % 2 ^ 8)
      + 2 ^ 24 * (w / 2 ^ 24 % 2 ^ 8) = w := by omega
  simpa [load32, store32] using hdigits

theorem load32_fill_zero (m : Mem) {a b n : Nat} (hlo : a ≤ b) (hhi : b + 4 ≤ a + n) :
    (m.fill a 0 n).load32 b = 0 := by
  have h0 : a ≤ b ∧ b < a + n := by omega
  have h1 : a ≤ b + 1 ∧ b + 1 < a + n := by omega
  have h2 : a ≤ b + 2 ∧ b + 2 < a + n := by omega
  have h3 : a ≤ b + 3 ∧ b + 3 < a + n := by omega
  simp [load32, fill, h0, h1, h2, h3]

/-! ### What a write leaves alone -/

/-- The `n` bytes from `a` on are the same in both memories. -/
def SameOn (m m' : Mem) (a n : Nat) : Prop := ∀ x, a ≤ x → x < a + n → m' x = m x

namespace SameOn

variable {m m' m'' : Mem} {a n : Nat}

theorem refl (m : Mem) (a n : Nat) : SameOn m m a n := fun _ _ _ => rfl

theorem trans (h : SameOn m m' a n) (h' : SameOn m' m'' a n) : SameOn m m'' a n :=
  fun x hlo hhi => (h' x hlo hhi).trans (h x hlo hhi)

/-- Words inside an unchanged range read the same. -/
theorem load32 (h : SameOn m m' a n) {b : Nat} (hlo : a ≤ b) (hhi : b + 4 ≤ a + n) :
    m'.load32 b = m.load32 b := by
  unfold Mem.load32
  rw [h b hlo (by omega), h (b + 1) (by omega) (by omega), h (b + 2) (by omega) (by omega),
    h (b + 3) (by omega) (by omega)]

theorem store32 (h : SameOn m m' a n) {b w : Nat} (hout : b + 4 ≤ a ∨ a + n ≤ b) :
    SameOn m (m'.store32 b w) a n := by
  intro x hlo hhi
  unfold Mem.store32
  rw [if_neg (by omega)]
  exact h x hlo hhi

theorem fill (h : SameOn m m' a n) {b k : Nat} {c : UInt8} (hout : b + k ≤ a ∨ a + n ≤ b) :
    SameOn m (m'.fill b c k) a n := by
  intro x hlo hhi
  unfold Mem.fill
  rw [if_neg (by omega)]
  exact h x hlo hhi

theorem copy (h : SameOn m m' a n) {dst src k : Nat} (hout : dst + k ≤ a ∨ a + n ≤ dst) :
    SameOn m (m'.copy dst src k) a n := by
  intro x hlo hhi
  unfold Mem.copy
  rw [if_neg (by omega)]
  exact h x hlo hhi

end SameOn

/-- Storing one word does not touch another one. -/
theorem load32_store32_of_ne (m : Mem) {a b w : Nat} (h : a + 4 ≤ b ∨ b + 4 ≤ a) :
    (m.store32 a w).load32 b = m.load32 b :=
  ((SameOn.refl m b 4).store32 (by omega)).load32 (Nat.le_refl b) (Nat.le_refl _)

/-! ### Scattered writes -/

/-- The bytes `val i` for `i < n` are at the addresses `dst i`, and nothing else is
different. -/
structure Written (dst : Nat → Nat) (val : Nat → UInt8) (n : Nat) (m m' : Mem) : Prop where
  byte : ∀ i < n, m' (dst i) = val i
  other : ∀ x, (∀ i < n, x ≠ dst i) → m' x = m x

namespace Written

variable {dst : Nat → Nat} {val : Nat → UInt8} {n l : Nat} {m m₁ m' : Mem}

theorem unique (h : Written dst val n m m₁) (h' : Written dst val n m m') : m₁ = m' := by
  funext x
  by_cases hx : ∃ i < n, x = dst i
  · obtain ⟨i, hi, rfl⟩ := hx
    rw [h.byte i hi, h'.byte i hi]
  · have hout : ∀ i < n, x ≠ dst i := fun i hi heq => hx ⟨i, hi, heq⟩
    rw [h.other x hout, h'.other x hout]

theorem zero (dst : Nat → Nat) (val : Nat → UInt8) (m : Mem) : Written dst val 0 m m where
  byte i hi := absurd hi (Nat.not_lt_zero i)
  other _ _ := rfl

/-- `l` more bytes, at addresses that have not been written before. -/
theorem extend (h : Written dst val n m m₁) (hfresh : ∀ i < n, ∀ j < l, dst i ≠ dst (n + j))
    (hnew : ∀ j < l, m' (dst (n + j)) = val (n + j))
    (hold : ∀ x, (∀ j < l, x ≠ dst (n + j)) → m' x = m₁ x) : Written dst val (n + l) m m' where
  byte i hi := by
    by_cases hin : i < n
    · rw [hold _ (hfresh i hin)]
      exact h.byte i hin
    · have hj := hnew (i - n) (by omega)
      rw [Nat.add_sub_cancel' (Nat.le_of_not_lt hin)] at hj
      exact hj
  other x hx := by
    rw [hold x fun j hj => hx (n + j) (Nat.add_lt_add_left hj n)]
    exact h.other x fun i hi => hx i (Nat.lt_of_lt_of_le hi (Nat.le_add_right n l))

variable {a b : Nat}

/-- The next `l` addresses are consecutive and filled. -/
theorem fill (h : Written dst val n m m₁) (hfresh : ∀ i < n, ∀ j < l, dst i ≠ dst (n + j))
    (hdst : ∀ j < l, dst (n + j) = a + j) {c : UInt8} (hval : ∀ j < l, val (n + j) = c) :
    Written dst val (n + l) m (m₁.fill a c l) := by
  apply h.extend hfresh
  · intro j hj
    rw [hdst j hj, hval j hj]
    exact if_pos ⟨Nat.le_add_right a j, Nat.add_lt_add_left hj a⟩
  · intro x hx
    refine if_neg fun hin => hx (x - a) (by omega) ?_
    rw [hdst _ (by omega)]
    omega

/-- The next `l` addresses are consecutive, and so are the bytes to write. -/
theorem copy (h : Written dst val n m m₁) (hfresh : ∀ i < n, ∀ j < l, dst i ≠ dst (n + j))
    (hdst : ∀ j < l, dst (n + j) = a + j) (hval : ∀ j < l, val (n + j) = m₁ (b + j)) :
    Written dst val (n + l) m (m₁.copy a b l) := by
  apply h.extend hfresh
  · intro j hj
    rw [hdst j hj, hval j hj]
    unfold Mem.copy
    rw [if_pos ⟨Nat.le_add_right a j, Nat.add_lt_add_left hj a⟩, Nat.add_sub_cancel_left]
  · intro x hx
    refine if_neg fun hin => hx (x - a) (by omega) ?_
    rw [hdst _ (by omega)]
    omega

end Written

end Mem

end AimKernel
