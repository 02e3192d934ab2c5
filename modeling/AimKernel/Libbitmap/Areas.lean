import AimKernel.Libbitmap.Words

/-!
# AimKernel.Libbitmap.Areas

Setting and clearing an area of a bitmap, and the predicates on bitmaps.

`bitmap_set` and `bitmap_clear` go from word to word with a mask: the first one starts inside
its word, those between are whole, and the last one ends inside its word. The predicates stop at
the first word that decides, and mask the last one. All of them divide by the bits of a word, so
that unlike `bitmap_and` and the shifts they keep to the bits of the bitmap.

The end of an area is `int size = start + nr` in the source. It is a natural number here, so what is
said of an area is said of the code where `start + nr` is below `2 ^ 31`.
-/

namespace AimKernel.Libbitmap

open Function (update)

/-! ### Areas -/

/-- `BITMAP_FIRST_WORD_MASK`. -/
def firstWordMask (start : Nat) : BitVec 32 := BitVec.allOnes 32 <<< (start % 32)

/-- `BITMAP_LAST_WORD_MASK`. -/
def lastWordMask (nbits : Nat) : BitVec 32 :=
  if nbits % 32 ≠ 0 then leftMask (nbits % 32) else BitVec.allOnes 32

/-- The loop of `bitmap_set` and `bitmap_clear` and what follows it; `bits_to_set` is `more + 1`. -/
def areaLoop (op : BitVec 32 → BitVec 32 → BitVec 32) (size : Nat) (map : Words)
    (p nr more : Nat) (mask : BitVec 32) : Words :=
  if more + 1 ≤ nr then
    areaLoop op size (update map p (op (map p) mask)) (p + 1) (nr - (more + 1)) 31
      (BitVec.allOnes 32)
  else if nr ≠ 0 then update map p (op (map p) (mask &&& lastWordMask size))
  else map
termination_by nr

def area (op : BitVec 32 → BitVec 32 → BitVec 32) (map : Words) (start nr : Nat) : Words :=
  areaLoop op (start + nr) map (start / 32) nr (31 - start % 32) (firstWordMask start)

/-- `bitmap_set`. -/
def bitmapSet := area fun word mask => word ||| mask

/-- `bitmap_clear`. -/
def bitmapClear := area fun word mask => word &&& ~~~mask

variable {op : BitVec 32 → BitVec 32 → BitVec 32} {map word : Words} {p bits : Nat}

theorem bit_update (map : Words) (p : Nat) (w : BitVec 32) (i : Nat) :
    bit (update map p w) i = if i / 32 = p then w.getLsbD (i % 32) else bit map i := by
  unfold bit
  by_cases h : i / 32 = p
  · rw [if_pos h, h, Function.update_self]
  · rw [if_neg h, Function.update_of_ne h]

/-- **The loop**, from a word whose mask begins at the next bit `q` of the area. -/
theorem bit_areaLoop (f : Bool → Bool → Bool) (hf : ∀ x, f x false = x)
    (hop : ∀ x y k, k < 32 → (op x y).getLsbD k = f (x.getLsbD k) (y.getLsbD k)) {q nr more : Nat}
    {mask : BitVec 32} (hq : q = 32 * p + (31 - more)) (hmore : more ≤ 31)
    (hmask : ∀ k < 32, mask.getLsbD k = decide (31 - more ≤ k)) (i : Nat) :
    bit (areaLoop op (q + nr) map p nr more mask) i =
      f (bit map i) (decide (q ≤ i ∧ i < q + nr)) := by
  have hmod : i % 32 < 32 := Nat.mod_lt _ (by decide)
  induction nr using Nat.strongRecOn generalizing map p q more mask with
  | _ nr ih =>
    rw [areaLoop]
    split
    · -- the rest of the word belongs to the area
      have hsize : q + nr = q + (more + 1) + (nr - (more + 1)) := by omega
      rw [hsize, ih _ (by omega) (by omega) (Nat.le_refl 31) (fun k hk => by
        rw [BitVec.getLsbD_allOnes, decide_eq_true hk, decide_eq_true (Nat.zero_le k)]), bit_update,
        ← hsize]
      split
      · next hword =>
        have hout : ¬ (q + (more + 1) ≤ i ∧ i < q + nr) := by omega
        have hin : 31 - more ≤ i % 32 ↔ q ≤ i ∧ i < q + nr := by omega
        rw [decide_eq_false hout, hf, hop _ _ _ hmod, hmask _ hmod, bit, hword,
          decide_eq_decide.mpr hin]
      · have hsame : q + (more + 1) ≤ i ∧ i < q + nr ↔ q ≤ i ∧ i < q + nr := by omega
        rw [decide_eq_decide.mpr hsame]
    · split
      · -- the area ends inside the word
        have hlast : lastWordMask (q + nr) = leftMask (31 - more + nr) := by
          rw [lastWordMask, if_pos (by omega), show (q + nr) % 32 = 31 - more + nr by omega]
        rw [bit_update]
        split
        · next hword =>
          have hin : 31 - more ≤ i % 32 ∧ i % 32 < 31 - more + nr ↔ q ≤ i ∧ i < q + nr := by omega
          rw [hop _ _ _ hmod, BitVec.getLsbD_and, hmask _ hmod, hlast,
            getLsbD_leftMask _ (by omega) _ hmod, bit, hword, ← Bool.decide_and,
            decide_eq_decide.mpr hin]
        · have hout : ¬ (q ≤ i ∧ i < q + nr) := by omega
          rw [decide_eq_false hout, hf]
      · have hout : ¬ (q ≤ i ∧ i < q + nr) := by omega
        rw [decide_eq_false hout, hf]

theorem bit_area (f : Bool → Bool → Bool) (hf : ∀ x, f x false = x)
    (hop : ∀ x y k, k < 32 → (op x y).getLsbD k = f (x.getLsbD k) (y.getLsbD k))
    (start nr i : Nat) :
    bit (area op map start nr) i = f (bit map i) (decide (start ≤ i ∧ i < start + nr)) := by
  have hpos : 31 - (31 - start % 32) = start % 32 := by omega
  refine bit_areaLoop f hf hop (by omega) (Nat.sub_le ..) (fun k hk => ?_) i
  rw [hpos, firstWordMask, BitVec.getLsbD_shiftLeft, BitVec.getLsbD_allOnes, decide_eq_true hk,
    decide_eq_true (show k - start % 32 < 32 by omega)]
  grind

/-- **Areas.** `bitmap_set` sets the bits of the area and `bitmap_clear` clears them, and both leave
every other bit alone. -/
theorem bitmap_areas (map : Words) (start nr i : Nat) :
    bit (bitmapSet map start nr) i = (bit map i || decide (start ≤ i ∧ i < start + nr)) ∧
      bit (bitmapClear map start nr) i = (bit map i && !decide (start ≤ i ∧ i < start + nr)) :=
  ⟨bit_area (fun x y => x || y) (by simp) (by simp) start nr i,
    bit_area (fun x y => x && !y) (by simp) (fun x y k hk => by simp [hk]) start nr i⟩

/-! ### Predicates -/

/-- The loop of the predicates, and the last word. -/
def scan (hit : Nat → Bool) (word : Words) (bits : Nat) : Bool :=
  (List.range (bits / 32)).any hit ||
    decide (bits % 32 ≠ 0 ∧ word (bits / 32) &&& leftMask (bits % 32) ≠ 0#32)

/-- `__bitmap_full`. -/
def bitmapFull (bitmap : Words) (bits : Nat) : Bool :=
  !scan (fun k => ~~~bitmap k ≠ 0#32) (fun k => ~~~bitmap k) bits

/-- `__bitmap_equal`. -/
def bitmapEqual (bitmap1 bitmap2 : Words) (bits : Nat) : Bool :=
  !scan (fun k => bitmap1 k ≠ bitmap2 k) (fun k => bitmap1 k ^^^ bitmap2 k) bits

/-- `__bitmap_subset`. -/
def bitmapSubset (bitmap1 bitmap2 : Words) (bits : Nat) : Bool :=
  !scan (fun k => bitmap1 k &&& ~~~bitmap2 k ≠ 0#32) (fun k => bitmap1 k &&& ~~~bitmap2 k) bits

theorem scan_iff {hit : Nat → Bool} (hhit : ∀ k, hit k = true ↔ word k ≠ 0#32) :
    scan hit word bits = true ↔ ∃ i < bits, bit word i = true := by
  have hfull : (∃ k < bits / 32, word k ≠ 0#32) ↔ ∃ i < 32 * (bits / 32), bit word i = true := by
    rw [← exists_word_iff]
    refine exists_congr fun k => and_congr_right fun _ => ne_zero_iff.trans ?_
    exact exists_congr fun j => and_congr_right fun hj => by rw [bit_word word hj]
  have hlast : word (bits / 32) &&& leftMask (bits % 32) ≠ 0#32 ↔
      ∃ j < bits % 32, bit word (32 * (bits / 32) + j) = true := by
    have hleft : bits % 32 < 32 := Nat.mod_lt _ (by decide)
    rw [ne_zero_iff]
    constructor
    · rintro ⟨j, hj, hset⟩
      rw [BitVec.getLsbD_and, getLsbD_leftMask _ hleft _ hj, Bool.and_eq_true,
        decide_eq_true_iff] at hset
      exact ⟨j, hset.2, by rw [bit_word word hj, hset.1]⟩
    · rintro ⟨j, hj, hset⟩
      rw [bit_word word (by omega)] at hset
      refine ⟨j, by omega, ?_⟩
      rw [BitVec.getLsbD_and, getLsbD_leftMask _ hleft _ (by omega), hset, decide_eq_true hj]
      rfl
  simp only [scan, Bool.or_eq_true, List.any_eq_true, List.mem_range, hhit, decide_eq_true_iff]
  rw [hfull, hlast]
  constructor
  · rintro (⟨i, hi, hset⟩ | ⟨-, j, hj, hset⟩)
    · exact ⟨i, by omega, hset⟩
    · exact ⟨_, by omega, hset⟩
  · rintro ⟨i, hi, hset⟩
    rcases Nat.lt_or_ge i (32 * (bits / 32)) with hlt | hge
    · exact .inl ⟨i, hlt, hset⟩
    · exact .inr ⟨by omega, i - 32 * (bits / 32), by omega, by rwa [Nat.add_sub_cancel' hge]⟩

/-- **Predicates** on bitmaps look at the bits of the bitmap and at no other. -/
theorem bitmap_predicates (a b : Words) (bits : Nat) :
    (bitmapFull a bits = true ↔ ∀ i < bits, bit a i = true) ∧
    (bitmapEqual a b bits = true ↔ ∀ i < bits, bit a i = bit b i) ∧
    (bitmapSubset a b bits = true ↔ ∀ i < bits, bit a i = true → bit b i = true) ∧
    (bitmapIntersects a b bits = true ↔ ∃ i < bits, bit a i = true ∧ bit b i = true) := by
  have hmod : ∀ i, i % 32 < 32 := fun i => Nat.mod_lt _ (by decide)
  refine ⟨?_, ?_, ?_, ?_⟩
  · rw [bitmapFull, Bool.not_eq_true', ← Bool.not_eq_true, scan_iff (by simp)]
    simp [bit, hmod]
  · rw [bitmapEqual, Bool.not_eq_true', ← Bool.not_eq_true, scan_iff (by simp)]
    simp [bit]
  · rw [bitmapSubset, Bool.not_eq_true', ← Bool.not_eq_true, scan_iff (by simp)]
    simp [bit, hmod]
  · rw [show bitmapIntersects a b bits = scan (fun k => a k &&& b k ≠ 0#32)
      (fun k => a k &&& b k) bits from rfl, scan_iff (by simp)]
    simp [bit]

end AimKernel.Libbitmap
