import Mathlib.Data.List.Basic

/-!
# AimKernel.Lib.CString

NUL-terminated strings, as the bytes in front of the NUL, with `strcmp` and `strlcpy`.
-/

namespace AimKernel

/-- The bytes of a string up to its NUL. -/
structure CString where
  bytes : List UInt8
  noNul : 0 ∉ bytes
  deriving DecidableEq

namespace CString

/-- The loop of `strcmp`: the difference of the first two bytes that differ, where the
byte after the end is the NUL. -/
def strcmpLoop : List UInt8 → List UInt8 → Int
  | [], [] => 0
  | [], b :: _ => 0 - (b.toNat : Int)
  | a :: _, [] => (a.toNat : Int)
  | a :: s, b :: t => if a = b then strcmpLoop s t else (a.toNat : Int) - b.toNat

/-- `strcmp`. -/
def strcmp (s t : CString) : Int := strcmpLoop s.bytes t.bytes

/-- `strlcpy(dst, src, size)` for `0 < size`: what `dst` holds afterwards. -/
def strlcpy (src : CString) (size : Nat) : CString :=
  ⟨src.bytes.take (size - 1), fun h => src.noNul (List.mem_of_mem_take h)⟩

/-- Two strings in a row. -/
def append (s t : CString) : CString :=
  ⟨s.bytes ++ t.bytes, fun h => (List.mem_append.mp h).elim s.noNul t.noNul⟩

theorem strcmpLoop_eq_zero {s t : List UInt8} (hs : 0 ∉ s) (ht : 0 ∉ t) :
    strcmpLoop s t = 0 ↔ s = t := by
  induction s generalizing t with
  | nil =>
    cases t with
    | nil => simp [strcmpLoop]
    | cons b t =>
      have hb : b.toNat ≠ 0 := by
        intro h
        exact ht (by simp [show b = 0 from UInt8.toNat_inj.mp h])
      simp only [strcmpLoop, reduceCtorEq, iff_false]
      omega
  | cons a s ih =>
    cases t with
    | nil =>
      have ha : a.toNat ≠ 0 := by
        intro h
        exact hs (by simp [show a = 0 from UInt8.toNat_inj.mp h])
      simp only [strcmpLoop, reduceCtorEq, iff_false]
      omega
    | cons b t =>
      rw [strcmpLoop]
      split
      next hab =>
        subst hab
        rw [ih (fun h => hs (by simp [h])) fun h => ht (by simp [h])]
        simp
      next hab =>
        have hne : a.toNat ≠ b.toNat := fun h => hab (UInt8.toNat_inj.mp h)
        simp only [List.cons.injEq, hab, false_and, iff_false]
        omega

@[simp] theorem strcmp_eq_zero {s t : CString} : s.strcmp t = 0 ↔ s = t := by
  unfold strcmp
  rw [strcmpLoop_eq_zero s.noNul t.noNul]
  constructor
  · intro h
    cases s
    cases t
    simpa using h
  · rintro rfl
    rfl

theorem strlcpy_of_lt {src : CString} {size : Nat} (h : src.bytes.length < size) :
    src.strlcpy size = src := by
  cases src
  simp only [strlcpy, mk.injEq]
  exact List.take_of_length_le (Nat.le_sub_one_of_lt h)

end CString

end AimKernel
