import AimKernel.Lib.Wp
import Mathlib.Logic.Function.Basic

/-!
# AimKernel.Lib.BoundedOutput

Functions that print into a buffer of `size` bytes and return early when it is full.

A `Sink` says where the state of such a function keeps its buffer and its position.
`k.Prints size x s out a t` says that the piece `x` prints exactly the bytes `out`: if they
leave room for another byte it goes on with the value `a` in the state `t`, and otherwise
it leaves the function with `size` and the bytes that fit, the last one replaced by a NUL
(`cut`). Pieces compose along `++`, whatever of the text fits, so that what a function
prints can be said without speaking about positions.
-/

namespace AimKernel

/-- The buffer `str` after the bytes `out` were written from `pos` on. -/
def writeFrom (str : Nat → UInt8) (pos : Nat) : List UInt8 → Nat → UInt8
  | [] => str
  | ch :: out => writeFrom (Function.update str pos ch) (pos + 1) out

/-- The buffer of `size` bytes after as much of `out` was written from `pos` on as fits. -/
def cut (size : Nat) (str : Nat → UInt8) (pos : Nat) (out : List UInt8) : Nat → UInt8 :=
  Function.update (writeFrom str pos (out.take (size - pos))) (size - 1) 0

theorem writeFrom_append (str : Nat → UInt8) (pos : Nat) (out out' : List UInt8) :
    writeFrom str pos (out ++ out') = writeFrom (writeFrom str pos out) (pos + out.length) out' := by
  induction out generalizing str pos with
  | nil => rfl
  | cons ch out ih =>
    rw [List.cons_append, writeFrom, writeFrom, ih, List.length_cons, Nat.add_assoc,
      Nat.add_comm 1]

theorem writeFrom_of_lt {str : Nat → UInt8} {pos i : Nat} (out : List UInt8) (h : i < pos) :
    writeFrom str pos out i = str i := by
  induction out generalizing str pos with
  | nil => rfl
  | cons ch out ih =>
    rw [writeFrom, ih (Nat.lt_succ_of_lt h)]
    exact Function.update_of_ne (Nat.ne_of_lt h) ..

theorem writeFrom_of_le {str : Nat → UInt8} {pos i : Nat} {out : List UInt8}
    (h : pos + out.length ≤ i) : writeFrom str pos out i = str i := by
  induction out generalizing str pos with
  | nil => rfl
  | cons ch out ih =>
    rw [List.length_cons] at h
    rw [writeFrom, ih (by omega)]
    exact Function.update_of_ne (by omega) ..

theorem writeFrom_getElem {str : Nat → UInt8} {pos i : Nat} {out : List UInt8}
    (h : i < out.length) : writeFrom str pos out (pos + i) = out[i] := by
  induction out generalizing str pos i with
  | nil => exact absurd h (Nat.not_lt_zero i)
  | cons ch out ih =>
    cases i with
    | zero =>
      exact (writeFrom_of_lt out (Nat.lt_succ_self pos)).trans (Function.update_self ..)
    | succ i =>
      rw [writeFrom, ← Nat.add_assoc, Nat.add_right_comm]
      exact ih (Nat.lt_of_succ_lt_succ h)

/-- Where a state keeps the buffer and the position in it. -/
structure Sink (σ : Type) where
  str : σ → Nat → UInt8
  pos : σ → Nat

namespace Sink

open Early

variable {σ ε α β : Type} {k : Sink σ} {size : Nat}

/-- From `s`, the piece prints `out` and goes on with `a` in `t`, or fills the buffer. -/
structure Prints (k : Sink σ) (size : Nat) (x : Early σ ε Nat α) (s : σ) (out : List UInt8)
    (a : α) (t : σ) : Prop where
  pos_eq : k.pos t = k.pos s + out.length
  str_eq : k.str t = writeFrom (k.str s) (k.pos s) out
  run_fits : k.pos s + out.length < size → x.run s = .ok (.ok a, t)
  run_full : k.pos s < size → size ≤ k.pos s + out.length →
    ∃ u, x.run s = .ok (.error size, u) ∧ k.str u = cut size (k.str s) (k.pos s) out

theorem prints_silent {x : Early σ ε Nat α} {s t : σ} {a : α} (hrun : x.run s = .ok (.ok a, t))
    (hstr : k.str t = k.str s) (hpos : k.pos t = k.pos s) : k.Prints size x s [] a t where
  pos_eq := hpos
  str_eq := hstr
  run_fits _ := hrun
  run_full hlt hle := absurd hlt (Nat.not_lt.mpr hle)

theorem prints_pure (a : α) (s : σ) : k.Prints size (pure a : Early σ ε Nat α) s [] a s :=
  prints_silent rfl rfl rfl

theorem prints_ofExcept {e : Except ε α} {a : α} (s : σ) (h : e = .ok a) :
    k.Prints size (ofExcept e : Early σ ε Nat α) s [] a s := by
  rw [h]
  exact prints_pure a s

theorem prints_get (s : σ) : k.Prints size (get : Early σ ε Nat σ) s [] s s :=
  prints_silent rfl rfl rfl

theorem Prints.bind {x : Early σ ε Nat α} {f : α → Early σ ε Nat β} {s t u : σ} {a : α} {b : β}
    {out out' : List UInt8} (hx : k.Prints size x s out a t)
    (hf : k.Prints size (f a) t out' b u) : k.Prints size (x >>= f) s (out ++ out') b u := by
  have hpos := hx.pos_eq
  have hpos' := hf.pos_eq
  have hlen : (out ++ out').length = out.length + out'.length := List.length_append
  have hgo : k.pos s + out.length < size → (x >>= f).run s = (f a).run t := by
    intro hfits
    exact run_bind_of_ok (hx.run_fits hfits)
  refine ⟨by omega, ?_, fun hfits => ?_, fun hlt hfull => ?_⟩
  · rw [hf.str_eq, hx.str_eq, hpos, writeFrom_append]
  · rw [hgo (by omega)]
    exact hf.run_fits (by omega)
  · by_cases hfirst : k.pos s + out.length < size
    · -- the first piece fits, the second one fills the buffer
      obtain ⟨v, hrun, hstr⟩ := hf.run_full (by omega) (by omega)
      refine ⟨v, (hgo hfirst).trans hrun, ?_⟩
      have htake : (out ++ out').take (size - k.pos s) = out ++ out'.take (size - k.pos t) := by
        rw [List.take_append, List.take_of_length_le (by omega), hpos, Nat.sub_add_eq]
      rw [hstr, cut, cut, htake, writeFrom_append, hx.str_eq, hpos]
    · obtain ⟨v, hrun, hstr⟩ := hx.run_full hlt (by omega)
      refine ⟨v, run_bind_of_error hrun, ?_⟩
      rw [hstr, cut, cut, List.take_append_of_le_length (by omega)]

/-- A piece followed by one that prints nothing. -/
theorem Prints.bind_silent {x : Early σ ε Nat α} {f : α → Early σ ε Nat β} {s t u : σ} {a : α}
    {b : β} {out : List UInt8} (hx : k.Prints size x s out a t)
    (hf : k.Prints size (f a) t [] b u) : k.Prints size (x >>= f) s out b u := by
  have h := hx.bind hf
  rwa [List.append_nil] at h

end Sink

end AimKernel
