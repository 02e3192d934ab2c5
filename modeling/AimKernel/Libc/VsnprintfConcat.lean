import AimKernel.Libc.VsnprintfText
import Mathlib.Data.List.GetD

/-!
# AimKernel.Libc.VsnprintfConcat

Formats in a row: what a conversion prints and what precedes it.

The text of `f g` is the text of `f`, followed by the text of `g` read with what the
scanner carries on behind `f` (`text_append`). Of that, only the width, the length modifier
and the sign matter (`Mods.Alike`), and the sign never stays. The other two do stay: a byte
that is no conversion is printed without the reset of `flag` and `width`, and only the
integer conversions reset `longflag`. So the text of a concatenation is the concatenation
of the texts exactly if `f` leaves neither (`Clean`).
-/

namespace AimKernel

namespace Vsnprintf

/-! ### The text of a concatenation -/

theorem modsFrom_append (mode : Mode) (m : Mods) (f g : List UInt8) :
    modsFrom mode m (f ++ g) = modsFrom (f.foldl nextMode mode) (modsFrom mode m f) g := by
  induction f generalizing mode m with
  | nil => rfl
  | cons ch f ih => exact ih _ _

theorem textFrom_append (args : Nat → Arg) (mode : Mode) (m : Mods) (f g : List UInt8) :
    textFrom args mode m (f ++ g) =
      textFrom args mode m f ++ textFrom args (f.foldl nextMode mode) (modsFrom mode m f) g := by
  induction f generalizing mode m with
  | nil => rfl
  | cons ch f ih =>
    rw [List.cons_append, textFrom, textFrom, ih, List.append_assoc]
    rfl

/-- What the scanner carries on behind the format. -/
def leftover (fmt : CString) : Mods := modsFrom .plain .start fmt.bytes

/-- The number of arguments the format takes. -/
def taken (fmt : CString) : Nat := (leftover fmt).ap

theorem text_append {f : CString} (hf : Complete f) (g : CString) (args : Nat → Arg) :
    text (f.append g) args = text f args ++ textFrom args .plain (leftover f) g.bytes := by
  rw [text, CString.append, textFrom_append,
    show f.bytes.foldl nextMode .plain = .plain from hf]
  rfl

theorem complete_append {f g : CString} (hf : Complete f) :
    Complete (f.append g) ↔ Complete g := by
  unfold Complete CString.append
  rw [List.foldl_append, show f.bytes.foldl nextMode .plain = .plain from hf]

/-! ### What a text depends on -/

/-- The number of arguments an item takes. -/
def Item.takes : Item → Nat
  | .int | .uint _ | .ptr | .char | .str => 1
  | _ => 0

theorem Mods.next_ap (m : Mods) (ch : UInt8) (item : Item) :
    (m.next ch item).ap = m.ap + item.takes := by
  cases item <;> rfl

theorem le_modsFrom_ap (mode : Mode) (m : Mods) (fmt : List UInt8) :
    m.ap ≤ (modsFrom mode m fmt).ap := by
  induction fmt generalizing mode m with
  | nil => exact Nat.le_refl _
  | cons ch fmt ih =>
    have hnext := m.next_ap ch (.of mode ch)
    have hrest := ih (nextMode mode ch) (m.next ch (.of mode ch))
    rw [modsFrom]
    omega

/-- Equal in what a text can show. -/
structure Mods.Alike (m m' : Mods) : Prop where
  width : m.width = m'.width
  longflag : m.longflag = m'.longflag
  sign : m.flag &&& flagNeg = m'.flag &&& flagNeg

namespace Mods.Alike

variable {m m' : Mods}

theorem or_flag (h : m.flag &&& flagNeg = m'.flag &&& flagNeg) (flag : Nat) :
    (m.flag ||| flag) &&& flagNeg = (m'.flag ||| flag) &&& flagNeg := by
  rw [Nat.and_or_distrib_right, Nat.and_or_distrib_right, h]

theorem next (h : m.Alike m') (ch : UInt8) (item : Item) :
    (m.next ch item).Alike (m'.next ch item) := by
  have hsign := or_flag h.sign flagZeropad
  cases item with
  | plain | opening | other => exact h
  | long => exact ⟨h.width, congrArg (· + 1) h.longflag, h.sign⟩
  | int | uint r | ptr => exact ⟨rfl, rfl, rfl⟩
  | char | str => exact ⟨rfl, h.longflag, rfl⟩
  | percent => exact ⟨rfl, h.longflag, rfl⟩
  | zero => exact ⟨h.width, h.longflag, hsign⟩
  | digit => exact ⟨by simp only [Mods.next, h.width], h.longflag, h.sign⟩

theorem uintText_eq (h : m.Alike m') (base uval : Nat) :
    uintText m base uval = uintText m' base uval := by
  unfold uintText
  rw [h.width, h.sign]

theorem item_text_eq (h : m.Alike m') {args args' : Nat → Arg} (ch : UInt8) {item : Item}
    (hargs : 0 < item.takes → args m.ap = args' m'.ap) :
    item.text args m ch = item.text args' m' ch := by
  cases item with
  | plain | opening | long | percent | zero | digit | other => rfl
  | int =>
    have hneg : (Mods.mk m.width (m.flag ||| flagNeg) m.longflag m.ap).Alike
        (Mods.mk m'.width (m'.flag ||| flagNeg) m'.longflag m'.ap) :=
      ⟨h.width, h.longflag, or_flag h.sign flagNeg⟩
    have hval : getint m.longflag (args m.ap) = getint m'.longflag (args' m'.ap) := by
      rw [hargs Nat.one_pos, h.longflag]
    simp only [Item.text, hval, h.uintText_eq, hneg.uintText_eq]
  | uint r => simp only [Item.text, hargs Nat.one_pos, h.longflag, h.uintText_eq]
  | ptr =>
    have hptr : (Mods.mk 8 (m.flag ||| flagZeropad) m.longflag m.ap).Alike
        (Mods.mk 8 (m'.flag ||| flagZeropad) m'.longflag m'.ap) :=
      ⟨rfl, h.longflag, or_flag h.sign flagZeropad⟩
    simp only [Item.text, hargs Nat.one_pos, hptr.uintText_eq]
  | char => simp only [Item.text, hargs Nat.one_pos]
  | str => simp only [Item.text, hargs Nat.one_pos, h.width]

/-- A text depends on the arguments the format takes and on what is alike. -/
theorem textFrom_eq (h : m.Alike m') {args args' : Nat → Arg} {mode : Mode} {fmt : List UInt8}
    (hargs : ∀ i, m.ap + i < (modsFrom mode m fmt).ap → args (m.ap + i) = args' (m'.ap + i)) :
    textFrom args mode m fmt = textFrom args' mode m' fmt := by
  induction fmt generalizing mode m m' with
  | nil => rfl
  | cons ch fmt ih =>
    have hnext := m.next_ap ch (.of mode ch)
    have hnext' := m'.next_ap ch (.of mode ch)
    have hrest := le_modsFrom_ap (nextMode mode ch) (m.next ch (.of mode ch)) fmt
    rw [textFrom, textFrom, h.item_text_eq ch, ih (h.next ch _)]
    · intro i hi
      have harg := hargs ((Item.of mode ch).takes + i) (by rw [modsFrom]; omega)
      rwa [← Nat.add_assoc, ← Nat.add_assoc, ← hnext, ← hnext'] at harg
    · intro htakes
      exact hargs 0 (by rw [modsFrom]; omega)

end Mods.Alike

variable {a : List Arg} {f : CString} {str : Nat → UInt8} {out : List UInt8}

theorem modsFrom_sign {mode : Mode} {m : Mods} (fmt : List UInt8) (h : m.flag &&& flagNeg = 0) :
    (modsFrom mode m fmt).flag &&& flagNeg = 0 := by
  induction fmt generalizing mode m with
  | nil => exact h
  | cons ch fmt ih =>
    refine ih ?_
    cases Item.of mode ch with
    | zero =>
      show (m.flag ||| flagZeropad) &&& flagNeg = 0
      rw [Nat.and_or_distrib_right, h]
      rfl
    | plain | opening | other | long | digit => exact h
    | int | uint r | ptr | char | str | percent => exact Nat.zero_and _

/-! ### Lists of arguments -/

/-- The arguments of a list. -/
def supply (a : List Arg) (i : Nat) : Arg := a.getD i ⟨0, none⟩

theorem supply_append_left (b : List Arg) {i : Nat} (h : i < a.length) :
    supply (a ++ b) i = supply a i := List.getD_append _ _ _ _ h

theorem supply_append_right (a b : List Arg) (i : Nat) :
    supply (a ++ b) (a.length + i) = supply b i := by
  rw [supply, List.getD_append_right _ _ _ _ (Nat.le_add_right ..), Nat.add_sub_cancel_left]
  rfl

/-- The part of the text that `f` prints takes its own arguments only. -/
theorem text_supply_append (b : List Arg) (ha : a.length = taken f) :
    text f (supply (a ++ b)) = text f (supply a) := by
  refine Mods.Alike.textFrom_eq ⟨rfl, rfl, rfl⟩ fun i hi => ?_
  refine supply_append_left b ?_
  rw [ha]
  exact hi

/-- The format leaves no width and no length modifier behind. -/
def Clean (fmt : CString) : Prop := (leftover fmt).width = 0 ∧ (leftover fmt).longflag = 0

instance (fmt : CString) : Decidable (Clean fmt) := inferInstanceAs (Decidable (_ ∧ _))

/-- Behind a clean format, `g` prints what it prints alone. -/
theorem Clean.textFrom_eq (hclean : Clean f) (ha : a.length = taken f) (g : CString)
    (b : List Arg) :
    textFrom (supply (a ++ b)) .plain (leftover f) g.bytes = text g (supply b) := by
  have halike : (leftover f).Alike .start :=
    ⟨hclean.1, hclean.2, modsFrom_sign f.bytes (Nat.zero_and _)⟩
  refine halike.textFrom_eq fun i _ => ?_
  have hap : (leftover f).ap = a.length := ha.symm
  rw [hap, supply_append_right, show Mods.start.ap = 0 from rfl, Nat.zero_add]

/-! ### In a large enough buffer -/

/-- In the buffer `str` of `size` bytes, formatting yields the text `out`. -/
def Formats (size : Nat) (str : Nat → UInt8) (fmt : CString) (args : List Arg)
    (out : List UInt8) : Prop :=
  ∃ str', vsnprintf size fmt (supply args) str = .ok ((out.length : Int).bmod (2 ^ 32), str') ∧
    Shows str' out

theorem Shows.unique {out' : List UInt8} (h : Shows str out) (h' : Shows str out')
    (hlen : out.length = out'.length) : out = out' := by
  refine List.ext_getElem hlen fun i hi hi' => ?_
  rw [← h.1 i hi, h'.1 i hi']

theorem bmod_inj {n m : Nat} (hn : n < 2 ^ 32) (hm : m < 2 ^ 32)
    (h : (n : Int).bmod (2 ^ 32) = (m : Int).bmod (2 ^ 32)) : n = m := by
  rw [Int.bmod_def, Int.bmod_def] at h
  omega

/-- In a buffer with room for it, a format yields its text and nothing else; one that ends
inside a conversion specification yields nothing. -/
theorem formats_iff {size : Nat} {fmt : CString} {args : List Arg} (hsize : size < 2 ^ 32)
    (hroom : out.length + 1 < size) :
    Formats size str fmt args out ↔ Complete fmt ∧ out = text fmt (supply args) := by
  have hpos : 1 ≤ size := by omega
  -- a full buffer returns `size`, which is not the length of `out`
  have hfull : ¬ (size : Int).bmod (2 ^ 32) = (out.length : Int).bmod (2 ^ 32) := by
    intro h
    have heq := bmod_inj hsize (by omega) h
    omega
  constructor
  · rintro ⟨str', hrun, hshows⟩
    by_cases hfmt : Complete fmt
    · refine ⟨hfmt, ?_⟩
      rw [vsnprintf_complete hpos hsize hfmt] at hrun
      by_cases hfits : (text fmt (supply args)).length + 1 < size
      · rw [if_pos hfits] at hrun
        obtain ⟨hlen, rfl⟩ := Prod.mk.inj (Except.ok.inj hrun)
        exact hshows.unique (shows_writeFrom _ _) (bmod_inj (by omega) (by omega) hlen.symm)
      · rw [if_neg hfits] at hrun
        exact absurd (Prod.mk.inj (Except.ok.inj hrun)).1 hfull
    · rw [vsnprintf_incomplete hpos hsize hfmt] at hrun
      split at hrun
      case isTrue hfits => exact absurd hrun (by simp)
      case isFalse hfits => exact absurd (Prod.mk.inj (Except.ok.inj hrun)).1 hfull
  · rintro ⟨hfmt, rfl⟩
    refine ⟨_, ?_, shows_writeFrom str _⟩
    rw [vsnprintf_complete hpos hsize hfmt, if_pos hroom]

/-- Behind `f` with the arguments `a`, every format `g` yields what it yields alone, in
every buffer that is large enough for both. -/
def Independent (f : CString) (a : List Arg) : Prop :=
  ∀ (g : CString) (b : List Arg) (size : Nat) (str : Nat → UInt8) (out out' : List UInt8),
    b.length = taken g → out.length + out'.length + 1 < size → size < 2 ^ 32 →
    Formats size str f a out → Formats size str g b out' →
    Formats size str (f.append g) (a ++ b) (out ++ out')

theorem Clean.independent (hclean : Clean f) (ha : a.length = taken f) : Independent f a := by
  intro g b size str out out' _ hroom hsize hf hg
  have hlen : (out ++ out').length = out.length + out'.length := List.length_append
  obtain ⟨hcomplete, rfl⟩ := (formats_iff hsize (by omega)).mp hf
  obtain ⟨hcomplete', rfl⟩ := (formats_iff hsize (by omega)).mp hg
  refine (formats_iff hsize (by omega)).mpr ⟨(complete_append hcomplete).mpr hcomplete', ?_⟩
  rw [text_append hcomplete, text_supply_append b ha, hclean.textFrom_eq ha]

section Leftovers

variable {f : CString} {a : List Arg}

/-- What independence says about the text of a format that prints at most one byte. -/
theorem Independent.textFrom_eq (h : Independent f a) (hf : Complete f) (ha : a.length = taken f)
    (hroom : (text f (supply a)).length + 3 < 2 ^ 32) {g : CString} {b : List Arg}
    (hg : Complete g) (hb : b.length = taken g) (hone : (text g (supply b)).length ≤ 1) :
    textFrom (supply (a ++ b)) .plain (leftover f) g.bytes = text g (supply b) := by
  have hlen : (text f (supply a) ++ text g (supply b)).length =
      (text f (supply a)).length + (text g (supply b)).length := List.length_append
  have hboth := h g b ((text f (supply a)).length + 3) (fun _ => 0) _ _ hb (by omega) hroom
    ((formats_iff hroom (by omega)).mpr ⟨hf, rfl⟩) ((formats_iff hroom (by omega)).mpr ⟨hg, rfl⟩)
  have htext := ((formats_iff hroom (by omega)).mp hboth).2
  rw [text_append hf, text_supply_append b ha] at htext
  exact (List.append_cancel_left htext).symm

theorem supply_leftover (ha : a.length = taken f) (arg : Arg) :
    supply (a ++ [arg]) (leftover f).ap = arg := by
  have hap : (leftover f).ap = a.length + 0 := ha.symm
  rw [hap, supply_append_right]
  rfl

/-- A width that stays pads an empty string, or hides a number if it is negative. -/
theorem Independent.width_eq_zero (h : Independent f a) (hf : Complete f)
    (ha : a.length = taken f) (hroom : (text f (supply a)).length + 3 < 2 ^ 32) :
    (leftover f).width = 0 := by
  have hstr : Item.str.text (supply (a ++ [⟨0, some ⟨[], by decide⟩⟩])) (leftover f) (byte 's') =
      [] := by
    have heq := h.textFrom_eq hf ha hroom (g := ⟨['%', 's'].map byte, by decide⟩)
      (b := [⟨0, some ⟨[], by decide⟩⟩]) (by decide) (by decide) (by decide)
    exact (List.append_nil _).symm.trans heq
  have hint : Item.int.text (supply (a ++ [⟨0, none⟩])) (leftover f) (byte 'd') = [byte '0'] := by
    have heq := h.textFrom_eq hf ha hroom (g := ⟨['%', 'd'].map byte, by decide⟩)
      (b := [⟨0, none⟩]) (by decide) (by decide) (by decide)
    exact (List.append_nil _).symm.trans heq
  have hnonpos : (leftover f).width ≤ 0 := by
    simp only [Item.text, supply_leftover ha] at hstr
    simpa using hstr
  have hnonneg : ¬ (leftover f).width < 0 := by
    intro hneg
    have hzero : getint (leftover f).longflag ⟨0, none⟩ = 0 := by
      unfold getint
      split <;> rfl
    simp only [Item.text, supply_leftover ha, hzero] at hint
    simp [uintText, Int.ne_of_lt hneg, Int.not_lt.mpr (Int.le_of_lt hneg)] at hint
  omega

/-- A length modifier that stays makes a `long` a `long long`. -/
theorem Independent.longflag_eq_zero (h : Independent f a) (hf : Complete f)
    (ha : a.length = taken f) (hroom : (text f (supply a)).length + 3 < 2 ^ 32) :
    (leftover f).longflag = 0 := by
  have hwidth := h.width_eq_zero hf ha hroom
  have hlong : Item.int.text (supply (a ++ [⟨2 ^ 32, none⟩]))
      { leftover f with longflag := (leftover f).longflag + 1 } (byte 'd') = [byte '0'] := by
    have heq := h.textFrom_eq hf ha hroom (g := ⟨['%', 'l', 'd'].map byte, by decide⟩)
      (b := [⟨2 ^ 32, none⟩]) (by decide) (by decide) (by decide)
    exact (List.append_nil _).symm.trans heq
  by_contra hne
  have hval : getint ((leftover f).longflag + 1) ⟨2 ^ 32, none⟩ = 2 ^ 32 := by
    unfold getint
    rw [if_neg (by omega)]
    rfl
  have hlen : (numeral 10 4294967296).length = 10 := by decide
  simp only [Item.text, supply_leftover ha, hval] at hlong
  have hcount := congrArg List.length hlong
  simp [uintText, hwidth] at hcount
  omega

end Leftovers

/-- What a format prints does not depend on what precedes it, exactly as long as that
leaves no width and no length modifier behind. (A format with a text for which there is no
larger buffer is not followed by anything.) -/
theorem conversions_independent {f : CString} {a : List Arg} (hf : Complete f)
    (ha : a.length = taken f) :
    (Clean f → Independent f a) ∧
      ((text f (supply a)).length + 3 < 2 ^ 32 → Independent f a → Clean f) :=
  ⟨fun hclean => hclean.independent ha, fun hroom h =>
    ⟨h.width_eq_zero hf ha hroom, h.longflag_eq_zero hf ha hroom⟩⟩

/-- Behind `"%5d"`. -/
theorem conversions_independent_d :
    Independent ⟨['%', '5', 'd'].map byte, by decide⟩ [⟨42, none⟩] :=
  (conversions_independent (by decide) (by decide)).1 (by decide)

/-- The bytes that were printed. -/
def shown (r : Except Fault (Int × (Nat → UInt8))) : Except Fault (List UInt8) :=
  r.map fun r => (List.range r.1.toNat).map r.2

/-- Behind `"%5z"` the width is still there: `"%d"` prints 42 with three zeros. -/
theorem conversions_dependent :
    shown (vsnprintf 16 ⟨['%', '5', 'z'].map byte, by decide⟩ (supply []) fun _ => 1) =
        .ok (['%', 'z'].map byte) ∧
      shown (vsnprintf 16 ⟨['%', 'd'].map byte, by decide⟩ (supply [⟨42, none⟩]) fun _ => 1) =
        .ok (['4', '2'].map byte) ∧
      shown (vsnprintf 16 (CString.append ⟨['%', '5', 'z'].map byte, by decide⟩
          ⟨['%', 'd'].map byte, by decide⟩) (supply ([] ++ [⟨42, none⟩])) fun _ => 1) =
        .ok (['%', 'z', '0', '0', '0', '4', '2'].map byte) := by
  decide +kernel

end Vsnprintf

end AimKernel
