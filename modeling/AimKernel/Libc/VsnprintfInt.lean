import AimKernel.Libc.VsnprintfConcat

/-!
# AimKernel.Libc.VsnprintfInt

The integer conversions of `vsnprintf`: `%d`, `%u`, `%o` and `%x` with a width, the flag `0`
and the modifiers `l` and `ll`.

`Padded` says what such a conversion should print: the usual representation of the value,
padded to the width, with zeros behind the sign under the flag `0` and with spaces in front
of it otherwise. The code tests the flag with `flag | FLAG_ZEROPAD`, which is always true, so
it pads with zeros in any case; and it counts the digits down from the width, so the leading
ones are lost if there are more. What is printed (`text_intFormat_eq`) is therefore right
exactly if no padding is needed and none is missing, or zeros are asked for
(`Representable`).
-/

namespace AimKernel

namespace Vsnprintf

/-! ### Numerals -/

theorem numeral_induction {base : Nat} (hbase : 1 < base) (hle : base ≤ 16)
    {P : Nat → List UInt8 → Prop} (hdigit : ∀ d, d < base → P d [digits d])
    (hnext : ∀ n, base ≤ n → P (n / base) (numeral base (n / base)) →
      P n (numeral base (n / base) ++ [digits (n % base)])) (n : Nat) : P n (numeral base n) := by
  induction n using Nat.strongRecOn with
  | ind n ih =>
    by_cases hlt : n < base
    · rw [numeral_of_lt hlt hle]
      exact hdigit n hlt
    · have hge : base ≤ n := Nat.le_of_not_lt hlt
      rw [numeral_of_le hbase hle hge]
      exact hnext n hge (ih _ (Nat.div_lt_self (by omega) hbase))

/-- The value of a digit. -/
def digitValue (ch : UInt8) : Nat :=
  if isDigit ch then ch.toNat - (byte '0').toNat else ch.toNat - (byte 'a').toNat + 10

/-- The number that a row of digits stands for. -/
def readNat (base : Nat) (num : List UInt8) : Nat :=
  num.foldl (fun n ch => n * base + digitValue ch) 0

/-- The integer that a text stands for: spaces, a sign and digits. -/
def readInt (base : Nat) (out : List UInt8) : Int :=
  match out.dropWhile (· = byte ' ') with
  | [] => 0
  | ch :: num => if ch = byte '-' then -(readNat base num : Int) else readNat base (ch :: num)

theorem digit_facts {d : Nat} (h : d < 16) :
    digitValue (digits d) = d ∧ digits d ≠ byte ' ' ∧ digits d ≠ byte '-' ∧ digits d ≠ 0 := by
  have hall : ∀ d : Fin 16, digitValue (digits d) = d ∧ digits d ≠ byte ' ' ∧
      digits d ≠ byte '-' ∧ digits d ≠ 0 := by decide
  exact hall ⟨d, h⟩

section Base

variable {base : Nat} (hbase : 1 < base) (hle : base ≤ 16)

include hbase hle

theorem readNat_numeral (n : Nat) : readNat base (numeral base n) = n := by
  refine numeral_induction hbase hle (P := fun n num => readNat base num = n) ?_ ?_ n
  · intro d hd
    show 0 * base + digitValue (digits d) = d
    rw [(digit_facts (by omega)).1, Nat.zero_mul, Nat.zero_add]
  · intro n _ ih
    have hmod : n % base < 16 := Nat.lt_of_lt_of_le (Nat.mod_lt n (by omega)) hle
    rw [readNat, List.foldl_append]
    show readNat base (numeral base (n / base)) * base + digitValue (digits (n % base)) = n
    rw [ih, (digit_facts hmod).1, Nat.mul_comm, Nat.div_add_mod]

theorem mem_numeral {n : Nat} {ch : UInt8} (h : ch ∈ numeral base n) :
    ch ≠ byte ' ' ∧ ch ≠ byte '-' ∧ ch ≠ 0 := by
  revert ch
  refine numeral_induction hbase hle
    (P := fun _ num => ∀ {ch}, ch ∈ num → ch ≠ byte ' ' ∧ ch ≠ byte '-' ∧ ch ≠ 0) ?_ ?_ n
  · intro d hd ch hch
    rw [List.mem_singleton.mp hch]
    exact (digit_facts (by omega)).2
  · intro n _ ih ch hch
    rcases List.mem_append.mp hch with hch | hch
    · exact ih hch
    · have hmod : n % base < 16 := Nat.lt_of_lt_of_le (Nat.mod_lt n (by omega)) hle
      rw [List.mem_singleton.mp hch]
      exact (digit_facts hmod).2

end Base

/-! ### The formats -/

/-- The conversions. -/
inductive IntConv
  | d
  | u
  | o
  | x
  deriving Repr, DecidableEq

namespace IntConv

/-- The character of the conversion. -/
def char : IntConv → UInt8
  | d => byte 'd'
  | u => byte 'u'
  | o => byte 'o'
  | x => byte 'x'

/-- The base. -/
def base : IntConv → Nat
  | d | u => 10
  | o => 8
  | x => 16

/-- What the character means. -/
def item : IntConv → Item
  | d => .int
  | u => .uint .dec
  | o => .uint .oct
  | x => .uint .hex

theorem base_bounds (c : IntConv) : 8 ≤ c.base ∧ c.base ≤ 16 := by
  cases c <;> decide

end IntConv

/-- The length modifiers. -/
inductive Length
  | int
  | long
  | longLong
  deriving Repr, DecidableEq

/-- How often `l` is written. -/
def Length.count : Length → Nat
  | .int => 0
  | .long => 1
  | .longLong => 2

/-- The value that a conversion reads from its argument. -/
def IntConv.value (c : IntConv) (longflag : Nat) (a : Arg) : Int :=
  match c with
  | .d => getint longflag a
  | _ => getuint longflag a

/-- A width, as it is written; none for zero. -/
def decimal (w : Nat) : List UInt8 := if w = 0 then [] else numeral 10 w

/-- `%`, the flag `0`, the width and the length modifier. -/
def intLead (zero : Bool) (w : Nat) (len : Length) : List UInt8 :=
  [byte '%'] ++ (if zero then [byte '0'] else []) ++ decimal w ++
    List.replicate len.count (byte 'l')

variable {mode : Mode} {m : Mods} {base w : Nat} {v : Int} {num : List UInt8} {zero : Bool}

theorem zero_notMem_intLead (zero : Bool) (w : Nat) (len : Length) : 0 ∉ intLead zero w len := by
  have hdecimal : 0 ∉ decimal w := by
    unfold decimal
    split
    case isTrue h => exact List.not_mem_nil
    case isFalse h => exact fun hmem => (mem_numeral (by decide) (by decide) hmem).2.2 rfl
  have hzero : 0 ∉ (if zero then [byte '0'] else []) := by cases zero <;> decide
  have hlength : 0 ∉ List.replicate len.count (byte 'l') := by cases len <;> decide
  unfold intLead
  simp only [List.mem_append, not_or]
  exact ⟨⟨⟨by decide, hzero⟩, hdecimal⟩, hlength⟩

/-- The format of one integer conversion. -/
def intFormat (zero : Bool) (w : Nat) (len : Length) (c : IntConv) : CString :=
  ⟨intLead zero w len ++ [c.char], fun h => (List.mem_append.mp h).elim
    (zero_notMem_intLead zero w len) (by cases c <;> decide)⟩

/-! ### What the formats print -/

/-- Bytes of the format that print nothing. -/
structure Scans (mode : Mode) (m : Mods) (fmt : List UInt8) (mode' : Mode) (m' : Mods) : Prop where
  mode_eq : fmt.foldl nextMode mode = mode'
  mods_eq : modsFrom mode m fmt = m'
  text_eq : ∀ args, textFrom args mode m fmt = []

theorem Scans.append {mode' mode'' : Mode} {m' m'' : Mods} {f g : List UInt8}
    (hf : Scans mode m f mode' m') (hg : Scans mode' m' g mode'' m'') :
    Scans mode m (f ++ g) mode'' m'' where
  mode_eq := by rw [List.foldl_append, hf.mode_eq, hg.mode_eq]
  mods_eq := by rw [modsFrom_append, hf.mode_eq, hf.mods_eq, hg.mods_eq]
  text_eq args := by rw [textFrom_append, hf.text_eq, hf.mode_eq, hf.mods_eq, hg.text_eq]; rfl

theorem scans_digit {ch : UInt8} {width : Int} (hitem : Item.of mode ch = .digit)
    (hmode : nextMode mode ch = .digits)
    (hwidth : (m.width * 10 + ((ch.toNat : Int) - (byte '0').toNat)).bmod (2 ^ 32) = width) :
    Scans mode m [ch] .digits { m with width := width } where
  mode_eq := hmode
  mods_eq := by rw [modsFrom, modsFrom, hitem, ← hwidth]; rfl
  text_eq args := by rw [textFrom, textFrom, hitem]; rfl

theorem decimal_digit_facts {d : Nat} (h : d < 10) :
    Item.of .digits (digits d) = .digit ∧ nextMode .digits (digits d) = .digits ∧
      ((digits d).toNat : Int) - (byte '0').toNat = d ∧
      (0 < d → Item.of .spec (digits d) = .digit ∧ nextMode .spec (digits d) = .digits) := by
  have hall : ∀ d : Fin 10, Item.of .digits (digits d) = .digit ∧
      nextMode .digits (digits d) = .digits ∧
      ((digits d).toNat : Int) - (byte '0').toNat = (d : Nat) ∧
      (0 < (d : Nat) → Item.of .spec (digits d) = .digit ∧
        nextMode .spec (digits d) = .digits) := by decide
  exact hall ⟨d, h⟩

theorem scans_numeral (hm : m.width = 0) (hw : 0 < w) :
    Scans .spec m (numeral 10 w) .digits { m with width := (w : Int).bmod (2 ^ 32) } := by
  revert hw
  refine numeral_induction (by decide) (by decide) (P := fun w num => 0 < w →
    Scans .spec m num .digits { m with width := (w : Int).bmod (2 ^ 32) }) ?_ ?_ w
  · intro d hd hpos
    obtain ⟨_, _, hval, hfirst⟩ := decimal_digit_facts hd
    refine scans_digit (hfirst hpos).1 (hfirst hpos).2 ?_
    rw [hval, hm, Int.zero_mul, Int.zero_add]
  · intro w hge ih hpos
    obtain ⟨hitem, hmode, hval, _⟩ := decimal_digit_facts (Nat.mod_lt w (by decide : 0 < 10))
    refine (ih (Nat.div_pos hge (by decide))).append (scans_digit hitem hmode ?_)
    dsimp only
    rw [hval, Int.bmod_def, Int.bmod_def, Int.bmod_def]
    omega

theorem scans_decimal (hm : m.width = 0) (w : Nat) :
    ∃ mode, mode ≠ .plain ∧
      Scans .spec m (decimal w) mode { m with width := (w : Int).bmod (2 ^ 32) } := by
  unfold decimal
  by_cases hw : w = 0
  · subst hw
    have hsame : { m with width := ((0 : Nat) : Int).bmod (2 ^ 32) } = m := by
      have hzero : ((0 : Nat) : Int).bmod (2 ^ 32) = m.width := hm.symm
      rw [hzero]
    rw [if_pos rfl, hsame]
    exact ⟨.spec, by decide, rfl, rfl, fun _ => rfl⟩
  · rw [if_neg hw]
    exact ⟨.digits, by decide, scans_numeral hm (Nat.pos_of_ne_zero hw)⟩

theorem scans_length (hmode : mode ≠ .plain) (width : Int) (flag : Nat) (len : Length) :
    ∃ mode', mode' ≠ .plain ∧
      Scans mode ⟨width, flag, 0, 0⟩ (List.replicate len.count (byte 'l')) mode'
        ⟨width, flag, len.count, 0⟩ := by
  cases mode with
  | plain => exact absurd rfl hmode
  | spec =>
    cases len <;> exact ⟨.spec, by decide, rfl, rfl, fun _ => rfl⟩
  | digits =>
    cases len with
    | int => exact ⟨.digits, by decide, rfl, rfl, fun _ => rfl⟩
    | long | longLong => exact ⟨.spec, by decide, rfl, rfl, fun _ => rfl⟩

/-- What is carried on to the conversion. -/
def intMods (zero : Bool) (w : Nat) (len : Length) : Mods :=
  ⟨(w : Int).bmod (2 ^ 32), if zero then flagZeropad else 0, len.count, 0⟩

theorem scans_intLead (zero : Bool) (w : Nat) (len : Length) :
    ∃ mode, mode ≠ .plain ∧
      Scans .plain .start (intLead zero w len) mode (intMods zero w len) := by
  have hopen : Scans .plain .start [byte '%'] .spec .start := ⟨rfl, rfl, fun _ => rfl⟩
  have hzero : Scans .spec .start (if zero then [byte '0'] else []) .spec
      ⟨0, if zero then flagZeropad else 0, 0, 0⟩ := by
    cases zero with
    | false => exact ⟨rfl, rfl, fun _ => rfl⟩
    | true => exact ⟨rfl, rfl, fun _ => rfl⟩
  obtain ⟨mode, hmode, hwidth⟩ := scans_decimal (m := ⟨0, if zero then flagZeropad else 0, 0, 0⟩) rfl w
  obtain ⟨mode', hmode', hlength⟩ := scans_length hmode ((w : Int).bmod (2 ^ 32))
    (if zero then flagZeropad else 0) len
  exact ⟨mode', hmode', ((hopen.append hzero).append hwidth).append hlength⟩

theorem IntConv.item_of (hmode : mode ≠ .plain) (c : IntConv) :
    Item.of mode c.char = c.item ∧ nextMode mode c.char = .plain := by
  cases mode with
  | plain => exact absurd rfl hmode
  | spec => cases c <;> decide
  | digits => cases c <;> decide

theorem complete_intFormat (zero : Bool) (w : Nat) (len : Length) (c : IntConv) :
    Complete (intFormat zero w len c) := by
  obtain ⟨mode, hmode, hscan⟩ := scans_intLead zero w len
  show (intLead zero w len ++ [c.char]).foldl nextMode .plain = .plain
  rw [List.foldl_append, hscan.mode_eq]
  exact (c.item_of hmode).2

theorem text_intFormat (zero : Bool) (w : Nat) (len : Length) (c : IntConv) (args : Nat → Arg) :
    text (intFormat zero w len c) args = c.item.text args (intMods zero w len) c.char := by
  obtain ⟨mode, hmode, hscan⟩ := scans_intLead zero w len
  show textFrom args .plain .start (intLead zero w len ++ [c.char]) = _
  rw [textFrom_append, hscan.text_eq, hscan.mode_eq, hscan.mods_eq, textFrom, textFrom,
    (c.item_of hmode).1, List.nil_append, List.append_nil]

/-- The sign of a value. -/
def sign (v : Int) : List UInt8 := if v < 0 then [byte '-'] else []

/-- A signed number under a width. -/
def intText (width : Int) (base : Nat) (v : Int) : List UInt8 :=
  if width = 0 then sign v ++ numeral base v.natAbs
  else if width > 0 then sign v ++ squeeze width.toNat (numeral base v.natAbs)
  else []

theorem uintText_eq (hsign : m.flag &&& flagNeg ≠ 0 ↔ v < 0) (base : Nat) :
    uintText m base v.natAbs = intText m.width base v := by
  have hsign' : (if m.flag &&& flagNeg ≠ 0 then [byte '-'] else []) = sign v := by
    unfold sign
    simp only [hsign]
  rw [uintText, hsign']
  rfl

theorem getint_ge (longflag : Nat) (a : Arg) : -(2 ^ 63) ≤ getint longflag a := by
  unfold getint
  have h32 := BitVec.le_toInt (x := a.bits.setWidth 32)
  have h64 := BitVec.le_toInt (x := a.bits)
  split <;> omega

theorem IntConv.natAbs_value_lt (c : IntConv) (longflag : Nat) (a : Arg) :
    (c.value longflag a).natAbs < 2 ^ 64 := by
  have hlo := getint_ge longflag a
  have hhi := getint_lt longflag a
  have hu := getuint_lt longflag a
  cases c with
  | d =>
    show (getint longflag a).natAbs < 2 ^ 64
    omega
  | u | o | x => exact hu

theorem IntConv.item_text (c : IntConv) (hflag : m.flag &&& flagNeg = 0) (args : Nat → Arg)
    (ch : UInt8) :
    c.item.text args m ch = intText m.width c.base (c.value m.longflag (args m.ap)) := by
  have hplus : ¬ m.flag &&& flagNeg ≠ 0 := fun h => h hflag
  have hminus : (m.flag ||| flagNeg) &&& flagNeg ≠ 0 := by
    rw [Nat.and_or_distrib_right, hflag]
    decide
  cases c with
  | d =>
    have hlo := getint_ge m.longflag (args m.ap)
    by_cases hneg : getint m.longflag (args m.ap) < 0
    · have habs : ((-getint m.longflag (args m.ap)) % 2 ^ 64).toNat =
          (getint m.longflag (args m.ap)).natAbs := by omega
      refine (if_pos hneg).trans ?_
      rw [habs]
      exact uintText_eq (iff_of_true hminus hneg) 10
    · have habs : (getint m.longflag (args m.ap)).toNat =
          (getint m.longflag (args m.ap)).natAbs := by omega
      refine (if_neg hneg).trans ?_
      rw [habs]
      exact uintText_eq (iff_of_false hplus hneg) 10
  | u | o | x =>
    exact uintText_eq (v := (getuint m.longflag (args m.ap) : Int))
      (iff_of_false hplus (Int.not_lt.mpr (Int.natCast_nonneg _))) _

theorem text_intFormat_eq (zero : Bool) (w : Nat) (len : Length) (c : IntConv)
    (args : Nat → Arg) :
    text (intFormat zero w len c) args =
      intText ((w : Int).bmod (2 ^ 32)) c.base (c.value len.count (args 0)) := by
  have hflag : (intMods zero w len).flag &&& flagNeg = 0 := by
    dsimp only [intMods]
    cases zero <;> decide
  rw [text_intFormat, c.item_text hflag]
  dsimp only [intMods]

/-! ### What they should print -/

/-- The usual representation of `v`, padded to at least `w` bytes: under the flag `0` with
zeros behind the sign, otherwise with spaces in front of it. -/
def Padded (zero : Bool) (w base : Nat) (v : Int) (out : List UInt8) : Prop :=
  w ≤ out.length ∧ ∃ k,
    out = if zero then sign v ++ (List.replicate k (byte '0') ++ numeral base v.natAbs)
      else List.replicate k (byte ' ') ++ (sign v ++ numeral base v.natAbs)

/-- The number of digits of `v`. -/
def digitCount (base : Nat) (v : Int) : Nat := (numeral base v.natAbs).length

theorem readNat_zeros (base k : Nat) (num : List UInt8) :
    readNat base (List.replicate k (byte '0') ++ num) = readNat base num := by
  induction k with
  | zero => rfl
  | succ k ih =>
    rw [List.replicate_succ, List.cons_append, ← ih]
    unfold readNat
    rw [List.foldl_cons, Nat.zero_mul]
    rfl

theorem readInt_spaces (base k : Nat) (out : List UInt8) :
    readInt base (List.replicate k (byte ' ') ++ out) = readInt base out := by
  induction k with
  | zero => rfl
  | succ k ih =>
    rw [← ih]
    rfl

theorem readInt_sign (hmem : ∀ ch ∈ num, ch ≠ byte ' ' ∧ ch ≠ byte '-')
    (hread : readNat base num = v.natAbs) :
    readInt base (sign v ++ num) = v := by
  unfold sign
  split
  case isTrue hneg =>
    show -(readNat base num : Int) = v
    omega
  case isFalse hpos =>
    have hv : (v.natAbs : Int) = v := by omega
    cases num with
    | nil =>
      have hzero : v.natAbs = 0 := hread.symm
      show (0 : Int) = v
      omega
    | cons ch num =>
      obtain ⟨hspace, hminus⟩ := hmem ch List.mem_cons_self
      rw [List.nil_append, readInt, List.dropWhile_cons_of_neg (by simpa using hspace)]
      dsimp only
      rw [if_neg hminus, hread, hv]

theorem Padded.readInt_eq (hbase : 1 < base) (hle : base ≤ 16) {out : List UInt8}
    (h : Padded zero w base v out) : readInt base out = v := by
  have hmem {ch : UInt8} (hch : ch ∈ numeral base v.natAbs) : ch ≠ byte ' ' ∧ ch ≠ byte '-' :=
    ⟨(mem_numeral hbase hle hch).1, (mem_numeral hbase hle hch).2.1⟩
  obtain ⟨_, k, rfl⟩ := h
  cases zero with
  | true =>
    refine readInt_sign (fun ch hch => ?_) ?_
    · rcases List.mem_append.mp hch with hch | hch
      · rw [(List.mem_replicate.mp hch).2]
        decide
      · exact hmem hch
    · rw [readNat_zeros, readNat_numeral hbase hle]
  | false =>
    refine (readInt_spaces base k _).trans (readInt_sign (fun ch => hmem) ?_)
    exact readNat_numeral hbase hle _

/-- The widths that do no harm: none, or one that is an `int` and not less than the number
of digits, where zeros are asked for or no padding is needed. -/
def Representable (zero : Bool) (w base : Nat) (v : Int) : Prop :=
  w = 0 ∨ (w < 2 ^ 31 ∧ digitCount base v ≤ w ∧ (zero = true ∨ digitCount base v = w))

theorem length_squeeze (w : Nat) (num : List UInt8) : (squeeze w num).length = w := by
  rw [squeeze, List.length_append, List.length_replicate, List.length_drop]
  omega

theorem length_sign (v : Int) : (sign v).length ≤ 1 := by
  unfold sign
  split <;> decide

theorem digitCount_le (hbase : 8 ≤ base) (hv : v.natAbs < 2 ^ 64) :
    digitCount base v ≤ 22 := by
  have hle : (8 : Nat) ^ 22 ≤ base ^ 22 := Nat.pow_le_pow_left hbase 22
  rw [digitCount, numeral, List.length_map]
  exact (Nat.length_toDigits_le_iff (by omega) (by decide)).mpr (by omega)

/-- A conversion prints no more than fits into some buffer; under a width that is no `int`
it prints less than the width. -/
theorem length_intText (hbase : 8 ≤ base) (hv : v.natAbs < 2 ^ 64) :
    (intText ((w : Int).bmod (2 ^ 32)) base v).length ≤ 2 ^ 31 ∧
      (2 ^ 31 ≤ w → (intText ((w : Int).bmod (2 ^ 32)) base v).length < w) := by
  have hsign := length_sign v
  have hdigits : (numeral base v.natAbs).length ≤ 22 := digitCount_le hbase hv
  have hmod := Int.bmod_def (w : Int) (2 ^ 32)
  unfold intText
  split
  case isTrue hzero =>
    rw [List.length_append]
    omega
  case isFalse hzero =>
    split
    case isTrue hpos =>
      rw [List.length_append, length_squeeze]
      omega
    case isFalse hneg =>
      rw [List.length_nil]
      omega

/-- Under a width that is an `int` other than zero. -/
theorem intText_of_lt (hpos : 0 < w) (hw : w < 2 ^ 31) :
    intText ((w : Int).bmod (2 ^ 32)) base v = sign v ++ squeeze w (numeral base v.natAbs) := by
  have hmod : (w : Int).bmod (2 ^ 32) = w := by
    rw [Int.bmod_def]
    omega
  rw [hmod, intText, if_neg (by omega), if_pos (by omega), Int.toNat_natCast]

theorem squeeze_of_le (h : num.length ≤ w) :
    squeeze w num = List.replicate (w - num.length) (byte '0') ++ num := by
  rw [squeeze, Nat.sub_eq_zero_of_le h, List.drop_zero]

theorem space_notMem (hbase : 1 < base) (hle : base ≤ 16) (w : Nat) (v : Int) :
    byte ' ' ∉ sign v ++ squeeze w (numeral base v.natAbs) := by
  intro hmem
  rcases List.mem_append.mp hmem with hsign | hrest
  · unfold sign at hsign
    split at hsign
    case isTrue hneg => exact absurd (List.mem_singleton.mp hsign) (by decide)
    case isFalse hpos => exact absurd hsign List.not_mem_nil
  · rcases List.mem_append.mp hrest with hzero | hnum
    · exact absurd (List.mem_replicate.mp hzero).2 (by decide)
    · exact (mem_numeral hbase hle (List.mem_of_mem_drop hnum)).1 rfl

/-- The right text is printed exactly under a width that does no harm. -/
theorem padded_intText (hbase : 8 ≤ base) (hle : base ≤ 16) (hv : v.natAbs < 2 ^ 64) :
    Padded zero w base v (intText ((w : Int).bmod (2 ^ 32)) base v) ↔
      Representable zero w base v := by
  by_cases hzero : w = 0
  · subst hzero
    refine iff_of_true ⟨Nat.zero_le _, 0, ?_⟩ (.inl rfl)
    cases zero <;> rfl
  by_cases hbig : 2 ^ 31 ≤ w
  · have hshort := (length_intText hbase hv).2 hbig
    refine iff_of_false (fun h => Nat.not_le.mpr hshort h.1) fun h => ?_
    rcases h with h | ⟨h, _⟩
    · exact hzero h
    · omega
  rw [intText_of_lt (Nat.pos_of_ne_zero hzero) (Nat.lt_of_not_le hbig)]
  have hspace := space_notMem (by omega) hle w v
  constructor
  · rintro ⟨_, k, hk⟩
    refine .inr ⟨by omega, ?_⟩
    have hcount := congrArg List.length hk
    cases zero with
    | true =>
      simp only [if_true, List.length_append, List.length_replicate, length_squeeze] at hcount
      exact ⟨by rw [digitCount]; omega, .inl rfl⟩
    | false =>
      -- a space in front would be a byte of the text
      have hk0 : k = 0 := by
        by_contra hne
        refine hspace (hk ▸ List.mem_append_left _ (List.mem_replicate.mpr ⟨hne, rfl⟩))
      simp only [Bool.false_eq_true, if_false, List.length_append, List.length_replicate,
        length_squeeze, hk0] at hcount
      exact ⟨by rw [digitCount]; omega, .inr (by rw [digitCount]; omega)⟩
  · rintro (h | ⟨_, hfits, hpad⟩)
    · exact absurd h hzero
    · have hlen : (sign v ++ squeeze w (numeral base v.natAbs)).length = (sign v).length + w := by
        rw [List.length_append, length_squeeze]
      refine ⟨by omega, w - digitCount base v, ?_⟩
      rw [squeeze_of_le hfits]
      cases zero with
      | true => rfl
      | false =>
        have hexact : digitCount base v = w := hpad.resolve_left (by decide)
        have hnone : (numeral base v.natAbs).length = w := hexact
        rw [hexact, hnone, Nat.sub_self]
        rfl

/-- The integer conversions: in every buffer that is large enough the same text is printed,
and that text is the usual representation of the value, padded to the width, and read
back as the value, exactly if the width does no harm. -/
theorem int_conversions (zero : Bool) (w : Nat) (len : Length) (c : IntConv) (a : Arg) :
    ∃ out : List UInt8, out.length + 2 < 2 ^ 32 ∧
      (∀ size str, out.length + 1 < size → size < 2 ^ 32 →
        Formats size str (intFormat zero w len c) [a] out) ∧
      (Padded zero w c.base (c.value len.count a) out ∧
          readInt c.base out = c.value len.count a ↔
        Representable zero w c.base (c.value len.count a)) := by
  obtain ⟨hbase, hle⟩ := c.base_bounds
  have hv := c.natAbs_value_lt len.count a
  have htext := text_intFormat_eq zero w len c (supply [a])
  refine ⟨text (intFormat zero w len c) (supply [a]), ?_, fun size str hroom hsize => ?_, ?_⟩
  · have hlength := (length_intText (w := w) hbase hv).1
    rw [htext]
    show (intText ((w : Int).bmod (2 ^ 32)) c.base (c.value len.count a)).length + 2 < 2 ^ 32
    omega
  · exact (formats_iff hsize hroom).mpr ⟨complete_intFormat zero w len c, rfl⟩
  · rw [htext, ← padded_intText hbase hle hv]
    exact ⟨fun h => h.1, fun h => ⟨h, h.readInt_eq (by omega) hle⟩⟩

/-- `"%1d"` loses a digit of 42, and `"%5d"` pads it with zeros. -/
theorem int_conversions_lose_digits :
    shown (vsnprintf 16 (intFormat false 1 .int .d) (supply [⟨42, none⟩]) fun _ => 1) =
        .ok (['2'].map byte) ∧
      shown (vsnprintf 16 (intFormat false 5 .int .d) (supply [⟨42, none⟩]) fun _ => 1) =
        .ok (['0', '0', '0', '4', '2'].map byte) := by
  decide +kernel

end Vsnprintf

end AimKernel
