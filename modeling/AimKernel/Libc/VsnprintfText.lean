import AimKernel.Lib.BoundedOutput
import AimKernel.Libc.Vsnprintf

/-!
# AimKernel.Libc.VsnprintfText

The text of a format, and what `vsnprintf` makes of it.

`text fmt args` is what the format stands for with these arguments, without a buffer. Each
byte of the format has a meaning that depends on where the walk stands (`Item`), prints a
piece of text (`Item.text`) and changes what the scanner carries on (`Mods`). Every piece of
`vsnprintf` prints the text of its item (`Prints`, with the full buffer as its other
outcome), so the whole function is described by two equations: one for formats that do not
end inside a conversion specification (`vsnprintf_complete`) and one for those that do
(`vsnprintf_incomplete`).

What the function returns, and when it reads behind the NUL of the format, is read off
these equations.
-/

namespace AimKernel

namespace Vsnprintf

open Early Sink

/-! ### What a byte of the format means -/

/-- The bases of the unsigned conversions. -/
inductive Radix
  | oct
  | dec
  | hex
  deriving Repr, DecidableEq

/-- The base. -/
def Radix.base : Radix → Nat
  | .oct => 8
  | .dec => 10
  | .hex => 16

/-- What a byte of the format means. -/
inductive Item
  /-- A byte outside of a conversion specification. -/
  | plain
  /-- The `%` that opens one. -/
  | opening
  /-- `l`. -/
  | long
  /-- `d`. -/
  | int
  /-- `o`, `u` and `x`. -/
  | uint (r : Radix)
  /-- `p`. -/
  | ptr
  /-- `c`. -/
  | char
  /-- `s`. -/
  | str
  /-- `%` inside a conversion specification. -/
  | percent
  /-- The flag `0`. -/
  | zero
  /-- A digit of a width. -/
  | digit
  /-- A byte that is no conversion. -/
  | other
  deriving Repr, DecidableEq

/-- The meaning of a byte at `fmt_loop`. -/
def Item.ofSpec (ch : UInt8) : Item :=
  if ch = byte 'l' then .long
  else if ch = byte 'd' then .int
  else if ch = byte 'o' then .uint .oct
  else if ch = byte 'x' then .uint .hex
  else if ch = byte 'p' then .ptr
  else if ch = byte 'u' then .uint .dec
  else if ch = byte 'c' then .char
  else if ch = byte 's' then .str
  else if ch = byte '%' then .percent
  else if ch = byte '0' then .zero
  else if isDigit ch then .digit
  else .other

/-- The meaning of a byte where the walk stands. -/
def Item.of (mode : Mode) (ch : UInt8) : Item :=
  match mode with
  | .plain => if ch = byte '%' then .opening else .plain
  | .spec => .ofSpec ch
  | .digits => if isDigit ch then .digit else .ofSpec ch

/-! ### The text of a format -/

/-- What the scanner carries from one byte of the format to the next. -/
structure Mods where
  width : Int
  flag : Nat
  longflag : Nat
  ap : Nat
  deriving Repr, DecidableEq

/-- What it starts with. -/
def Mods.start : Mods := ⟨0, 0, 0, 0⟩

/-- What it carries on behind the byte `ch`. A byte that is no conversion is printed
behind the `break` that resets `flag` and `width`, and only the integer conversions reset
`longflag`. -/
def Mods.next (m : Mods) (ch : UInt8) : Item → Mods
  | .plain | .opening | .other => m
  | .long => { m with longflag := m.longflag + 1 }
  | .int | .uint _ | .ptr => ⟨0, 0, 0, m.ap + 1⟩
  | .char | .str => ⟨0, 0, m.longflag, m.ap + 1⟩
  | .percent => { m with flag := 0, width := 0 }
  | .zero => { m with flag := m.flag ||| flagZeropad }
  | .digit =>
    { m with width := (m.width * 10 + ((ch.toNat : Int) - (byte '0').toNat)).bmod (2 ^ 32) }

/-- A number under a positive width: zeros in front of it, or its last digits. -/
def squeeze (width : Nat) (num : List UInt8) : List UInt8 :=
  List.replicate (width - num.length) (byte '0') ++ num.drop (num.length - width)

/-- What is printed from `print_uint` on. -/
def uintText (m : Mods) (base uval : Nat) : List UInt8 :=
  let sign := if m.flag &&& flagNeg ≠ 0 then [byte '-'] else []
  if m.width = 0 then sign ++ numeral base uval
  else if m.width > 0 then sign ++ squeeze m.width.toNat (numeral base uval)
  else []

/-- What a byte of the format prints. -/
def Item.text (args : Nat → Arg) (m : Mods) (ch : UInt8) : Item → List UInt8
  | .plain => [ch]
  | .opening | .long | .zero | .digit => []
  | .int =>
    let val := getint m.longflag (args m.ap)
    if val < 0 then uintText { m with flag := m.flag ||| flagNeg } 10 ((-val) % 2 ^ 64).toNat
    else uintText m 10 val.toNat
  | .uint r => uintText m r.base (getuint m.longflag (args m.ap))
  | .ptr => uintText { m with flag := m.flag ||| flagZeropad, width := 8 } 16 (getuint 1 (args m.ap))
  | .char => [UInt8.ofNat ((args m.ap).bits.setWidth 8).toNat]
  | .str =>
    let str := ((args m.ap).str.map CString.bytes).getD nullString
    str ++ List.replicate (m.width - (str.length : Int).bmod (2 ^ 32)).toNat (byte ' ')
  | .percent => [byte '%']
  | .other => [byte '%', ch]

/-- What the scanner carries on behind `fmt`. -/
def modsFrom (mode : Mode) (m : Mods) : List UInt8 → Mods
  | [] => m
  | ch :: fmt => modsFrom (nextMode mode ch) (m.next ch (.of mode ch)) fmt

/-- What `fmt` prints. -/
def textFrom (args : Nat → Arg) (mode : Mode) (m : Mods) : List UInt8 → List UInt8
  | [] => []
  | ch :: fmt =>
    (Item.of mode ch).text args m ch ++
      textFrom args (nextMode mode ch) (m.next ch (.of mode ch)) fmt

/-- The text of a format; of one that ends inside a conversion specification, the text in
front of that. -/
def text (fmt : CString) (args : Nat → Arg) : List UInt8 :=
  textFrom args .plain .start fmt.bytes

/-! ### The pieces print their text -/

/-- What the locals carry on. -/
def Locals.mods (s : Locals) : Mods := ⟨s.width, s.flag, s.longflag, s.ap⟩

/-- The locals after `out` was printed. -/
def Locals.printed (s : Locals) (out : List UInt8) (m : Mods) : Locals :=
  ⟨writeFrom s.str s.pos out, s.pos + out.length, m.width, m.flag, m.longflag, m.ap⟩

theorem Locals.printed_printed (s : Locals) (out out' : List UInt8) (m m' : Mods) :
    (s.printed out m).printed out' m' = s.printed (out ++ out') m' := by
  simp only [printed, writeFrom_append, List.length_append, Nat.add_assoc]

/-- Where the output goes. -/
def sink : Sink Locals := ⟨Locals.str, Locals.pos⟩

/-- The piece prints `out` and carries on `m`. -/
def Writes (size : Nat) (x : Print PUnit) (s : Locals) (out : List UInt8) (m : Mods) : Prop :=
  sink.Prints size x s out ⟨⟩ (s.printed out m)

variable {size : Nat}

variable {x : Print PUnit} {f : PUnit → Print PUnit} {s : Locals} {out : List UInt8} {m m' : Mods}
  {g : Locals → Locals}

theorem Writes.seq {out' : List UInt8} (hx : Writes size x s out m)
    (hf : Writes size (f ⟨⟩) (s.printed out m) out' m') :
    Writes size (x >>= f) s (out ++ out') m' := by
  have h := Prints.bind hx hf
  rwa [Locals.printed_printed] at h

/-- A piece followed by one that prints nothing. -/
theorem Writes.seq_silent (hx : Writes size x s out m)
    (hf : Writes size (f ⟨⟩) (s.printed out m) [] m') : Writes size (x >>= f) s out m' := by
  have h := hx.seq hf
  rwa [List.append_nil] at h

/-- A step that only changes what is carried on. -/
theorem writes_modify (s : Locals) (hg : g s = s.printed [] m) :
    Writes size (modify g) s [] m := by
  have hrun : (modify g : Print PUnit).run s = .ok (.ok ⟨⟩, s.printed [] m) := by
    rw [← hg]
    rfl
  exact prints_silent hrun rfl rfl

theorem writes_modify_seq (hg : g s = s.printed [] m)
    (hf : Writes size (f ⟨⟩) (s.printed [] m) out m') : Writes size (modify g >>= f) s out m' :=
  (writes_modify s hg).seq hf

/-- A piece that starts with a look at the state. -/
theorem writes_get {f : Locals → Print PUnit} (hf : Writes size (f s) s out m)
    : Writes size (get >>= f) s out m :=
  (prints_get s).bind hf

/-- A piece that starts with a computation without state. -/
theorem writes_ofExcept {α : Type} {e : Except Fault α} {a : α} {f : α → Print PUnit}
    (he : e = .ok a) (hf : Writes size (f a) s out m) :
    Writes size (ofExcept e >>= f) s out m :=
  (prints_ofExcept s he).bind hf

/-- A piece that starts by taking an argument. -/
theorem writes_vaArg {args : Nat → Arg} {f : Arg → Print PUnit}
    (hf : Writes size (f (args s.ap)) { s with ap := s.ap + 1 } out m) :
    Writes size (vaArg args >>= f) s out m := by
  have harg : sink.Prints size (vaArg args) s [] (args s.ap) { s with ap := s.ap + 1 } :=
    prints_silent rfl rfl rfl
  exact harg.bind hf

section Pieces

variable (hsize : size < 2 ^ 32)

include hsize

theorem writes_setCh (s : Locals) (ch : UInt8) : Writes size (setCh size ch) s [ch] s.mods := by
  refine ⟨rfl, rfl, fun hfits => ?_, fun hlt hfull => ?_⟩
  · have hroom : s.pos + 1 < size := hfits
    have hu32 : u32 (s.pos + 1) = s.pos + 1 := Nat.mod_eq_of_lt (by omega)
    rw [setCh_run (by omega), if_neg (by omega), Locals.put, hu32]
    rfl
  · have hpos : s.pos < size := hlt
    have hlast : s.pos + 1 = size := Nat.le_antisymm hpos hfull
    have hu32 : u32 (s.pos + 1) = size := hlast ▸ Nat.mod_eq_of_lt (by omega)
    have htake : [ch].take (size - s.pos) = [ch] := List.take_of_length_le (by simp; omega)
    refine ⟨_, by rw [setCh_run hpos, if_pos hu32], ?_⟩
    show _ = cut size s.str s.pos [ch]
    rw [cut, htake]
    rfl

theorem writes_putDigits (s : Locals) {buf : List UInt8} {n : Nat} (hn : n ≤ buf.length) :
    Writes size (putDigits size buf n) s (buf.take n).reverse s.mods := by
  induction n generalizing s with
  | zero => exact prints_pure _ s
  | succ n ih =>
    have hout : (buf.take (n + 1)).reverse = [buf[n]] ++ (buf.take n).reverse := by
      rw [List.take_succ_eq_append_getElem hn, List.reverse_append]
      rfl
    rw [putDigits, hout]
    exact writes_ofExcept (bufGet_of_lt hn)
      ((writes_setCh hsize s _).seq (ih _ (Nat.le_of_succ_le hn)))

theorem writes_putPadded (s : Locals) (pad : UInt8) (buf : List UInt8) (width : Nat) :
    Writes size (putPadded size pad buf width) s
      (List.replicate (width - buf.length) pad ++ (buf.take width).reverse) s.mods := by
  induction width generalizing s with
  | zero =>
    rw [Nat.zero_sub]
    exact prints_pure _ s
  | succ width ih =>
    rw [putPadded]
    by_cases hpad : width ≥ buf.length
    · have hout : List.replicate (width + 1 - buf.length) pad ++ (buf.take (width + 1)).reverse =
          [pad] ++ (List.replicate (width - buf.length) pad ++ (buf.take width).reverse) := by
        rw [Nat.succ_sub hpad, List.replicate_succ, List.take_of_length_le hpad,
          List.take_of_length_le (Nat.le_succ_of_le hpad)]
        rfl
      rw [if_pos hpad, hout]
      exact (writes_setCh hsize s pad).seq (ih _)
    · have hlt : width < buf.length := Nat.lt_of_not_le hpad
      have hout : List.replicate (width + 1 - buf.length) pad ++ (buf.take (width + 1)).reverse =
          [buf[width]] ++ (List.replicate (width - buf.length) pad ++ (buf.take width).reverse) := by
        rw [Nat.sub_eq_zero_of_le hlt, Nat.sub_eq_zero_of_le (Nat.le_of_lt hlt),
          List.take_succ_eq_append_getElem hlt, List.reverse_append]
        rfl
      rw [if_neg hpad, hout]
      exact writes_ofExcept (bufGet_of_lt hlt) ((writes_setCh hsize s _).seq (ih _))

theorem writes_putString (s : Locals) (str : List UInt8) :
    Writes size (putString size str) s str s.mods := by
  induction str generalizing s with
  | nil => exact prints_pure _ s
  | cons ch str ih => exact (writes_setCh hsize s ch).seq (ih _)

theorem writes_putSpaces (s : Locals) (n : Nat) :
    Writes size (putSpaces size n) s (List.replicate n (byte ' ')) s.mods := by
  induction n generalizing s with
  | zero => exact prints_pure _ s
  | succ n ih => exact (writes_setCh hsize s _).seq (ih _)

end Pieces

section Items

variable (hsize : size < 2 ^ 32)

include hsize

theorem writes_printUint (s : Locals) {base uval : Nat} (hbase : 8 ≤ base) (hle : base ≤ 16)
    (huval : uval < 2 ^ 64) :
    Writes size (printUint size base uval) s (uintText s.mods base uval) s.mods := by
  refine writes_ofExcept (fillBuf_eq hbase hle huval) (writes_get ?_)
  have hsign : Writes size (if s.flag &&& flagNeg ≠ 0 then setCh size (byte '-') else pure ⟨⟩) s
      (if s.flag &&& flagNeg ≠ 0 then [byte '-'] else []) s.mods := by
    split
    case isTrue h => exact writes_setCh hsize s _
    case isFalse h => exact prints_pure _ s
  unfold uintText
  by_cases hzero : s.width = 0
  · have hdigits := writes_putDigits hsize
      (s.printed (if s.flag &&& flagNeg ≠ 0 then [byte '-'] else []) s.mods)
      (Nat.le_refl (numeral base uval).reverse.length)
    rw [List.take_length, List.reverse_reverse] at hdigits
    rw [if_pos hzero, if_pos (show s.mods.width = 0 from hzero)]
    exact hsign.seq hdigits
  · rw [if_neg hzero, if_neg (show ¬ s.mods.width = 0 from hzero)]
    by_cases hpos : s.width > 0
    · have hpadded := writes_putPadded hsize
        (s.printed (if s.flag &&& flagNeg ≠ 0 then [byte '-'] else []) s.mods)
        (byte '0') (numeral base uval).reverse s.width.toNat
      rw [List.length_reverse, List.reverse_take, List.reverse_reverse, List.length_reverse]
        at hpadded
      rw [if_pos ⟨hpos, or_flagZeropad_ne_zero s.flag⟩, if_pos (show s.mods.width > 0 from hpos)]
      exact hsign.seq hpadded
    · rw [if_neg fun h => hpos h.1, if_neg hpos, if_neg (show ¬ s.mods.width > 0 from hpos)]
      exact prints_pure _ s

theorem writes_getAndPrint (args : Nat → Arg) (s : Locals) (r : Radix) :
    Writes size (getAndPrint size args r.base) s
      (uintText s.mods r.base (getuint s.longflag (args s.ap))) ⟨0, 0, 0, s.ap + 1⟩ := by
  have hbase : 8 ≤ r.base ∧ r.base ≤ 16 := by cases r <;> decide
  refine writes_vaArg (writes_get (writes_modify_seq (m := ⟨s.width, s.flag, 0, s.ap + 1⟩) rfl ?_))
  refine (writes_printUint hsize _ hbase.1 hbase.2 (getuint_lt _ _)).seq_silent ?_
  exact writes_modify _ rfl

theorem writes_convD (args : Nat → Arg) (s : Locals) (ch : UInt8) :
    Writes size (convD size args) s (Item.int.text args s.mods ch) ⟨0, 0, 0, s.ap + 1⟩ := by
  have hval := getint_lt s.longflag (args s.ap)
  refine writes_vaArg (writes_get (writes_modify_seq (m := ⟨s.width, s.flag, 0, s.ap + 1⟩) rfl ?_))
  dsimp only
  by_cases hneg : getint s.longflag (args s.ap) < 0
  · have htext : Item.int.text args s.mods ch =
        uintText { s.mods with flag := s.flag ||| flagNeg } 10
          ((-getint s.longflag (args s.ap)) % 2 ^ 64).toNat := if_pos hneg
    rw [if_pos hneg, htext]
    refine writes_modify_seq (m := ⟨s.width, s.flag ||| flagNeg, 0, s.ap + 1⟩) rfl ?_
    refine (writes_printUint hsize _ (by decide) (by decide) (by omega)).seq_silent ?_
    exact writes_modify _ rfl
  · have htext : Item.int.text args s.mods ch =
        uintText s.mods 10 (getint s.longflag (args s.ap)).toNat := if_neg hneg
    rw [if_neg hneg, htext]
    refine (writes_printUint hsize _ (by decide) (by decide) (by omega)).seq_silent ?_
    exact writes_modify _ rfl

theorem writes_convS (args : Nat → Arg) (s : Locals) (ch : UInt8) :
    Writes size (convS size args) s (Item.str.text args s.mods ch)
      ⟨0, 0, s.longflag, s.ap + 1⟩ := by
  refine writes_vaArg ((writes_putString hsize _ _).seq (writes_get ?_))
  exact (writes_putSpaces hsize _ _).seq_silent (writes_modify _ rfl)

end Items

/-- What `vsnprintf` does at a byte with this meaning. -/
def Item.step (size : Nat) (args : Nat → Arg) (ch : UInt8) : Item → Print PUnit
  | .plain => setCh size ch
  | .opening => return
  | .long => modify fun s => { s with longflag := s.longflag + 1 }
  | .int => convD size args
  | .uint r => getAndPrint size args r.base
  | .ptr => convP size args
  | .char => convC size args
  | .str => convS size args
  | .percent => do
      setCh size (byte '%')
      reset
  | .zero => modify fun s => { s with flag := s.flag ||| flagZeropad }
  | .digit => addDigit ch
  | .other => do
      setCh size (byte '%')
      setCh size ch

theorem specStep_eq (size : Nat) (args : Nat → Arg) (ch : UInt8) :
    specStep size args ch = (Item.ofSpec ch).step size args ch := by
  unfold Item.ofSpec
  simp only [apply_ite (Item.step size args ch)]
  rfl

theorem step_eq (size : Nat) (args : Nat → Arg) (mode : Mode) (ch : UInt8) :
    step size args mode ch = (Item.of mode ch).step size args ch := by
  cases mode with
  | plain =>
    simp only [Item.of, apply_ite (Item.step size args ch)]
    rfl
  | spec => exact specStep_eq size args ch
  | digits =>
    simp only [Item.of, apply_ite (Item.step size args ch), ← specStep_eq]
    rfl

/-- The walk over the format up to its NUL. -/
def walk (size : Nat) (args : Nat → Arg) (mode : Mode) : List UInt8 → Print PUnit
  | [] => return
  | ch :: fmt => do
      step size args mode ch
      walk size args (nextMode mode ch) fmt

theorem loop_eq (size : Nat) (args : Nat → Arg) (mode : Mode) (fmt : List UInt8) :
    loop size args mode fmt = (do
      walk size args mode fmt
      finish size (fmt.foldl nextMode mode)) := by
  induction fmt generalizing mode with
  | nil => rfl
  | cons ch fmt ih =>
    rw [loop, walk, bind_assoc, List.foldl_cons]
    exact congrArg _ (funext fun _ => ih _)

section Walk

variable (hsize : size < 2 ^ 32)

include hsize

theorem writes_item (args : Nat → Arg) (s : Locals) (ch : UInt8) (item : Item) :
    Writes size (item.step size args ch) s (item.text args s.mods ch) (s.mods.next ch item) := by
  cases item with
  | plain => exact writes_setCh hsize s ch
  | opening => exact prints_pure _ s
  | long => exact writes_modify s rfl
  | int => exact writes_convD hsize args s ch
  | uint r => exact writes_getAndPrint hsize args s r
  | ptr =>
    exact writes_modify_seq (m := ⟨8, s.flag ||| flagZeropad, 1, s.ap⟩) rfl
      (writes_getAndPrint hsize args _ .hex)
  | char => exact writes_vaArg ((writes_setCh hsize _ _).seq_silent (writes_modify _ rfl))
  | str => exact writes_convS hsize args s ch
  | percent => exact (writes_setCh hsize s _).seq_silent (writes_modify _ rfl)
  | zero => exact writes_modify s rfl
  | digit => exact writes_modify s rfl
  | other => exact (writes_setCh hsize s _).seq (writes_setCh hsize _ ch)

theorem writes_walk (args : Nat → Arg) (mode : Mode) (s : Locals) (fmt : List UInt8) :
    Writes size (walk size args mode fmt) s (textFrom args mode s.mods fmt)
      (modsFrom mode s.mods fmt) := by
  induction fmt generalizing mode s with
  | nil => exact prints_pure _ s
  | cons ch fmt ih =>
    rw [walk, step_eq]
    exact (writes_item hsize args s ch (.of mode ch)).seq (ih _ _)

/-- The end of a format outside of a conversion specification. -/
theorem prints_finish (s : Locals) :
    sink.Prints size (finish size .plain) s [0] s.pos (s.printed [0] s.mods) :=
  Prints.bind_silent (writes_setCh hsize s 0) (prints_silent rfl rfl rfl)

end Walk

/-! ### What `vsnprintf` leaves -/

section Run

variable {fmt : CString} {args : Nat → Arg} {str : Nat → UInt8} (hpos : 1 ≤ size)
  (hsize : size < 2 ^ 32)

include hpos hsize

/-- A format that does not end inside a conversion specification: its text and a NUL are
printed. -/
theorem vsnprintf_complete (hfmt : Complete fmt) :
    vsnprintf size fmt args str =
      if (text fmt args).length + 1 < size then
        .ok (((text fmt args).length : Int).bmod (2 ^ 32), writeFrom str 0 (text fmt args ++ [0]))
      else .ok ((size : Int).bmod (2 ^ 32), cut size str 0 (text fmt args ++ [0])) := by
  obtain ⟨t, hprints⟩ : ∃ t, sink.Prints size (loop size args .plain fmt.bytes)
      ⟨str, 0, 0, 0, 0, 0⟩ (text fmt args ++ [0]) (0 + (text fmt args).length) t := by
    rw [loop_eq, show fmt.bytes.foldl nextMode .plain = .plain from hfmt]
    exact ⟨_, Prints.bind (writes_walk hsize args .plain _ fmt.bytes) (prints_finish hsize _)⟩
  have hlen : (text fmt args ++ [0]).length = (text fmt args).length + 1 := List.length_append
  have hstart : sink.pos ⟨str, 0, 0, 0, 0, 0⟩ = 0 := rfl
  unfold vsnprintf
  by_cases hfits : (text fmt args).length + 1 < size
  · rw [if_pos hfits, hprints.run_fits (by omega)]
    rw [Nat.zero_add]
    exact congrArg (fun s => Except.ok (_, s)) hprints.str_eq
  · obtain ⟨u, hrun, hcut⟩ := hprints.run_full hpos (by omega)
    rw [if_neg hfits, hrun]
    exact congrArg (fun s => Except.ok (_, s)) hcut

/-- A format that ends inside a conversion specification: a `%` and the NUL are printed
behind the text, and the byte behind the NUL is read unless that fills the buffer. -/
theorem vsnprintf_incomplete (hfmt : ¬ Complete fmt) :
    vsnprintf size fmt args str =
      if (text fmt args).length + 2 < size then .error .fmtOverrun
      else .ok ((size : Int).bmod (2 ^ 32), cut size str 0 (text fmt args ++ [byte '%', 0])) := by
  have hfinish : finish size (fmt.bytes.foldl nextMode .plain) = (do
      setCh size (byte '%')
      setCh size 0
      fault .fmtOverrun) := by
    cases hmode : fmt.bytes.foldl nextMode .plain with
    | plain => exact absurd hmode hfmt
    | spec => rfl
    | digits => rfl
  have hwrites : Writes size (do
      walk size args .plain fmt.bytes
      setCh size (byte '%')
      setCh size 0) ⟨str, 0, 0, 0, 0, 0⟩ (text fmt args ++ [byte '%', 0]) _ :=
    (writes_walk hsize args .plain _ fmt.bytes).seq
      ((writes_setCh hsize _ _).seq (writes_setCh hsize _ _))
  have hlen : (text fmt args ++ [byte '%', 0]).length = (text fmt args).length + 2 :=
    List.length_append
  have hstart : sink.pos ⟨str, 0, 0, 0, 0, 0⟩ = 0 := rfl
  have hloop : loop size args .plain fmt.bytes = (do
      walk size args .plain fmt.bytes
      setCh size (byte '%')
      setCh size 0) >>= fun _ => fault .fmtOverrun := by
    rw [loop_eq, hfinish]
    simp only [bind_assoc]
  rw [vsnprintf, hloop]
  by_cases hfits : (text fmt args).length + 2 < size
  · rw [if_pos hfits, run_bind_of_ok (hwrites.run_fits (by omega))]
    rfl
  · obtain ⟨u, hrun, hcut⟩ := hwrites.run_full hpos (by omega)
    rw [if_neg hfits, run_bind_of_error hrun]
    exact congrArg (fun s => Except.ok (_, s)) hcut

end Run

/-! ### The return value -/

/-- The buffer holds the bytes `out` and a NUL behind them. -/
def Shows (str : Nat → UInt8) (out : List UInt8) : Prop :=
  (∀ i, (h : i < out.length) → str i = out[i]) ∧ str out.length = 0

theorem shows_writeFrom (str : Nat → UInt8) (out : List UInt8) :
    Shows (writeFrom str 0 (out ++ [0])) out := by
  have hat {i : Nat} (h : i < (out ++ [0]).length) :
      writeFrom str 0 (out ++ [0]) i = (out ++ [0])[i] := by
    have hwritten : writeFrom str 0 (out ++ [0]) (0 + i) = (out ++ [0])[i] := writeFrom_getElem h
    rwa [Nat.zero_add] at hwritten
  refine ⟨fun i h => ?_, ?_⟩
  · rw [hat (by simp; omega), List.getElem_append_left h]
  · rw [hat (by simp), List.getElem_append_right (Nat.le_refl _)]
    simp

/-- What a return value of `int` keeps of a number. -/
theorem bmod_eq_iff {n m : Nat} (hn : n < 2 ^ 32) :
    (n : Int).bmod (2 ^ 32) = m ↔ n = m ∧ n < 2 ^ 31 := by
  rw [Int.bmod_def]
  omega

/-- `vsnprintf` stays inside its buffer: for every size, every format that does not end
inside a conversion specification and all arguments it returns without a fault, leaves a
NUL in `str[0 .. size)` and writes nothing else. -/
theorem vsnprintf_in_bounds {str : Nat → UInt8} {fmt : CString} {args : Nat → Arg} (hpos : 1 ≤ size)
    (hsize : size < 2 ^ 32) (hfmt : Complete fmt) :
    ∃ ret str', vsnprintf size fmt args str = .ok (ret, str') ∧
      (∃ i < size, str' i = 0) ∧ ∀ i, size ≤ i → str' i = str i := by
  rw [vsnprintf_complete hpos hsize hfmt]
  by_cases hfits : (text fmt args).length + 1 < size
  · rw [if_pos hfits]
    refine ⟨_, _, rfl, ⟨_, Nat.lt_of_succ_lt hfits, (shows_writeFrom str _).2⟩, fun i hi => ?_⟩
    exact writeFrom_of_le (by rw [List.length_append]; simp; omega)
  · rw [if_neg hfits]
    refine ⟨_, _, rfl, ⟨size - 1, by omega, Function.update_self ..⟩, fun i hi => ?_⟩
    rw [cut, Function.update_of_ne (by omega)]
    exact writeFrom_of_le (by rw [List.length_take]; omega)

/-- A buffer of four bytes is too small for `"%05d %s"`. -/
theorem vsnprintf_in_bounds_truncated :
    ∃ ret str', vsnprintf 4 ⟨['%', '0', '5', 'd', ' ', '%', 's'].map byte, by decide⟩
        (fun _ => ⟨42, none⟩) (fun _ => 1) = .ok (ret, str') ∧
      (∃ i < 4, str' i = 0) ∧ ∀ i, 4 ≤ i → str' i = 1 :=
  vsnprintf_in_bounds (by decide) (by decide) (by decide)

/-- A larger one is not. -/
example : ((vsnprintf 16 ⟨['%', '0', '5', 'd', ' ', '%', 's'].map byte, by decide⟩
    (fun _ => ⟨42, none⟩) fun _ => 1).map fun r => (r.1, (List.range 13).map r.2)) =
    .ok (12, ['0', '0', '0', '4', '2', ' ', '(', 'n', 'u', 'l', 'l', ')', '\x00'].map byte) := by
  decide +kernel

section Return

variable {fmt : CString} {args : Nat → Arg} {str : Nat → UInt8}

/-- The return value of `vsnprintf` tells truncation, except for a text that fills the
buffer up to its NUL: the NUL makes it full, and `size` is returned although nothing was
cut off. Numbers from `2 ^ 31` on are no `int`. -/
theorem vsnprintf_tells_truncation (hpos : 1 ≤ size) (hsize : size < 2 ^ 32)
    (hfmt : Complete fmt) :
    ∃ ret str', vsnprintf size fmt args str = .ok (ret, str') ∧
      ((((text fmt args).length ≤ size - 1 →
          ret = (text fmt args).length ∧ Shows str' (text fmt args)) ∧
        (ret = size ↔ (text fmt args).length ≥ size)) ↔
      (text fmt args).length ≠ size - 1 ∧ min (text fmt args).length size < 2 ^ 31) := by
  rw [vsnprintf_complete hpos hsize hfmt]
  by_cases hfits : (text fmt args).length + 1 < size
  · rw [if_pos hfits]
    refine ⟨_, _, rfl, ?_⟩
    have hshows := shows_writeFrom str (text fmt args)
    rw [bmod_eq_iff (by omega), bmod_eq_iff (by omega)]
    constructor
    · intro h
      omega
    · intro h
      exact ⟨fun _ => ⟨by omega, hshows⟩, by omega⟩
  · rw [if_neg hfits]
    refine ⟨_, _, rfl, ?_⟩
    rw [bmod_eq_iff hsize, bmod_eq_iff hsize]
    constructor
    · intro h
      -- the NUL of a text of `size - 1` bytes is the byte that fills the buffer
      omega
    · intro h
      exact ⟨fun hle => absurd hle (by omega), by omega⟩

/-- Five bytes are enough for `"abc"` and its length. -/
theorem vsnprintf_tells_truncation_abc :
    ∃ ret str', vsnprintf 5 ⟨['a', 'b', 'c'].map byte, by decide⟩ (fun _ => ⟨0, none⟩)
        (fun _ => 1) = .ok (ret, str') ∧
      ret = 3 ∧ Shows str' (['a', 'b', 'c'].map byte) := by
  obtain ⟨ret, str', hrun, hiff⟩ := @vsnprintf_tells_truncation 5
    ⟨['a', 'b', 'c'].map byte, by decide⟩ (fun _ => ⟨0, none⟩) (fun _ => 1) (by decide)
    (by decide) (by decide)
  exact ⟨ret, str', hrun, (hiff.mpr (by decide)).1 (by decide)⟩

/-- The whole of `"abc"` fits into four bytes, and four is what is returned. -/
theorem vsnprintf_full_not_truncated :
    (text ⟨['a', 'b', 'c'].map byte, by decide⟩ fun _ => ⟨0, none⟩).length = 4 - 1 ∧
      ((vsnprintf 4 ⟨['a', 'b', 'c'].map byte, by decide⟩ (fun _ => ⟨0, none⟩)
        fun _ => 1).map fun r => (r.1, (List.range 4).map r.2)) =
      .ok (4, ['a', 'b', 'c', '\x00'].map byte) := by
  decide +kernel

/-! ### The end of the format -/

/-- `vsnprintf` does not read behind the NUL of the format exactly if the format does not
end inside a conversion specification, or the buffer is full before. -/
theorem vsnprintf_respects_end (hpos : 1 ≤ size) (hsize : size < 2 ^ 32) :
    vsnprintf size fmt args str ≠ .error .fmtOverrun ↔
      Complete fmt ∨ size ≤ (text fmt args).length + 2 := by
  by_cases hfmt : Complete fmt
  · rw [vsnprintf_complete hpos hsize hfmt]
    refine iff_of_true ?_ (.inl hfmt)
    split <;> simp
  · rw [vsnprintf_incomplete hpos hsize hfmt]
    by_cases hfits : (text fmt args).length + 2 < size
    · rw [if_pos hfits]
      exact iff_of_false (fun h => h rfl) fun h => h.elim hfmt (by omega)
    · rw [if_neg hfits]
      exact iff_of_true (by simp) (.inr (by omega))

/-- For a format with a conversion. -/
theorem vsnprintf_respects_end_d :
    vsnprintf 16 ⟨['%', 'd'].map byte, by decide⟩ (fun _ => ⟨42, none⟩) (fun _ => 1) ≠
        .error .fmtOverrun ↔
      Complete ⟨['%', 'd'].map byte, by decide⟩ ∨
        16 ≤ (text ⟨['%', 'd'].map byte, by decide⟩ fun _ => ⟨42, none⟩).length + 2 :=
  vsnprintf_respects_end (by decide) (by decide)

/-- `"%l"` is read past its end. -/
theorem vsnprintf_reads_past_end :
    vsnprintf 16 ⟨['%', 'l'].map byte, by decide⟩ (fun _ => ⟨42, none⟩) (fun _ => 1) =
      .error .fmtOverrun := by
  rfl

end Return

end Vsnprintf

end AimKernel
