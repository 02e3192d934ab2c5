import AimKernel.Lib.CString
import AimKernel.Lib.Wp
import AimKernel.Mm.Types

/-!
# AimKernel.Libc.Vsnprintf

`vsnprintf` of `lib/libc/snprintf.c`.

The function walks the format byte by byte. What a byte means depends on where the walk
stands: outside of a conversion specification, inside one, or in a run of width digits
(`Mode`). `nextMode` says where the walk goes on; it is the `goto` structure of the
source without its effects. `step` has the effects of one byte.

Output goes through `set_ch`, which returns from `vsnprintf` when the buffer is full, so
the pieces are computations with an early return. They fault on a write outside of
`str[0 .. size)`, on a write or read outside of the written part of the digit buffer, and
on a read of the format behind its NUL.

The arguments are a supply of slots; each `va_arg` takes the next slot and reads it at
the type it asks for. Integers wrap: `width` is a 32-bit `ssize_t`, `pos` is compared and
used as a `size_t`.
-/

namespace AimKernel

namespace Vsnprintf

/-- What must not happen. -/
inductive Fault
  /-- A write outside of `str[0 .. size)`. -/
  | strOverrun
  /-- A write outside of `buf`. -/
  | bufOverrun
  /-- A read of a byte of `buf` that was not written. -/
  | bufRead
  /-- A read behind the NUL of the format. -/
  | fmtOverrun
  deriving Repr, DecidableEq

/-- One argument: its bits, and the string it points to if it is a `char *` other than
`NULL`. -/
structure Arg where
  bits : BitVec 64
  str : Option CString

/-- The local variables that live across the loop. `ap` counts the arguments taken. -/
structure Locals where
  str : Nat → UInt8
  pos : Nat
  width : Int
  flag : Nat
  longflag : Nat
  ap : Nat

/-- A piece of `vsnprintf`; the value returned early is that of the function. -/
abbrev Print (α : Type) : Type := Early Locals Fault Nat α

open Early

/-- `FLAG_ZEROPAD`. -/
def flagZeropad : Nat := 0x002

/-- `FLAG_NEG`. -/
def flagNeg : Nat := 0x100

/-- The size of `buf`. -/
def bufSize : Nat := 25

/-- The byte of a character. -/
def byte (c : Char) : UInt8 := UInt8.ofNat c.toNat

/-- `is_digit`. -/
def isDigit (ch : UInt8) : Bool := ch ≥ byte '0' && ch ≤ byte '9'

/-- `digits`. -/
def digits (x : Nat) : UInt8 :=
  if x ≤ 9 then UInt8.ofNat ('0'.toNat + x) else UInt8.ofNat ('a'.toNat + x - 10)

/-! ### Reading the arguments -/

/-- `getint`: `int` and `long` have 32 bits, `long long` has 64. -/
def getint (longflag : Nat) (a : Arg) : Int :=
  if longflag ≤ 1 then (a.bits.setWidth 32).toInt else a.bits.toInt

/-- `getuint`. -/
def getuint (longflag : Nat) (a : Arg) : Nat :=
  if longflag ≤ 1 then (a.bits.setWidth 32).toNat else a.bits.toNat

/-- `va_arg`. -/
def vaArg (args : Nat → Arg) : Print Arg := do
  let s ← get
  set { s with ap := s.ap + 1 }
  return args s.ap

/-! ### Output -/

section Output

variable (size : Nat)

/-- `set_ch`. -/
def setCh (ch : UInt8) : Print PUnit := do
  let s ← get
  if s.pos < size then
    let pos := u32 (s.pos + 1)
    set { s with str := Function.update s.str s.pos ch, pos := pos }
    if pos = size then
      modify fun s => { s with str := Function.update s.str (size - 1) 0 }
      leave size
  else fault .strOverrun

/-- The loop that fills `buf` with the digits of `uval`, where `room` bytes of `buf` are
left. -/
def digitLoop (base : Nat) : Nat → Nat → List UInt8 → Except Fault (List UInt8)
  | room, uval, buf =>
    if uval > 0 then
      match room with
      | 0 => .error .bufOverrun
      | room + 1 => digitLoop base room (uval / base) (buf ++ [digits (uval % base)])
    else .ok buf

/-- `buf[buf_pos++] = ch`. -/
def bufPush (buf : List UInt8) (ch : UInt8) : Except Fault (List UInt8) :=
  if buf.length < bufSize then .ok (buf ++ [ch]) else .error .bufOverrun

/-- `buf[i]`. -/
def bufGet (buf : List UInt8) (i : Nat) : Except Fault UInt8 :=
  match buf[i]? with
  | some ch => .ok ch
  | none => .error .bufRead

/-- The digits of `uval`, least significant first; `"0"` for zero. -/
def fillBuf (base uval : Nat) : Except Fault (List UInt8) := do
  let buf ← digitLoop base bufSize uval []
  if buf.length = 0 then bufPush buf (byte '0') else return buf

/-- `while ((--buf_pos) >= 0) set_ch(buf[buf_pos]);` -/
def putDigits (buf : List UInt8) : Nat → Print PUnit
  | 0 => return
  | bufPos + 1 => do
      let ch ← ofExcept (bufGet buf bufPos)
      setCh size ch
      putDigits buf bufPos

/-- `while ((--width) >= 0)` with its body: `pad` in front, then the low digits. -/
def putPadded (pad : UInt8) (buf : List UInt8) : Nat → Print PUnit
  | 0 => return
  | width + 1 => do
      if width ≥ buf.length then setCh size pad
      else
        let ch ← ofExcept (bufGet buf width)
        setCh size ch
      putPadded pad buf width

/-- From `print_uint` on. The third branch is dead: `flag | FLAG_ZEROPAD` is never
zero. -/
def printUint (base uval : Nat) : Print PUnit := do
  let buf ← ofExcept (fillBuf base uval)
  let s ← get
  let neg : Print PUnit := if s.flag &&& flagNeg ≠ 0 then setCh size (byte '-') else return
  if s.width = 0 then
    neg
    putDigits size buf buf.length
  else if s.width > 0 ∧ (s.flag ||| flagZeropad) ≠ 0 then
    neg
    putPadded size (byte '0') buf s.width.toNat
  else if s.width > 0 then
    let buf ← ofExcept (if s.flag &&& flagNeg ≠ 0 then bufPush buf (byte '-') else return buf)
    putPadded size (byte ' ') buf s.width.toNat

/-- `for ( ; *s != '\0'; ++s) set_ch(*s);` -/
def putString : List UInt8 → Print PUnit
  | [] => return
  | ch :: s => do
      setCh size ch
      putString s

/-- `set_ch(' ')`, `n` times. -/
def putSpaces : Nat → Print PUnit
  | 0 => return
  | n + 1 => do
      setCh size (byte ' ')
      putSpaces n

/-- The string printed for a null pointer. -/
def nullString : List UInt8 := ['(', 'n', 'u', 'l', 'l', ')'].map byte

/-! ### The format -/

/-- Where the walk over the format stands. -/
inductive Mode
  /-- At the head of the outer loop. -/
  | plain
  /-- At `fmt_loop`. -/
  | spec
  /-- In the loop over the digits of a width. -/
  | digits
  deriving Repr, DecidableEq

/-- Where the walk stands after a byte at `fmt_loop`. -/
def nextSpec (ch : UInt8) : Mode :=
  if ch = byte 'l' ∨ ch = byte '0' then .spec else if isDigit ch then .digits else .plain

/-- Where the walk stands after the byte `ch`. -/
def nextMode (mode : Mode) (ch : UInt8) : Mode :=
  match mode with
  | .plain => if ch = byte '%' then .spec else .plain
  | .spec => nextSpec ch
  | .digits => if isDigit ch then .digits else nextSpec ch

variable (args : Nat → Arg)

/-- `flag = 0; width = 0;` at the end of a conversion. -/
def reset : Print PUnit := modify fun s => { s with flag := 0, width := 0 }

/-- From `get_uint` on. -/
def getAndPrint (base : Nat) : Print PUnit := do
  let a ← vaArg args
  let s ← get
  modify fun s => { s with longflag := 0 }
  printUint size base (getuint s.longflag a)
  reset

/-- `%d`. -/
def convD : Print PUnit := do
  let a ← vaArg args
  let s ← get
  let val := getint s.longflag a
  modify fun s => { s with longflag := 0 }
  if val < 0 then
    modify fun s => { s with flag := s.flag ||| flagNeg }
    printUint size 10 ((-val) % 2 ^ 64).toNat
  else printUint size 10 val.toNat
  reset

/-- `%p`. -/
def convP : Print PUnit := do
  modify fun s => { s with flag := s.flag ||| flagZeropad, longflag := 1, width := 8 }
  getAndPrint size args 16

/-- `%c`. -/
def convC : Print PUnit := do
  let a ← vaArg args
  setCh size (UInt8.ofNat (a.bits.setWidth 8).toNat)
  reset

/-- `%s`. -/
def convS : Print PUnit := do
  let a ← vaArg args
  let str := (a.str.map CString.bytes).getD nullString
  putString size str
  let s ← get
  -- `len` is an `int`
  putSpaces size (s.width - (str.length : Int).bmod (2 ^ 32)).toNat
  reset

/-- One digit of a width. -/
def addDigit (ch : UInt8) : Print PUnit :=
  modify fun s =>
    { s with width := (s.width * 10 + ((ch.toNat : Int) - (byte '0').toNat)).bmod (2 ^ 32) }

/-- The `switch` at `fmt_loop`. -/
def specStep (ch : UInt8) : Print PUnit :=
  if ch = byte 'l' then modify fun s => { s with longflag := s.longflag + 1 }
  else if ch = byte 'd' then convD size args
  else if ch = byte 'o' then getAndPrint size args 8
  else if ch = byte 'x' then getAndPrint size args 16
  else if ch = byte 'p' then convP size args
  else if ch = byte 'u' then getAndPrint size args 10
  else if ch = byte 'c' then convC size args
  else if ch = byte 's' then convS size args
  else if ch = byte '%' then do
    setCh size (byte '%')
    reset
  else if ch = byte '0' then modify fun s => { s with flag := s.flag ||| flagZeropad }
  else if isDigit ch then addDigit ch
  else do
    setCh size (byte '%')
    setCh size ch

/-- What `vsnprintf` does at a byte of the format that is not its NUL. -/
def step (mode : Mode) (ch : UInt8) : Print PUnit :=
  match mode with
  | .plain => if ch = byte '%' then return else setCh size ch
  | .spec => specStep size args ch
  | .digits => if isDigit ch then addDigit ch else specStep size args ch

/-- What it does at the NUL. Inside a conversion specification the `default` case prints
`%` and the NUL and steps over it. -/
def finish : Mode → Print Nat
  | .plain => do
      setCh size 0
      let s ← get
      return s.pos - 1
  | _ => do
      setCh size (byte '%')
      setCh size 0
      fault .fmtOverrun

/-- The walk over the format. -/
def loop (mode : Mode) : List UInt8 → Print Nat
  | [] => finish size mode
  | ch :: fmt => do
      step size args mode ch
      loop (nextMode mode ch) fmt

end Output

/-- The format does not end inside a conversion specification. -/
def Complete (fmt : CString) : Prop := fmt.bytes.foldl nextMode .plain = .plain

instance (fmt : CString) : Decidable (Complete fmt) := inferInstanceAs (Decidable (_ = _))

end Vsnprintf

open Vsnprintf in
/-- `vsnprintf(str, size, fmt, ap)`: the return value and the bytes at `str` afterwards.
Both `return` statements convert to `int`. -/
def vsnprintf (size : Nat) (fmt : CString) (args : Nat → Arg) (str : Nat → UInt8) :
    Except Fault (Int × (Nat → UInt8)) :=
  match (loop size args .plain fmt.bytes).run ⟨str, 0, 0, 0, 0, 0⟩ with
  | .error e => .error e
  | .ok (.ok ret, s) => .ok ((ret : Int).bmod (2 ^ 32), s.str)
  | .ok (.error ret, s) => .ok ((ret : Int).bmod (2 ^ 32), s.str)

namespace Vsnprintf

open Early

/-! ### One byte -/

variable {size : Nat}

/-- The state after `str[pos++] = ch`. -/
def Locals.put (s : Locals) (ch : UInt8) : Locals :=
  { s with str := Function.update s.str s.pos ch, pos := u32 (s.pos + 1) }

theorem setCh_run {ch : UInt8} {s : Locals} (hpos : s.pos < size) :
    (setCh size ch).run s =
      if u32 (s.pos + 1) = size then
        .ok (.error size, { s.put ch with str := Function.update (s.put ch).str (size - 1) 0 })
      else .ok (.ok ⟨⟩, s.put ch) := by
  have hget : (setCh size ch).run s =
      ((if s.pos < size then do
        set (s.put ch)
        if u32 (s.pos + 1) = size then
          modify fun s => { s with str := Function.update s.str (size - 1) 0 }
          leave size
        else pure ⟨⟩
      else fault .strOverrun : Print PUnit)).run s := rfl
  rw [hget, if_pos hpos]
  split
  case isTrue h => rfl
  case isFalse h => rfl

/-- `bufGet` succeeds below the number of digits. -/
theorem bufGet_of_lt {buf : List UInt8} {i : Nat} (h : i < buf.length) :
    bufGet buf i = .ok buf[i] := by
  unfold bufGet
  rw [List.getElem?_eq_getElem h]

/-! ### Numbers -/

/-- The usual representation of a number in a base. -/
def numeral (base n : Nat) : List UInt8 := (Nat.toDigits base n).map byte

theorem digits_eq {x : Nat} (h : x < 16) : digits x = byte (Nat.digitChar x) := by
  have hall : ∀ x : Fin 16, digits x = byte (Nat.digitChar x) := by decide
  exact hall ⟨x, h⟩

theorem numeral_of_lt {base n : Nat} (h : n < base) (hbase : base ≤ 16) :
    numeral base n = [digits n] := by
  rw [numeral, Nat.toDigits_of_lt_base h, digits_eq (Nat.lt_of_lt_of_le h hbase)]
  rfl

theorem numeral_of_le {base n : Nat} (hbase : 1 < base) (hle : base ≤ 16) (h : base ≤ n) :
    numeral base n = numeral base (n / base) ++ [digits (n % base)] := by
  have hmod : n % base < 16 := Nat.lt_of_lt_of_le (Nat.mod_lt _ (by omega)) hle
  rw [numeral, Nat.toDigits_of_base_le hbase h, List.map_append, digits_eq hmod]
  rfl

theorem digitLoop_zero (base room : Nat) (buf : List UInt8) :
    digitLoop base room 0 buf = .ok buf := by
  cases room with
  | zero => rfl
  | succ room => rfl

/-- The loop computes the usual representation, last digit first. -/
theorem digitLoop_eq {base : Nat} (hbase : 1 < base) (hle : base ≤ 16) {room uval : Nat}
    (h : uval < base ^ room) (hpos : 0 < uval) (buf : List UInt8) :
    digitLoop base room uval buf = .ok (buf ++ (numeral base uval).reverse) := by
  induction room generalizing uval buf with
  | zero => exact absurd h (by simpa using Nat.ne_of_gt hpos)
  | succ room ih =>
    rw [digitLoop, if_pos hpos]
    by_cases hlt : uval < base
    · rw [Nat.div_eq_of_lt hlt, Nat.mod_eq_of_lt hlt, digitLoop_zero, numeral_of_lt hlt hle]
      rfl
    · have hdiv : uval / base < base ^ room := by
        rw [Nat.div_lt_iff_lt_mul (by omega), ← Nat.pow_succ]
        exact h
      have hdivpos : 0 < uval / base := Nat.div_pos (by omega) (by omega)
      rw [ih hdiv hdivpos, numeral_of_le hbase hle (Nat.le_of_not_lt hlt),
        List.reverse_append, List.append_assoc]
      rfl

theorem fillBuf_eq {base uval : Nat} (hbase : 8 ≤ base) (hle : base ≤ 16) (huval : uval < 2 ^ 64) :
    fillBuf base uval = .ok (numeral base uval).reverse := by
  by_cases hzero : uval = 0
  · subst hzero
    rw [numeral_of_lt (by omega) hle]
    rfl
  · have hfit : uval < base ^ bufSize := by
      have h8 : 8 ^ bufSize ≤ base ^ bufSize := Nat.pow_le_pow_left hbase _
      have h64 : (2 : Nat) ^ 64 ≤ 8 ^ bufSize := by decide
      omega
    have hne : (numeral base uval).reverse.length ≠ 0 := by
      rw [List.length_reverse, numeral, List.length_map]
      exact Nat.ne_of_gt Nat.length_toDigits_pos
    rw [fillBuf, digitLoop_eq (by omega) hle hfit (by omega), List.nil_append]
    show (if (numeral base uval).reverse.length = 0 then bufPush _ _ else Except.ok _) = _
    rw [if_neg hne]

theorem or_flagZeropad_ne_zero (flag : Nat) : flag ||| flagZeropad ≠ 0 := by
  intro h
  have hbit : (flag ||| flagZeropad).testBit 1 = true := by
    rw [Nat.testBit_or, show flagZeropad.testBit 1 = true from rfl, Bool.or_true]
  rw [h] at hbit
  exact absurd hbit (by decide)

theorem getuint_lt (longflag : Nat) (a : Arg) : getuint longflag a < 2 ^ 64 := by
  unfold getuint
  split <;> omega

theorem getint_lt (longflag : Nat) (a : Arg) : getint longflag a < 2 ^ 64 := by
  unfold getint
  have h32 := BitVec.toInt_lt (x := a.bits.setWidth 32)
  have h64 := BitVec.toInt_lt (x := a.bits)
  split <;> omega

end Vsnprintf

end AimKernel
