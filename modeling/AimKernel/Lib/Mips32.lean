import Mathlib.Algebra.Group.Int.Defs
import Mathlib.Algebra.Group.Nat.Defs
import Mathlib.Logic.Function.Basic

/-!
# AimKernel.Lib.Mips32

Jumps and branches of the MIPS32 architecture.

`Control.decode` reads an instruction word; fields that do not matter to the instruction
(hints, and the register fields an instruction does not have) are ignored. For each
instruction `Control.nextPc` is the address of the instruction that follows its delay slot,
and `Control.regs` the register file after it. `pc` is the address of the jump or branch
itself.

A register file is given by all 32 entries. Register 0 is read like any other, so that the
architecture's files are those with `r 0 = 0`; it is never written.
-/

namespace AimKernel

namespace Mips32

/-- A register number. -/
abbrev Reg : Type := BitVec 5

/-- An address, an instruction or the contents of a register. -/
abbrev Word : Type := BitVec 32

/-- The general purpose registers. -/
abbrev RegFile : Type := Reg → Word

/-- The condition of a branch. -/
inductive Cond
  | eq (rs rt : Reg)
  | ne (rs rt : Reg)
  | lez (rs : Reg)
  | gtz (rs : Reg)
  | ltz (rs : Reg)
  | gez (rs : Reg)
  deriving Repr, DecidableEq

/-- Whether the branch is taken. Comparisons with zero are signed. -/
def Cond.holds (r : RegFile) : Cond → Bool
  | .eq rs rt => r rs = r rt
  | .ne rs rt => r rs ≠ r rt
  | .lez rs => (r rs).toInt ≤ 0
  | .gtz rs => (r rs).toInt > 0
  | .ltz rs => (r rs).toInt < 0
  | .gez rs => (r rs).toInt ≥ 0

/-- The registers a condition reads. -/
def Cond.reads : Cond → List Reg
  | .eq rs rt | .ne rs rt => [rs, rt]
  | .lez rs | .gtz rs | .ltz rs | .gez rs => [rs]

/-- A condition only depends on the registers it reads. -/
theorem Cond.holds_congr {r r' : RegFile} {c : Cond} (h : ∀ i ∈ c.reads, r' i = r i) :
    c.holds r' = c.holds r := by
  cases c with
  | eq rs rt => simp only [holds, h rs (by simp [reads]), h rt (by simp [reads])]
  | ne rs rt => simp only [holds, h rs (by simp [reads]), h rt (by simp [reads])]
  | lez rs => simp only [holds, h rs (by simp [reads])]
  | gtz rs => simp only [holds, h rs (by simp [reads])]
  | ltz rs => simp only [holds, h rs (by simp [reads])]
  | gez rs => simp only [holds, h rs (by simp [reads])]

/-- A jump or a branch. -/
inductive Control
  /-- J and JAL. -/
  | jump (index : BitVec 26) (link : Bool)
  /-- JR, and JALR with the register it links to. -/
  | jumpRegister (rs : Reg) (rd : Option Reg)
  /-- The branches; those that link write register 31. -/
  | branch (cond : Cond) (offset : BitVec 16) (likely link : Bool)
  deriving Repr, DecidableEq

namespace Control

/-- The function field of a word with opcode REGIMM. -/
def decodeRegimm (func : BitVec 5) (rs : Reg) (offset : BitVec 16) : Option Control :=
  match func with
  | 0x00#5 => some (branch (.ltz rs) offset false false)
  | 0x01#5 => some (branch (.gez rs) offset false false)
  | 0x02#5 => some (branch (.ltz rs) offset true false)
  | 0x03#5 => some (branch (.gez rs) offset true false)
  | 0x10#5 => some (branch (.ltz rs) offset false true)
  | 0x11#5 => some (branch (.gez rs) offset false true)
  | 0x12#5 => some (branch (.ltz rs) offset true true)
  | 0x13#5 => some (branch (.gez rs) offset true true)
  | _ => none

/-- The jump or branch a word encodes. -/
def decode (w : Word) : Option Control :=
  let rs := w.extractLsb' 21 5
  let rt := w.extractLsb' 16 5
  let rd := w.extractLsb' 11 5
  let offset := w.extractLsb' 0 16
  let index := w.extractLsb' 0 26
  match w.extractLsb' 26 6 with
  | 0x00#6 =>
    match w.extractLsb' 0 6 with
    | 0x08#6 => some (jumpRegister rs none)
    | 0x09#6 => some (jumpRegister rs (some rd))
    | _ => none
  | 0x01#6 => decodeRegimm rt rs offset
  | 0x02#6 => some (jump index false)
  | 0x03#6 => some (jump index true)
  | 0x04#6 => some (branch (.eq rs rt) offset false false)
  | 0x05#6 => some (branch (.ne rs rt) offset false false)
  | 0x06#6 => some (branch (.lez rs) offset false false)
  | 0x07#6 => some (branch (.gtz rs) offset false false)
  | 0x14#6 => some (branch (.eq rs rt) offset true false)
  | 0x15#6 => some (branch (.ne rs rt) offset true false)
  | 0x16#6 => some (branch (.lez rs) offset true false)
  | 0x17#6 => some (branch (.gtz rs) offset true false)
  | _ => none

/-- The target of a taken branch: the offset counts instructions from the delay slot. -/
def branchAddress (pc : Word) (offset : BitVec 16) : Word := pc + 4 + 4 * offset.signExtend 32

/-- The target of J and JAL, in the region of the delay slot. -/
def jumpAddress (pc : Word) (index : BitVec 26) : Word :=
  (pc + 4).extractLsb' 28 4 ++ index ++ 0#2

/-- The instruction that follows the delay slot, or, if a likely branch is not taken, the
skipped one. -/
def nextPc (pc : Word) (r : RegFile) : Control → Word
  | jump index _ => jumpAddress pc index
  | jumpRegister rs _ => r rs
  | branch cond offset _ _ => if cond.holds r then branchAddress pc offset else pc + 8

/-- The link register. -/
def linkRegister : Control → Option Reg
  | jump _ link => if link then some 31 else none
  | jumpRegister _ rd => rd
  | branch _ _ _ link => if link then some 31 else none

/-- The registers afterwards: the link register holds the address behind the delay slot,
whether or not a branch is taken. -/
def regs (pc : Word) (r : RegFile) (c : Control) : RegFile :=
  match c.linkRegister with
  | some rd => if rd = 0 then r else Function.update r rd (pc + 8)
  | none => r

/-- Instructions that can be restarted: those that do not overwrite a register they read. -/
def Restartable : Control → Prop
  | jump _ _ => True
  | jumpRegister rs rd => rd ≠ some rs
  | branch cond _ _ link => link = true → 31 ∉ cond.reads

/-- Taken and not taken lead to one address if the offset is one instruction. -/
theorem branchAddress_eq_iff {pc : Word} {offset : BitVec 16} :
    branchAddress pc offset = pc + 8 ↔ offset = 1 := by
  unfold branchAddress
  constructor
  · intro h
    have hmul : 4 * offset.signExtend 32 = 4#32 := by bv_omega
    have hint : (offset.signExtend 32).toInt = offset.toInt :=
      BitVec.toInt_signExtend_of_le (by decide)
    have hlt := BitVec.toInt_lt (x := offset)
    have hle := BitVec.le_toInt (x := offset)
    -- four times a sign-extended halfword does not wrap
    have hmulInt := congrArg BitVec.toInt hmul
    rw [BitVec.toInt_mul, hint, show BitVec.toInt (4 : Word) = 4 from rfl,
      show BitVec.toInt 4#32 = 4 from rfl, Int.bmod_eq_of_le (by omega) (by omega)] at hmulInt
    apply BitVec.eq_of_toInt_eq
    show offset.toInt = 1
    omega
  · intro h
    rw [h, show BitVec.signExtend 32 (1 : BitVec 16) = 1#32 from rfl]
    bv_omega

/-- Jumps with one index go to one address if and only if their regions are the same. -/
theorem jump_eq_iff {a b : BitVec 4} {index : BitVec 26} :
    a ++ index ++ 0#2 = b ++ index ++ 0#2 ↔ a = b := by
  constructor
  · intro h
    apply BitVec.eq_of_getLsbD_eq
    intro i hi
    have hbit := congrArg (fun x => x.getLsbD (i + 28)) h
    have hlow : ¬ i + 28 < 2 := by omega
    have hindex : ¬ i + 28 - 2 < 26 := by omega
    have hregion : i + 28 - 2 - 26 = i := by omega
    simpa only [BitVec.getLsbD_append, hlow, hindex, hregion, if_false] using hbit
  · intro h
    rw [h]

end Control

end Mips32

end AimKernel
