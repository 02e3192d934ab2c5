import AimKernel.Lib.Mips32

/-!
# AimKernel.Arch.Trap

Skipping the victim of a trap on MIPS: `__skip_victim` and `__branch_target` of
`kern/arch/mips/arch_trap.c`, with the field macros of `decode.h`.

If the victim stands in a branch delay slot, `epc` locates the jump or branch in front of
it, which the kernel emulates. `emulatedRegs` and `emulatedPc` say what the emulation does
to an instruction, decoded as the architecture has it (`branchTarget_eq`). It differs from
the architecture in four places:

* J and JAL take the upper four bits of their target from the jump itself, not from its
  delay slot;
* BLEZ and BGTZ compare an `unsigned long` with zero, so that negative numbers count as
  positive;
* JALR writes register 0;
* a branch that links does so only if it is taken.
-/

namespace AimKernel

open Mips32

/-! ### `decode.h` -/

/-- `OPCODE`. -/
def opcode (insn : Word) : Word := (insn >>> 26) &&& 0x3f

/-- `R_RS` and `I_RS`. -/
def rRs (insn : Word) : Word := (insn >>> 21) &&& 0x1f

/-- `R_RD`. -/
def rRd (insn : Word) : Word := (insn >>> 11) &&& 0x1f

/-- `R_FUNC`. -/
def rFunc (insn : Word) : Word := insn &&& 0x3f

/-- `I_RT` and `I_FUNC`. -/
def iRt (insn : Word) : Word := (insn >>> 16) &&& 0x1f

/-- `I_IMMEDIATE`. -/
def iImmediate (insn : Word) : Word := insn &&& 0xffff

/-- `I_OFFSET`, a `signed short`. -/
def iOffset (insn : Word) : BitVec 16 := (iImmediate insn).setWidth 16

/-- `I_IOFFSET`. -/
def iIoffset (insn : Word) : Word := (iOffset insn).signExtend 32 <<< 2

/-- `J_ACTUAL_INDEX_MASK`. -/
def jActualIndexMask : Word := 0x0fffffff

/-- `J_INDEX`. -/
def jIndex (insn : Word) : Word := (insn &&& 0x3ffffff) <<< 2

@[simp] def opSpecial : Word := 0x00
@[simp] def fnJr : Word := 0x08
@[simp] def fnJalr : Word := 0x09
@[simp] def opRegimm : Word := 0x01
@[simp] def fnBltz : Word := 0x00
@[simp] def fnBgez : Word := 0x01
@[simp] def fnBltzl : Word := 0x02
@[simp] def fnBgezl : Word := 0x03
@[simp] def fnBltzal : Word := 0x10
@[simp] def fnBgezal : Word := 0x11
@[simp] def fnBltzall : Word := 0x12
@[simp] def fnBgezall : Word := 0x13
@[simp] def opJ : Word := 0x02
@[simp] def opJal : Word := 0x03
@[simp] def opBeq : Word := 0x04
@[simp] def opBne : Word := 0x05
@[simp] def opBlez : Word := 0x06
@[simp] def opBgtz : Word := 0x07
@[simp] def opBeql : Word := 0x14
@[simp] def opBnel : Word := 0x15
@[simp] def opBlezl : Word := 0x16
@[simp] def opBgtzl : Word := 0x17

/-! ### `arch_trap.c` -/

/-- The part of `struct trapframe` that is used here. `unsigned long` has 32 bits. -/
structure Trapframe where
  gpr : RegFile
  cause : Word
  epc : Word

namespace Trapframe

/-- `tf->gpr[i]`. The fields are masked to five bits, so that `i` is in bounds. -/
def reg (tf : Trapframe) (i : Word) : Word := tf.gpr (i.setWidth 5)

/-- `tf->gpr[i] = x`. -/
def setReg (tf : Trapframe) (i x : Word) : Trapframe :=
  { tf with gpr := Function.update tf.gpr (i.setWidth 5) x }

end Trapframe

/-- `_RA`. -/
def ra : Word := 31

/-- `CR_BD`. -/
def crBd : Word := 0x80000000

/-- `__branch_target`: the target and the trap frame afterwards. `none` is the panic at
`fail`. -/
def branchTarget (readInsn : Word → Word) (tf : Trapframe) (pc : Word) :
    Option (Word × Trapframe) :=
  let insn := readInsn pc
  let contPc := pc + 8
  if opcode insn = opSpecial then
    if rFunc insn = fnJalr then
      let tf := tf.setReg (rRd insn) contPc
      some (tf.reg (rRs insn), tf)
    else if rFunc insn = fnJr then some (tf.reg (rRs insn), tf)
    else none
  else if opcode insn = opJal then
    some ((pc &&& ~~~jActualIndexMask) ||| jIndex insn, tf.setReg ra contPc)
  else if opcode insn = opJ then some ((pc &&& ~~~jActualIndexMask) ||| jIndex insn, tf)
  else
    let rs := rRs insn
    let branchPc := pc + iIoffset insn + 4
    if opcode insn = opRegimm then
      let func := iRt insn
      if func = fnBltzal ∨ func = fnBltzall then
        let tf := if (tf.reg rs).toInt < 0 then tf.setReg ra contPc else tf
        some (if (tf.reg rs).toInt < 0 then branchPc else contPc, tf)
      else if func = fnBltz ∨ func = fnBltzl then
        some (if (tf.reg rs).toInt < 0 then branchPc else contPc, tf)
      else if func = fnBgezal ∨ func = fnBgezall then
        let tf := if (tf.reg rs).toInt ≥ 0 then tf.setReg ra contPc else tf
        some (if (tf.reg rs).toInt ≥ 0 then branchPc else contPc, tf)
      else if func = fnBgez ∨ func = fnBgezl then
        some (if (tf.reg rs).toInt ≥ 0 then branchPc else contPc, tf)
      else none
    else if opcode insn = opBlez ∨ opcode insn = opBlezl then
      -- `gpr` is unsigned, and so are these two comparisons
      some (if tf.reg rs ≤ 0 then branchPc else contPc, tf)
    else if opcode insn = opBgtz ∨ opcode insn = opBgtzl then
      some (if tf.reg rs > 0 then branchPc else contPc, tf)
    else
      let rt := iRt insn
      if opcode insn = opBeq ∨ opcode insn = opBeql then
        some (if tf.reg rs = tf.reg rt then branchPc else contPc, tf)
      else if opcode insn = opBne ∨ opcode insn = opBnel then
        some (if tf.reg rs ≠ tf.reg rt then branchPc else contPc, tf)
      else none

/-- `__skip_victim`. -/
def skipVictim (readInsn : Word → Word) (tf : Trapframe) : Option Trapframe :=
  if tf.cause &&& crBd ≠ 0 then
    match branchTarget readInsn tf tf.epc with
    | some (epc, tf) => some { tf with epc := epc }
    | none => none
  else some { tf with epc := tf.epc + 4 }

/-! ### Fields -/

/-- A shifted and masked word is the field of the word. -/
theorem field_eq (w : Word) (k n : Nat) (hn : n ≤ 32) :
    (w >>> k) &&& BitVec.ofNat 32 (2 ^ n - 1) = (w.extractLsb' k n).setWidth 32 := by
  have hpow : 2 ^ n ≤ 2 ^ 32 := Nat.pow_le_pow_right (by decide) hn
  have hpos : 0 < 2 ^ n := Nat.pow_pos (by decide)
  apply BitVec.eq_of_toNat_eq
  rw [BitVec.toNat_and, BitVec.toNat_ofNat, BitVec.toNat_setWidth, BitVec.extractLsb'_toNat,
    BitVec.toNat_ushiftRight, Nat.mod_eq_of_lt (a := 2 ^ n - 1) (by omega),
    Nat.and_two_pow_sub_one_eq_mod,
    Nat.mod_eq_of_lt (a := w.toNat >>> k % 2 ^ n) (by omega)]

theorem opcode_eq (w : Word) : opcode w = (w.extractLsb' 26 6).setWidth 32 :=
  field_eq w 26 6 (by decide)

theorem rRs_eq (w : Word) : rRs w = (w.extractLsb' 21 5).setWidth 32 := field_eq w 21 5 (by decide)

theorem rRd_eq (w : Word) : rRd w = (w.extractLsb' 11 5).setWidth 32 := field_eq w 11 5 (by decide)

theorem iRt_eq (w : Word) : iRt w = (w.extractLsb' 16 5).setWidth 32 := field_eq w 16 5 (by decide)

theorem rFunc_eq (w : Word) : rFunc w = (w.extractLsb' 0 6).setWidth 32 := by
  have h := field_eq w 0 6 (by decide)
  rwa [BitVec.ushiftRight_zero] at h

theorem iOffset_eq (w : Word) : iOffset w = w.extractLsb' 0 16 := by
  have h := field_eq w 0 16 (by decide)
  rw [BitVec.ushiftRight_zero] at h
  show (w &&& BitVec.ofNat 32 (2 ^ 16 - 1)).setWidth 16 = _
  rw [h, BitVec.setWidth_setWidth_of_le _ (by decide), BitVec.setWidth_eq]

/-- The target of J and JAL as the kernel computes it. -/
theorem jIndex_eq (pc w : Word) :
    (pc &&& ~~~jActualIndexMask) ||| jIndex w =
      pc.extractLsb' 28 4 ++ w.extractLsb' 0 26 ++ 0#2 := by
  have h28 : ∀ i : Fin 32, jActualIndexMask.getLsbD i = decide (i.val < 28) := by decide
  have h26 : ∀ i : Fin 32, (0x3ffffff : Word).getLsbD i = decide (i.val < 26) := by decide
  apply BitVec.eq_of_getLsbD_eq
  intro i hi
  rw [jIndex, BitVec.getLsbD_or, BitVec.getLsbD_and, BitVec.getLsbD_not,
    BitVec.getLsbD_shiftLeft, BitVec.getLsbD_and, h28 ⟨i, hi⟩, h26 ⟨i - 2, by omega⟩,
    BitVec.getLsbD_append, BitVec.getLsbD_append, BitVec.getLsbD_extractLsb',
    BitVec.getLsbD_extractLsb']
  by_cases hlow : i < 2
  · have hregion : i < 28 := by omega
    simp [hlow, hregion]
  · by_cases hregion : i < 28
    · have hindex : i - 2 < 26 := by omega
      simp [hlow, hregion, hindex]
      omega
    · have hindex : ¬ i - 2 < 26 := by omega
      have hbit : 28 + (i - 2 - 26) = i := by omega
      have hlast : i - 2 - 26 < 4 := by omega
      rw [hbit]
      simp [hlow, hregion, hindex, hlast, hi]

/-- The target of a branch as the kernel computes it. -/
theorem branchPc_eq (pc w : Word) :
    pc + iIoffset w + 4 = Control.branchAddress pc (w.extractLsb' 0 16) := by
  have hshift : (iOffset w).signExtend 32 <<< 2 = 4 * (iOffset w).signExtend 32 := by
    rw [BitVec.shiftLeft_eq_mul_twoPow, BitVec.mul_comm]
    rfl
  unfold iIoffset Control.branchAddress
  rw [hshift, iOffset_eq, BitVec.add_assoc, BitVec.add_assoc, BitVec.add_comm 4]

/-! ### The emulation -/

/-- The condition of a branch as the kernel tests it. -/
def Mips32.Cond.emulated (r : RegFile) : Cond → Bool
  | .lez rs => r rs ≤ 0
  | .gtz rs => r rs > 0
  | c => c.holds r

namespace Mips32.Control

/-- The registers after `__branch_target`. -/
def emulatedRegs (pc : Word) (r : RegFile) : Control → RegFile
  | jump _ link => if link then Function.update r 31 (pc + 8) else r
  | jumpRegister _ none => r
  | jumpRegister _ (some rd) => Function.update r rd (pc + 8)
  | branch cond _ _ link => if link ∧ cond.holds r then Function.update r 31 (pc + 8) else r

/-- The target `__branch_target` returns, with `r` the registers afterwards. -/
def emulatedPc (pc : Word) (r : RegFile) : Control → Word
  | jump index _ => pc.extractLsb' 28 4 ++ index ++ 0#2
  | jumpRegister rs _ => r rs
  | branch cond offset _ _ => if cond.emulated r then branchAddress pc offset else pc + 8

end Mips32.Control

theorem Trapframe.reg_field (tf : Trapframe) (x : Reg) : tf.reg (x.setWidth 32) = tf.gpr x := by
  rw [reg, BitVec.setWidth_setWidth_of_le _ (by decide), BitVec.setWidth_eq]

theorem Trapframe.setReg_field (tf : Trapframe) (i : Reg) (x : Word) :
    tf.setReg (i.setWidth 32) x = { tf with gpr := Function.update tf.gpr i x } := by
  rw [setReg, BitVec.setWidth_setWidth_of_le _ (by decide), BitVec.setWidth_eq]

theorem Trapframe.setReg_ra (tf : Trapframe) (x : Word) :
    tf.setReg ra x = { tf with gpr := Function.update tf.gpr 31 x } := rfl

theorem Trapframe.setReg_ra_ite (tf : Trapframe) (x : Word) (p : Prop) [Decidable p] :
    (if p then tf.setReg ra x else tf) =
      { tf with gpr := if p then Function.update tf.gpr 31 x else tf.gpr } := by
  split <;> rfl

/-- What the kernel does with a word that encodes a jump or branch. -/
theorem branchTarget_eq {readInsn : Word → Word} {tf : Trapframe} {pc : Word} {c : Control}
    (h : Control.decode (readInsn pc) = some c) :
    branchTarget readInsn tf pc =
      some (c.emulatedPc pc (c.emulatedRegs pc tf.gpr),
        { tf with gpr := c.emulatedRegs pc tf.gpr }) := by
  unfold branchTarget
  simp only [opcode_eq, rRs_eq, rRd_eq, iRt_eq, rFunc_eq, jIndex_eq, branchPc_eq]
  unfold Control.decode at h
  dsimp only at h
  split at h
  case h_1 hop =>
    rw [hop]
    split at h
    case h_1 hfunc =>
      cases h
      simp [hfunc, Trapframe.reg_field, Control.emulatedPc, Control.emulatedRegs]
    case h_2 hfunc =>
      cases h
      simp [hfunc, Trapframe.reg_field, Trapframe.setReg_field, Control.emulatedPc,
        Control.emulatedRegs]
    case h_3 => cases h
  case h_2 hop =>
    rw [hop]
    unfold Control.decodeRegimm at h
    split at h
    case h_9 => cases h
    all_goals
      next hfunc =>
        cases h
        simp [hfunc, Trapframe.setReg_ra_ite, Trapframe.reg_field, Control.emulatedPc,
          Control.emulatedRegs, Cond.emulated, Cond.holds]
  case h_13 => cases h
  all_goals
    next hop =>
      cases h
      simp [hop, Trapframe.reg_field, Trapframe.setReg_ra, Control.emulatedPc,
        Control.emulatedRegs, Cond.emulated, Cond.holds]

/-! ### Against the architecture -/

/-- Signed and unsigned reading agree on numbers that are not negative. -/
theorem toInt_eq_of_nonneg {x : Word} (h : 0 ≤ x.toInt) : x.toInt = x.toNat := by
  have hcond := BitVec.toInt_eq_toNat_cond x
  split at hcond <;> omega

/-- Numbers that are not negative are compared with zero as the architecture does. -/
theorem Mips32.Cond.emulated_of_nonneg {r : RegFile} {cond : Cond}
    (h : ∀ rs, cond = .lez rs ∨ cond = .gtz rs → 0 ≤ (r rs).toInt) :
    cond.emulated r = cond.holds r := by
  cases cond with
  | eq _ _ => rfl
  | ne _ _ => rfl
  | ltz _ => rfl
  | gez _ => rfl
  | lez rs =>
    have hint := toInt_eq_of_nonneg (h rs (.inl rfl))
    simp only [emulated, holds, decide_eq_decide, BitVec.le_def, hint]
    show (r rs).toNat ≤ 0 ↔ _
    omega
  | gtz rs =>
    have hint := toInt_eq_of_nonneg (h rs (.inr rfl))
    simp only [emulated, holds, decide_eq_decide, gt_iff_lt, BitVec.lt_def, hint]
    show 0 < (r rs).toNat ↔ _
    omega

/-- Negative numbers are taken for positive ones. -/
theorem Mips32.Cond.emulated_of_neg {r : RegFile} {cond : Cond} {rs : Reg}
    (hcond : cond = .lez rs ∨ cond = .gtz rs) (h : (r rs).toInt < 0) :
    cond.emulated r = !cond.holds r := by
  have hne : (r rs).toNat ≠ 0 := by
    have hcond := BitVec.toInt_eq_toNat_cond (r rs)
    split at hcond <;> omega
  rcases hcond with rfl | rfl
  · have hle : ¬ r rs ≤ 0 := by
      show ¬ (r rs).toNat ≤ 0
      omega
    have hholds : (r rs).toInt ≤ 0 := by omega
    simp only [emulated, holds, hle, hholds, decide_false, decide_true, Bool.not_true]
  · have hlt : r rs > 0 := by
      show 0 < (r rs).toNat
      omega
    have hholds : ¬ (r rs).toInt > 0 := by omega
    simp only [emulated, holds, hlt, hholds, decide_false, decide_true, Bool.not_false]

theorem Mips32.Cond.emulated_congr {r r' : RegFile} {c : Cond} (h : ∀ i ∈ c.reads, r' i = r i) :
    c.emulated r' = c.emulated r := by
  cases c with
  | eq rs rt => exact Cond.holds_congr h
  | ne rs rt => exact Cond.holds_congr h
  | ltz rs => exact Cond.holds_congr h
  | gez rs => exact Cond.holds_congr h
  | lez rs => simp only [emulated, h rs (by simp [reads])]
  | gtz rs => simp only [emulated, h rs (by simp [reads])]

namespace Mips32.Control

/-- Where the emulated target is that of the architecture: a jump whose delay slot lies in
its own region, and BLEZ and BGTZ of a number that is not negative (or with both ways
leading to one address). -/
def TargetAgrees (pc : Word) (r : RegFile) : Control → Prop
  | jump _ _ => pc.extractLsb' 28 4 = (pc + 4).extractLsb' 28 4
  | jumpRegister _ _ => True
  | branch cond offset _ _ =>
    (∀ rs, cond = .lez rs ∨ cond = .gtz rs → 0 ≤ (r rs).toInt) ∨ offset = 1

variable {pc : Word} {r : RegFile} {c : Control}

/-- The registers an instruction that can be restarted reads are not changed. -/
theorem emulatedRegs_reads {cond : Cond} {offset : BitVec 16} {likely link : Bool}
    (h : (branch cond offset likely link).Restartable) :
    ∀ i ∈ cond.reads, (branch cond offset likely link).emulatedRegs pc r i = r i := by
  intro i hi
  simp only [emulatedRegs]
  split
  next htaken =>
    apply Function.update_of_ne
    intro heq
    exact h htaken.1 (heq ▸ hi)
  next => rfl

theorem emulatedPc_iff (h : c.Restartable) :
    c.emulatedPc pc (c.emulatedRegs pc r) = c.nextPc pc r ↔ c.TargetAgrees pc r := by
  cases c with
  | jump index link => exact jump_eq_iff
  | jumpRegister rs rd =>
    refine iff_of_true ?_ trivial
    cases rd with
    | none => rfl
    | some rd => exact Function.update_of_ne (fun heq => h (congrArg some heq.symm)) _ _
  | branch cond offset likely link =>
    simp only [emulatedPc, nextPc, TargetAgrees,
      Cond.emulated_congr (emulatedRegs_reads h)]
    by_cases hnonneg : ∀ rs, cond = .lez rs ∨ cond = .gtz rs → 0 ≤ (r rs).toInt
    · rw [Cond.emulated_of_nonneg hnonneg]
      exact iff_of_true rfl (.inl hnonneg)
    · -- the wrong way is taken, so both ways have to be the same
      have hneg := hnonneg
      simp only [not_forall, Int.not_le] at hneg
      obtain ⟨rs, hcond, hlt⟩ := hneg
      have hsame : branchAddress pc offset = pc + 8 ↔ offset = 1 := branchAddress_eq_iff
      rw [Cond.emulated_of_neg hcond hlt, or_iff_right hnonneg, ← hsame]
      cases cond.holds r with
      | true => exact eq_comm
      | false => exact Iff.rfl

/-- Where the emulated registers are those of the architecture: JALR does not name register
0, and a branch that links is taken (or the link register holds its value already). -/
def LinkAgrees (pc : Word) (r : RegFile) : Control → Prop
  | jump _ _ => True
  | jumpRegister _ rd => rd = some 0 → r 0 = pc + 8
  | branch cond _ _ link => link = true → cond.holds r = true ∨ r 31 = pc + 8

theorem emulatedRegs_iff :
    c.emulatedRegs pc r = c.regs pc r ↔ c.LinkAgrees pc r := by
  cases c with
  | jump index link => cases link <;> simp [emulatedRegs, regs, linkRegister, LinkAgrees]
  | jumpRegister rs rd =>
    cases rd with
    | none => simp [emulatedRegs, regs, linkRegister, LinkAgrees]
    | some rd =>
      by_cases hzero : rd = 0#5
      · simp [emulatedRegs, regs, linkRegister, LinkAgrees, hzero, eq_comm]
      · simp [emulatedRegs, regs, linkRegister, LinkAgrees, hzero]
  | branch cond offset likely link =>
    cases link with
    | false => simp [emulatedRegs, regs, linkRegister, LinkAgrees]
    | true =>
      cases hholds : cond.holds r with
      | true => simp [emulatedRegs, regs, linkRegister, LinkAgrees, hholds]
      | false =>
        simp [emulatedRegs, regs, linkRegister, LinkAgrees, hholds, eq_comm]

end Mips32.Control

/-- Resuming after a trap in a delay slot: for every jump or branch that can be restarted,
`__skip_victim` sets `epc` to the architecture's next address if and only if the jump stays
in its own region and BLEZ and BGTZ do not test a negative number. -/
theorem skip_victim_resumes {readInsn : Word → Word} {tf : Trapframe} {c : Control}
    (hbd : tf.cause &&& crBd ≠ 0) (hinsn : Control.decode (readInsn tf.epc) = some c)
    (hrestart : c.Restartable) :
    ∃ tf', skipVictim readInsn tf = some tf' ∧
      (tf'.epc = c.nextPc tf.epc tf.gpr ↔ c.TargetAgrees tf.epc tf.gpr) := by
  have hrun : skipVictim readInsn tf =
      some { tf with
        gpr := c.emulatedRegs tf.epc tf.gpr
        epc := c.emulatedPc tf.epc (c.emulatedRegs tf.epc tf.gpr) } := by
    rw [skipVictim, if_pos hbd, branchTarget_eq hinsn]
  exact ⟨_, hrun, Control.emulatedPc_iff hrestart⟩

/-- A taken BGEZ, backwards, with the registers of a running program. -/
theorem skip_victim_resumes_bgez :
    ∃ tf', skipVictim (fun _ => 0x0481fffe) ⟨fun i => if i = 4 then 7 else 0, crBd, 0x80001000⟩ =
        some tf' ∧
      (tf'.epc = (Control.branch (.gez 4) 0xfffe false false).nextPc 0x80001000
          (fun i => if i = 4 then 7 else 0) ↔
        (Control.branch (.gez 4) 0xfffe false false).TargetAgrees 0x80001000
          fun i => if i = 4 then 7 else 0) :=
  skip_victim_resumes (c := .branch (.gez 4) 0xfffe false false) (by decide) (by decide)
    fun h => absurd h (by decide)

/-- BLEZ of a negative number is not taken, and J in the last word of a region jumps
inside the region it leaves. -/
theorem skip_victim_goes_astray :
    ((skipVictim (fun _ => 0x18800004) ⟨fun i => if i = 4 then -1 else 0, crBd, 0x80001000⟩).map
        Trapframe.epc = some 0x80001008 ∧
      Control.decode 0x18800004 = some (.branch (.lez 4) 4 false false) ∧
      (Control.branch (.lez 4) 4 false false).nextPc 0x80001000
        (fun i => if i = 4 then -1 else 0) = 0x80001014) ∧
    (skipVictim (fun _ => 0x08000000) ⟨fun _ => 0, crBd, 0x8ffffffc⟩).map Trapframe.epc =
        some 0x80000000 ∧
      Control.decode 0x08000000 = some (.jump 0 false) ∧
      (Control.jump 0 false).nextPc 0x8ffffffc (fun _ => 0) = 0x90000000 := by
  decide

/-- Registers after `__branch_target`: for every jump or branch they are those of the
architecture if and only if JALR does not name register 0 and a branch that links is taken
(or the register has the value already). -/
theorem branch_target_registers {readInsn : Word → Word} {tf : Trapframe} {pc : Word}
    {c : Control} (hinsn : Control.decode (readInsn pc) = some c) :
    ∃ target tf', branchTarget readInsn tf pc = some (target, tf') ∧
      (tf'.gpr = c.regs pc tf.gpr ↔ c.LinkAgrees pc tf.gpr) :=
  ⟨_, _, branchTarget_eq hinsn, Control.emulatedRegs_iff⟩

/-- JALR to register 31. -/
theorem branch_target_registers_jalr :
    ∃ target tf', branchTarget (fun _ => 0x0320f809) ⟨fun _ => 0x80002000, crBd, 0x80001000⟩
        0x80001000 = some (target, tf') ∧
      (tf'.gpr = (Control.jumpRegister 25 (some 31)).regs 0x80001000 (fun _ => 0x80002000) ↔
        (Control.jumpRegister 25 (some 31)).LinkAgrees 0x80001000 fun _ => 0x80002000) :=
  branch_target_registers (by decide)

/-- JALR with `rd = 0` writes register 0, and BGEZAL that is not taken does not link. -/
theorem branch_target_links_wrong :
    ((branchTarget (fun _ => 0x03200009) ⟨fun _ => 0, crBd, 0x80001000⟩ 0x80001000).map
        (fun p => p.2.gpr 0) = some 0x80001008 ∧
      Control.decode 0x03200009 = some (.jumpRegister 25 (some 0)) ∧
      (Control.jumpRegister 25 (some 0)).regs 0x80001000 (fun _ => 0) 0 = 0) ∧
    (branchTarget (fun _ => 0x04910004) ⟨fun i => if i = 4 then -1 else 0, crBd, 0x80001000⟩
        0x80001000).map (fun p => p.2.gpr 31) = some 0 ∧
      Control.decode 0x04910004 = some (.branch (.gez 4) 4 false true) ∧
      (Control.branch (.gez 4) 4 false true).regs 0x80001000 (fun i => if i = 4 then -1 else 0) 31 =
        0x80001008 := by
  decide

end AimKernel
