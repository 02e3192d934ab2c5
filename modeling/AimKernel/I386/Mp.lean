import AimKernel.Lib.Memory
import AimKernel.Lib.Wp
import Mathlib.Logic.Function.Basic

/-!
# AimKernel.I386.Mp

The scan of the MP configuration table: `mpinit` of `arch_mp.c`.

The table is whatever firmware has left from `conf` on, as bytes by their offset; finding it
(`mpsearch`) is not part of the model. An entry of unknown type is meant to end the scan and to lead
to the fall-back. But the `break` behind `ismp = 0` leaves the `switch` only, and the cursor has not
moved: the scan meets the same entry again, for ever.
-/

namespace AimKernel.Mp

/-- `sizeof(struct mpconf)`: where the entries begin. -/
def confSize : Nat := 44

/-- `conf->length`. -/
def length (t : Mem) : Nat := (t 4).toNat + 256 * (t 5).toNat

def sum (t : Mem) : Nat → UInt8
  | 0 => 0
  | len + 1 => sum t len + t len

/-- The tests of `mpconfig`: signature, version and checksum. -/
def mpconfig (t : Mem) : Bool :=
  [t 0, t 1, t 2, t 3] == "PCMP".toList.map (fun c => c.toNat.toUInt8) && (t 6 == 1 || t 6 == 4) &&
    sum t (length t) == 0

/-- The variables that `mpinit` sets; `apicids` are the `apicid` of `cpus`. -/
structure Info where
  ismp : Bool
  ncpu : Nat
  apicids : Nat → UInt8
  ioapicid : UInt8
  lapic : Nat

section Scan

variable (cpunum : Nat) (t : Mem)

/-- The `switch`: the next value of the cursor, and the variables. -/
def entry (p : Nat) (g : Info) : Nat × Info :=
  match (t p).toNat with
  -- MPPROC
  | 0 => (p + 20, if g.ncpu < cpunum then
      { g with apicids := Function.update g.apicids g.ncpu (t (p + 1)), ncpu := g.ncpu + 1 } else g)
  -- MPIOAPIC
  | 2 => (p + 8, { g with ioapicid := t (p + 1) })
  -- MPBUS, MPIOINTR, MPLINTR
  | 1 | 3 | 4 => (p + 8, g)
  | _ => (p, { g with ismp := false })

/-- The loop over the entries. -/
def entryLoop : Nat → Nat → Info → Option Info
  | 0, _, _ => none
  | fuel + 1, p, g =>
    if p < length t then entryLoop fuel (entry cpunum t p g).1 (entry cpunum t p g).2 else some g

/-- How `mpinit` ends: without a table, in the fall-back, or with interrupts routed past the IMCR if
there is one. -/
inductive Outcome
  | absent
  | panic (msg : String)
  | enabled (imcr : Bool)
  deriving Repr, DecidableEq

def mpinit (imcrp : Bool) (g : Info) (fuel : Nat) : Option (Outcome × Info) :=
  if mpconfig t then
    (entryLoop cpunum t fuel confSize { g with ismp := true, lapic := t.load32 36 }).map fun g =>
      if g.ismp then (.enabled imcrp, g)
      else (.panic "mpinit failed!\n", { g with ncpu := 1, lapic := 0, ioapicid := 0 })
  else some (.absent, g)

end Scan

/-! ### The entries of a table -/

/-- The size of an entry of known type. -/
def entrySize (type : UInt8) : Nat := if type = 0 then 20 else 8

/-- Where the entries are, up to the first of unknown type. -/
inductive EntryAt (t : Mem) : Nat → Prop
  | first : EntryAt t confSize
  | next {p : Nat} (h : EntryAt t p) (hp : p < length t) (hknown : t p ≤ 4) :
      EntryAt t (p + entrySize (t p))

/-- There is an entry of unknown type. -/
def HasUnknown (t : Mem) : Prop := ∃ p, EntryAt t p ∧ p < length t ∧ 4 < t p

variable {cpunum : Nat} {t : Mem} {p : Nat} {g : Info}

/-- An entry of known type is skipped, and counted if it is a processor and there is room. -/
theorem entry_known (cpunum : Nat) (g : Info) (h : t p ≤ 4) :
    (entry cpunum t p g).1 = p + entrySize (t p) ∧ (entry cpunum t p g).2.ismp = g.ismp ∧
      (g.ncpu ≤ cpunum → (entry cpunum t p g).2.ncpu ≤ cpunum) := by
  have htype : t p = 0 ∨ t p = 1 ∨ t p = 2 ∨ t p = 3 ∨ t p = 4 := by
    simp only [← UInt8.toNat_inj, UInt8.le_iff_toNat_le] at h ⊢
    simp at h ⊢
    omega
  unfold entry entrySize
  rcases htype with h | h | h | h | h <;> rw [h]
  · refine ⟨rfl, ?_, ?_⟩
    · simp only [UInt8.toNat_zero]
      split <;> rfl
    · simp only [UInt8.toNat_zero]
      split
      · exact fun _ => by assumption
      · exact id
  all_goals exact ⟨rfl, rfl, id⟩

theorem entry_unknown (g : Info) (h : 4 < t p) :
    entry cpunum t p g = (p, { g with ismp := false }) := by
  unfold entry
  rw [UInt8.lt_iff_toNat_lt] at h
  simp at h
  split <;> first | omega | rfl

theorem EntryAt.confSize_le (h : EntryAt t p) : confSize ≤ p := by
  induction h with
  | first => exact Nat.le_refl _
  | next _ _ _ ih => exact Nat.le_add_right_of_le ih

/-- The loop gets to every entry. -/
theorem EntryAt.reached (h : EntryAt t p) (cpunum : Nat) (g : Info) :
    ∃ n g', ∀ fuel, entryLoop cpunum t (fuel + n) confSize g = entryLoop cpunum t fuel p g' := by
  induction h with
  | first => exact ⟨0, g, fun _ => rfl⟩
  | @next p h hp hknown ih =>
    obtain ⟨n, g', hn⟩ := ih
    refine ⟨n + 1, (entry cpunum t p g').2, fun fuel => ?_⟩
    rw [Nat.add_comm n 1, ← Nat.add_assoc, hn, entryLoop, if_pos hp, (entry_known cpunum g' hknown).1]

/-- An entry of unknown type is never left. -/
theorem entryLoop_unknown (hp : p < length t) (h : 4 < t p) (fuel : Nat) (g : Info) :
    entryLoop cpunum t fuel p g = none := by
  induction fuel generalizing g with
  | zero => rfl
  | succ fuel ih =>
    rw [entryLoop, if_pos hp, entry_unknown g h]
    exact ih _

theorem HasUnknown.starves (h : HasUnknown t) (cpunum : Nat) (g : Info) (m : Nat) :
    ∃ fuel, m ≤ fuel ∧ entryLoop cpunum t fuel confSize g = none := by
  obtain ⟨p, hentry, hp, hunknown⟩ := h
  obtain ⟨n, g', hn⟩ := hentry.reached cpunum g
  exact ⟨m + n, Nat.le_add_right m n, by rw [hn, entryLoop_unknown hp hunknown]⟩

/-- Without entries of unknown type the loop comes to the end of the table. -/
theorem EntryAt.returns (hnone : ¬ HasUnknown t) (h : EntryAt t p) (hcount : g.ncpu ≤ cpunum) :
    ∃ g', Returns (fun fuel => entryLoop cpunum t fuel p g) g' ∧ g'.ncpu ≤ cpunum ∧
      g'.ismp = g.ismp := by
  induction hn : length t - p using Nat.strongRecOn generalizing p g with
  | ind n ih =>
    by_cases hp : p < length t
    · have hknown : t p ≤ 4 := UInt8.not_lt.mp fun hunknown => hnone ⟨p, h, hp, hunknown⟩
      obtain ⟨hcursor, hismp, hncpu⟩ := entry_known cpunum g hknown
      have hpos : 0 < entrySize (t p) := by
        unfold entrySize
        split <;> decide
      obtain ⟨g', ⟨m, hm⟩, hcount', hismp'⟩ := ih _ (by omega) (h.next hp hknown) (hncpu hcount) rfl
      refine ⟨g', ⟨m + 1, fun fuel hfuel => ?_⟩, hcount', hismp'.trans hismp⟩
      obtain ⟨fuel, rfl⟩ := Nat.exists_eq_add_of_le' (Nat.le_trans (Nat.le_add_left 1 m) hfuel)
      dsimp only
      rw [entryLoop, if_pos hp, hcursor]
      exact hm fuel (Nat.le_of_succ_le_succ hfuel)
    · refine ⟨g, ⟨1, fun fuel hfuel => ?_⟩, hcount, rfl⟩
      obtain ⟨fuel, rfl⟩ := Nat.exists_eq_add_of_le' hfuel
      exact if_neg hp

/-- **The scan of the MP table.** For every table that passes `mpconfig`, `mpinit` returns with at
most `CPUNUM` processors, in the fall-back exactly if there is an entry of unknown type, if and only if
there is none. -/
theorem mpinit_ends_iff (imcrp : Bool) (hconf : mpconfig t = true) (hcount : g.ncpu ≤ cpunum) :
    (∃ out g', Returns (mpinit cpunum t imcrp g) (out, g') ∧ g'.ncpu ≤ cpunum ∧
      (out = .panic "mpinit failed!\n" ↔ HasUnknown t)) ↔ ¬ HasUnknown t := by
  have hinit : ∀ fuel, mpinit cpunum t imcrp g fuel =
      (entryLoop cpunum t fuel confSize { g with ismp := true, lapic := t.load32 36 }).map _ :=
    fun fuel => if_pos hconf
  constructor
  · rintro ⟨out, g', ⟨m, hm⟩, -⟩ hunknown
    obtain ⟨fuel, hfuel, hnone⟩ := hunknown.starves cpunum
      { g with ismp := true, lapic := t.load32 36 } m
    have hsome := hm fuel hfuel
    rw [hinit, hnone] at hsome
    cases hsome
  · intro hnone
    obtain ⟨g', ⟨n, hn⟩, hle, hismp⟩ := EntryAt.first.returns
      (g := { g with ismp := true, lapic := t.load32 36 }) hnone hcount
    refine ⟨.enabled imcrp, g', ⟨n, fun fuel hfuel => ?_⟩, hle, by simp [hnone]⟩
    have hloop := hn fuel hfuel
    dsimp only at hloop
    rw [hinit, hloop, Option.map_some, if_pos hismp]

/-- A table of the given length with the given byte as the type of its first entry. -/
def shortTable (len checksum type : UInt8) : Mem := fun i =>
  ([0x50, 0x43, 0x4d, 0x50, len, 0, 1, checksum] : List UInt8).getD i (if i = confSize then type else 0)

/-- A table with one processor. -/
theorem mpinit_ends_one_processor :
    ∃ out g', Returns (mpinit 8 (shortTable 64 0x8f 0) false ⟨false, 0, fun _ => 0, 0, 0⟩) (out, g') ∧
      g'.ncpu ≤ 8 := by
  have hnone : ¬ HasUnknown (shortTable 64 0x8f 0) := by
    rintro ⟨p, hentry, -, htype⟩
    have hzero : shortTable 64 0x8f 0 p = 0 := by
      have hge := hentry.confSize_le
      unfold confSize at hge
      unfold shortTable
      rw [List.getD_eq_getElem?_getD, List.getElem?_eq_none (by simp; omega)]
      simp
    rw [hzero] at htype
    exact absurd htype (by decide)
  obtain ⟨out, g', hreturns, hle, -⟩ := (@mpinit_ends_iff 8 _ ⟨false, 0, fun _ => 0, 0, 0⟩ false
    (by decide +kernel) (by decide)).mpr hnone
  exact ⟨out, g', hreturns, hle⟩

/-- A table with one entry, of type `5`: it passes the tests, and `mpinit` does not return. -/
theorem mpinit_hangs : mpconfig (shortTable 45 0x9d 5) = true ∧
    HasUnknown (shortTable 45 0x9d 5) ∧
    ∀ g r, ¬ Returns (mpinit 8 (shortTable 45 0x9d 5) false g) r := by
  have hconf : mpconfig (shortTable 45 0x9d 5) = true := by decide +kernel
  have hunknown : HasUnknown (shortTable 45 0x9d 5) :=
    ⟨confSize, .first, by decide, by decide⟩
  refine ⟨hconf, hunknown, ?_⟩
  rintro g r ⟨m, hm⟩
  obtain ⟨fuel, hfuel, hnone⟩ := hunknown.starves 8 _ m
  have hsome := hm fuel hfuel
  rw [mpinit, if_pos hconf, hnone] at hsome
  cases hsome

end AimKernel.Mp
